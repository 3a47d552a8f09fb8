import SlotPool.Proofs.Family

/-!
# Where a slot is put, and what is asked for it

A slot that is put into a stack goes in front of the first slot that is greater, or to the end. This
takes no order: the comparison may answer as it likes, and the stack may be in any state. `rank` is
the place, and `Stack.insertM` writes down what was compared on the way to it.
-/

namespace SlotPool

open Memory

variable {ε : Type}

/-! ## Comparisons that do something besides -/

section

variable {μ : Type → Type} [Monad μ]

def Memory.predecessorM (m : Memory ε) (cmp : Array ε → Array ε → μ Ordering) (v : Array ε) :
    Nat → Slot → μ Slot
  | 0, cursor => pure cursor
  | fuel + 1, cursor =>
    match m.next? cursor with
    | none => pure cursor
    | some next => do
      if (← cmp v (m.value next)) = .lt then pure cursor else m.predecessorM cmp v fuel next

/-- Puts a slot where its value belongs, by a comparison with an effect. -/
def Stack.insertM (cmp : Array ε → Array ε → μ Ordering) (m : Memory ε) (st : Stack) (s : Slot) :
    μ (Memory ε × Stack) :=
  match st.head with
  | none => pure (st.push m s)
  | some first => do
    let v := m.value s
    if (← cmp v (m.value first)) = .lt then pure (st.push m s)
    else
      let before ← m.predecessorM cmp v m.size first
      let next := m.next? before
      pure ((m.setNext s next).setNext before (some s),
        { st with
          tail := if st.tail = some before then some s else st.tail
          length := st.length + 1 })

variable [LawfulMonad μ]

theorem Memory.predecessorM_pure (m : Memory ε) (cmp : Array ε → Array ε → Ordering)
    (v : Array ε) (fuel : Nat) (cursor : Slot) :
    m.predecessorM (fun a b => (pure (cmp a b) : μ Ordering)) v fuel cursor =
      pure (m.predecessor cmp v fuel cursor) := by
  induction fuel generalizing cursor with
  | zero => rfl
  | succ fuel ih =>
    rw [predecessorM, predecessor]
    cases m.next? cursor with
    | none => rfl
    | some next =>
      simp only [pure_bind, ih]
      split <;> rfl

theorem Stack.insertM_pure (cmp : Array ε → Array ε → Ordering) (m : Memory ε) (st : Stack)
    (s : Slot) :
    st.insertM (fun a b => (pure (cmp a b) : μ Ordering)) m s = pure (st.insert cmp m s) := by
  rw [insertM, insert]
  cases st.head with
  | none => rfl
  | some first =>
    simp only [pure_bind, predecessorM_pure]
    split <;> rfl

end

/-- The comparison, which writes down what it compares. -/
def noted (cmp : Array ε → Array ε → Ordering) (a b : Array ε) :
    StateM (List (Array ε × Array ε)) Ordering := do
  modify (· ++ [(a, b)])
  return cmp a b

/-! ## The place -/

/-- The number of slots in front of the first one that is greater than `v`. -/
def Memory.rank (m : Memory ε) (cmp : Array ε → Array ε → Ordering) (v : Array ε)
    (l : List Slot) : Nat :=
  l.findIdx fun t => decide (cmp v (m.value t) = .lt)

variable {m : Memory ε} {cmp cmp' : Array ε → Array ε → Ordering} {v : Array ε} {st : Stack}
  {s t : Slot} {l : List Slot} {fuel : Nat}

theorem Memory.rank_cons_of_lt (h : cmp v (m.value t) = .lt) : m.rank cmp v (t :: l) = 0 := by
  simp [rank, List.findIdx_cons, h]

theorem Memory.rank_cons_of_not_lt (h : cmp v (m.value t) ≠ .lt) :
    m.rank cmp v (t :: l) = m.rank cmp v l + 1 := by
  simp [rank, List.findIdx_cons, h]

theorem Memory.not_lt_of_mem_take_rank (h : t ∈ l.take (m.rank cmp v l)) :
    cmp v (m.value t) ≠ .lt := by
  induction l with
  | nil => simp at h
  | cons u rest ih =>
    by_cases hlt : cmp v (m.value u) = .lt
    · simp [rank_cons_of_lt hlt] at h
    · rw [rank_cons_of_not_lt hlt, List.take_succ_cons, List.mem_cons] at h
      rcases h with rfl | h
      · exact hlt
      · exact ih h

theorem Memory.lt_of_getElem?_rank (h : l[m.rank cmp v l]? = some t) :
    cmp v (m.value t) = .lt := by
  induction l with
  | nil => simp at h
  | cons u rest ih =>
    by_cases hlt : cmp v (m.value u) = .lt
    · rw [rank_cons_of_lt hlt] at h
      obtain rfl : u = t := by simpa using h
      exact hlt
    · rw [rank_cons_of_not_lt hlt, List.getElem?_cons_succ] at h
      exact ih h

theorem Stack.insertBefore_rank :
    insertBefore (fun t => decide (cmp v (m.value t) = .lt)) s l =
      l.take (m.rank cmp v l) ++ s :: l.drop (m.rank cmp v l) := by
  rw [insertBefore, List.takeWhile_eq_take_findIdx_not, List.dropWhile_eq_drop_findIdx_not]
  simp only [Bool.not_not]
  rfl

/-! ## What is compared -/

/-- The pairs that are compared when a slot with value `v` is put among the slots `l`. -/
def Memory.compared (m : Memory ε) (cmp : Array ε → Array ε → Ordering) (v : Array ε)
    (l : List Slot) : List (Array ε × Array ε) :=
  (l.take (m.rank cmp v l + 1)).map fun t => (v, m.value t)

theorem Memory.compared_cons_of_lt (h : cmp v (m.value t) = .lt) :
    m.compared cmp v (t :: l) = [(v, m.value t)] := by
  simp [compared, rank_cons_of_lt h]

theorem Memory.compared_cons_of_not_lt (h : cmp v (m.value t) ≠ .lt) :
    m.compared cmp v (t :: l) = (v, m.value t) :: m.compared cmp v l := by
  simp [compared, rank_cons_of_not_lt h]

theorem Memory.predecessorM_noted (cmp : Array ε → Array ε → Ordering) (v : Array ε)
    (h : m.Linked (s :: l) none) (hf : l.length ≤ fuel)
    (asked : List (Array ε × Array ε)) :
    (m.predecessorM (noted cmp) v fuel s).run asked =
      pure (m.predecessor cmp v fuel s, asked ++ m.compared cmp v l) := by
  induction l generalizing s fuel asked with
  | nil =>
    have hn : m.next? s = none := by simp [next?_eq_link?, h.1]
    cases fuel <;> simp [predecessorM, predecessor, hn, compared]
  | cons t rest ih =>
    obtain ⟨fuel, rfl⟩ : ∃ k, fuel = k + 1 := ⟨fuel - 1, by simp at hf; omega⟩
    have hn : m.next? s = some t := by simp [next?_eq_link?, h.1]
    have hrest := ih h.2 (by simpa using hf) (asked ++ [(v, m.value t)])
    by_cases hlt : cmp v (m.value t) = .lt
    · simp [predecessorM, predecessor, hn, noted, hlt, compared_cons_of_lt hlt]
    · simp [predecessorM, predecessor, hn, noted, hlt, compared_cons_of_not_lt hlt, hrest]

theorem Stack.insertM_noted (cmp : Array ε → Array ε → Ordering) (s : Slot) (h : st.Spans m l)
    (asked : List (Array ε × Array ε)) :
    (st.insertM (noted cmp) m s).run asked =
      pure (st.insert cmp m s, asked ++ m.compared cmp (m.value s) l) := by
  cases l with
  | nil =>
    have hh : st.head = none := by simpa using h.head
    simp [insertM, insert, hh, compared]
  | cons first l =>
    have hh : st.head = some first := by simpa using h.head
    have hsize : l.length ≤ m.size :=
      Nat.le_of_succ_le (length_le_size m _ h.nodup h.lt_size)
    have hscan := predecessorM_noted cmp (m.value s) h.linked hsize
      (asked ++ [(m.value s, m.value first)])
    by_cases hlt : cmp (m.value s) (m.value first) = .lt
    · simp [insertM, insert, hh, noted, hlt, compared_cons_of_lt hlt]
    · simp [insertM, insert, hh, noted, hlt, compared_cons_of_not_lt hlt, hscan]

theorem Memory.predecessor_congr (h : m.Linked (s :: l) none) (hf : l.length ≤ fuel)
    (hc : ∀ p ∈ m.compared cmp v l, cmp' p.1 p.2 = cmp p.1 p.2) :
    m.predecessor cmp' v fuel s = m.predecessor cmp v fuel s := by
  induction l generalizing s fuel with
  | nil =>
    have hn : m.next? s = none := by simp [next?_eq_link?, h.1]
    cases fuel <;> simp [predecessor, hn]
  | cons t rest ih =>
    obtain ⟨fuel, rfl⟩ : ∃ k, fuel = k + 1 := ⟨fuel - 1, by simp at hf; omega⟩
    have hn : m.next? s = some t := by simp [next?_eq_link?, h.1]
    by_cases hlt : cmp v (m.value t) = .lt
    · rw [compared_cons_of_lt hlt] at hc
      have ht : cmp' v (m.value t) = .lt := (hc _ (List.mem_singleton_self _)).trans hlt
      simp [predecessor, hn, hlt, ht]
    · rw [compared_cons_of_not_lt hlt] at hc
      have ht : cmp' v (m.value t) ≠ .lt := fun he => hlt ((hc _ List.mem_cons_self).symm.trans he)
      simp only [predecessor, hn, hlt, ht, if_false]
      exact ih h.2 (by simpa using hf) fun p hp => hc p (List.mem_cons_of_mem _ hp)

theorem Stack.insert_congr (h : st.Spans m l)
    (hc : ∀ p ∈ m.compared cmp (m.value s) l, cmp' p.1 p.2 = cmp p.1 p.2) :
    st.insert cmp' m s = st.insert cmp m s := by
  cases l with
  | nil =>
    have hh : st.head = none := by simpa using h.head
    simp [insert, hh]
  | cons first l =>
    have hh : st.head = some first := by simpa using h.head
    have hsize : l.length ≤ m.size :=
      Nat.le_of_succ_le (length_le_size m _ h.nodup h.lt_size)
    by_cases hlt : cmp (m.value s) (m.value first) = .lt
    · rw [compared_cons_of_lt hlt] at hc
      have hfirst : cmp' (m.value s) (m.value first) = .lt :=
        (hc _ (List.mem_singleton_self _)).trans hlt
      simp [insert, hh, hlt, hfirst]
    · rw [compared_cons_of_not_lt hlt] at hc
      have hfirst : cmp' (m.value s) (m.value first) ≠ .lt :=
        fun he => hlt ((hc _ List.mem_cons_self).symm.trans he)
      have hscan := predecessor_congr h.linked hsize fun p hp => hc p (List.mem_cons_of_mem _ hp)
      simp only [insert, hh, hlt, hfirst, if_false, hscan]

/-! ## What comes of it -/

/-- The slot `s` was put into the stack `st` behind its first `i` slots, and the stack is `st'` now.
Later operations find all of its slots. -/
structure Stack.Inserted (cmp : Array ε → Array ε → Ordering) (m : Memory ε) (st : Stack)
    (s : Slot) (i : Nat) (m' : Memory ε) (st' : Stack) : Prop where
  le_length : i ≤ st.length
  passed : ∀ t ∈ (st.slots m).take i, cmp (m.value s) (m.value t) ≠ .lt
  stopped : ∀ t ∈ (st.slots m)[i]?, cmp (m.value s) (m.value t) = .lt
  slots : st'.slots m' = (st.slots m).take i ++ s :: (st.slots m).drop i
  wellFormed : st'.WellFormed m'
  length : st'.length = st.length + 1
  head : st'.head = if i = 0 then some s else st.head
  tail : st'.tail = if i = st.length then some s else st.tail
  tail_iff : st'.tail = some s ↔ i = st.length
  data : ∀ t, m'.value t = m.value t ∧ m'.owner? t = m.owner? t
  others : ∀ other : Stack, other.WellFormed m → (other.slots m).Disjoint (s :: st.slots m) →
    other.WellFormed m' ∧ other.slots m' = other.slots m
  appended : ∀ other : Stack, other.WellFormed m' → (other.slots m').Disjoint (st'.slots m') →
    (st'.append m' other).2.WellFormed (st'.append m' other).1 ∧
      (st'.append m' other).2.slots (st'.append m' other).1 = other.slots m' ++ st'.slots m'
  prepended : ∀ other : Stack, other.WellFormed m' → (st'.slots m').Disjoint (other.slots m') →
    (other.append m' st').2.WellFormed (other.append m' st').1 ∧
      (other.append m' st').2.slots (other.append m' st').1 = st'.slots m' ++ other.slots m'
  split : ∀ n, ∃ m'' front rest, st'.split m' n = (m'', .ok (front, rest)) ∧
    front.WellFormed m'' ∧ front.slots m'' = (st'.slots m').take n ∧
    rest.WellFormed m'' ∧ rest.slots m'' = (st'.slots m').drop n
  /-- The slot is compared with those it goes behind and the one it goes in front of. -/
  asked : ((st.insertM (noted cmp) m s).run []).run =
    ((m', st'), ((st.slots m).take (i + 1)).map fun t => (m.value s, m.value t))
  /-- It goes there by any comparison that answers the same to these. -/
  decided : ∀ cmp' : Array ε → Array ε → Ordering,
    (∀ t ∈ (st.slots m).take (i + 1),
      cmp' (m.value s) (m.value t) = cmp (m.value s) (m.value t)) →
    st.insert cmp' m s = (m', st')

theorem head?_take_append_cons_drop {α : Type} {l : List α} {a : α} {i : Nat}
    (hi : i ≤ l.length) :
    (l.take i ++ a :: l.drop i).head? = if i = 0 then some a else l.head? := by
  cases i with
  | zero => rfl
  | succ i => cases l <;> simp_all

theorem getLast?_take_append_cons_drop {α : Type} {l : List α} {a : α} {i : Nat}
    (hi : i ≤ l.length) :
    (l.take i ++ a :: l.drop i).getLast? = if i = l.length then some a else l.getLast? := by
  rw [List.getLast?_append, List.getLast?_cons, Option.some_or, List.getLast?_drop]
  split
  · rw [if_pos (by omega)]
    rfl
  · rw [if_neg (by omega)]
    cases h : l.getLast? with
    | none => simp_all
    | some b => rfl

theorem Stack.Spans.append_wellFormed {other : Stack} {k : List Slot} (h : st.Spans m l)
    (ho : other.Spans m k) (hd : k.Disjoint l) :
    (st.append m other).2.WellFormed (st.append m other).1 ∧
      (st.append m other).2.slots (st.append m other).1 = k ++ l :=
  have hspans := append_spans h ho hd
  ⟨hspans.wellFormed, hspans.slots_eq⟩

/-- A slot is put in front of the first greater one, or at the end, whatever the comparison is and
whatever is in the stack. It is compared with no slot behind that. -/
theorem Stack.insert_at_rank (cmp : Array ε → Array ε → Ordering) (h : st.WellFormed m)
    (hs : s.index < m.size) (hn : s ∉ st.slots m) :
    Inserted cmp m st s (m.rank cmp (m.value s) (st.slots m)) (st.insert cmp m s).1
      (st.insert cmp m s).2 := by
  have hl := h.spans
  have hspans := insert_spans cmp hl hs hn
  have hrelinks := insert_relinks cmp s hl
  have hnoted := insertM_noted cmp s hl []
  have hle : m.rank cmp (m.value s) (st.slots m) ≤ (st.slots m).length := List.findIdx_le_length
  rw [insertBefore_rank] at hspans
  have htail := hspans.tail
  rw [getLast?_take_append_cons_drop hle, ← hl.tail, ← hl.length] at htail
  exact {
    le_length := hl.length ▸ hle
    passed := fun t ht => not_lt_of_mem_take_rank ht
    stopped := fun t ht => lt_of_getElem?_rank ht
    slots := hspans.slots_eq
    wellFormed := hspans.wellFormed
    length := by
      rw [hspans.length, hl.length, ← insertBefore_rank, (insertBefore_perm _ _ _).length_eq,
        List.length_cons]
    head := by
      rw [hspans.head, hl.head]
      exact head?_take_append_cons_drop hle
    tail := htail
    tail_iff := by
      have hother : st.tail ≠ some s := fun he => hn (List.mem_of_getLast? (hl.tail ▸ he))
      rw [htail, ite_eq_left_iff]
      exact ⟨fun he => by_contra fun hi => hother (he hi), fun hi hne => absurd hi hne⟩
    data := fun t =>
      ⟨value_of_unlinked hrelinks.unlinked t, owner?_of_unlinked hrelinks.unlinked t⟩
    others := fun other ho hd =>
      have hother := ho.spans.frame hrelinks hd
      ⟨hother.wellFormed, hother.slots_eq⟩
    appended := fun other ho hd => by
      rw [hspans.slots_eq] at hd ⊢
      exact hspans.append_wellFormed ho.spans hd
    prepended := fun other ho hd => by
      rw [hspans.slots_eq] at hd ⊢
      exact ho.spans.append_wellFormed hspans hd
    split := fun n => by
      obtain ⟨m'', front, rest, hsplit, hfront, hrest, -⟩ := split_spec hspans n
      rw [hspans.slots_eq]
      exact ⟨m'', front, rest, hsplit, hfront.wellFormed, hfront.slots_eq, hrest.wellFormed,
        hrest.slots_eq⟩
    asked := congrArg Id.run hnoted
    decided := fun cmp' hc => insert_congr hl fun p hp => by
      obtain ⟨t, ht, rfl⟩ := List.mem_map.1 hp
      exact hc t ht }

/-- A comparison that finds twenty greater than everything, and all else equal. -/
def beforeTwenty (_ b : Array Nat) : Ordering := if b = #[20] then .lt else .eq

theorem Stack.insert_at_rank_between :
    WellFormed Family.twoAndOne.memory (Family.twoAndOne.stack true) ∧
    2 < Family.twoAndOne.memory.size ∧ ⟨2⟩ ∉ (Family.twoAndOne.stack true).slots
      Family.twoAndOne.memory ∧
    ∃ m' st', (Family.twoAndOne.stack true).insert beforeTwenty Family.twoAndOne.memory ⟨2⟩ =
        (m', st') ∧
      Inserted beforeTwenty Family.twoAndOne.memory (Family.twoAndOne.stack true) ⟨2⟩ 1 m' st' ∧
      st'.slots m' = [⟨0⟩, ⟨2⟩, ⟨1⟩] := by
  have hsound := Family.twoAndOne_sound.wellFormed true
  have hapart : ⟨2⟩ ∉ (Family.twoAndOne.stack true).slots Family.twoAndOne.memory := by decide
  have hlt : (⟨2⟩ : Slot).index < Family.twoAndOne.memory.size := by decide
  have hinserted := insert_at_rank beforeTwenty hsound hlt hapart
  exact ⟨hsound, by decide, hapart, _, _, rfl, hinserted, by decide⟩

end SlotPool
