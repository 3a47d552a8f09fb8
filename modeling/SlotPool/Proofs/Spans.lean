import SlotPool.Proofs.Links

/-!
# Stacks as lists of slots

`Stack.Spans` says that a stack is the chain of a list of slots. Each operation on stacks then does
to the list what its name says, and changes no other links than those of the slots it was given.
-/

namespace SlotPool

open Memory

variable {ε : Type}

/-- The stack is the chain of `l`, front to back. -/
structure Stack.Spans (m : Memory ε) (st : Stack) (l : List Slot) : Prop where
  head : st.head = l.head?
  tail : st.tail = l.getLast?
  length : st.length = l.length
  linked : m.Linked l none
  nodup : l.Nodup

namespace Stack

theorem Spans.slots_eq {m : Memory ε} {st : Stack} {l : List Slot} (h : st.Spans m l) :
    st.slots m = l := by
  rw [slots, h.head, h.linked.chain h.nodup]

theorem Spans.lt_size {m : Memory ε} {st : Stack} {l : List Slot} (h : st.Spans m l) :
    ∀ s ∈ l, s.index < m.size :=
  h.linked.lt_size

theorem Spans.frame {m m' : Memory ε} {st : Stack} {l k : List Slot} (h : st.Spans m l)
    (hr : Relinks m m' k) (hd : l.Disjoint k) : st.Spans m' l :=
  { h with linked := h.linked.frame fun s hs => hr.link s (hd hs) }

theorem spans_empty (m : Memory ε) : empty.Spans m [] := ⟨rfl, rfl, rfl, trivial, List.nodup_nil⟩

theorem Spans.isEmpty_iff {m : Memory ε} {st : Stack} {l : List Slot} (h : st.Spans m l) :
    st.isEmpty = true ↔ l = [] := by
  rw [isEmpty, h.head]
  cases l <;> simp

/-! ## What is no link -/

@[simp]
theorem unlinked_push (m : Memory ε) (st : Stack) (s : Slot) :
    (st.push m s).1.unlinked = m.unlinked :=
  unlinked_setNext m s st.head

@[simp]
theorem unlinked_append (m : Memory ε) (st other : Stack) :
    (st.append m other).1.unlinked = m.unlinked := by
  unfold append
  split <;> simp

@[simp]
theorem unlinked_pop (m : Memory ε) (st : Stack) : (st.pop m).1.unlinked = m.unlinked := by
  unfold pop
  split <;> simp

@[simp]
theorem unlinked_split (m : Memory ε) (st : Stack) (n : Nat) :
    (st.split m n).1.unlinked = m.unlinked := by
  unfold split
  repeat' split
  all_goals simp

@[simp]
theorem unlinked_insert (cmp : Array ε → Array ε → Ordering) (m : Memory ε) (st : Stack)
    (s : Slot) : (st.insert cmp m s).1.unlinked = m.unlinked := by
  unfold insert
  split
  · simp
  · dsimp only
    split <;> simp

@[simp]
theorem unlinked_pushRange (m : Memory ε) (st : Stack) (first count : Nat) :
    (st.pushRange m first count).1.unlinked = m.unlinked := by
  induction count generalizing m st first with
  | zero => rfl
  | succ count ih =>
    rw [pushRange]
    exact (ih _ _ _).trans (unlinked_push m st ⟨first⟩)

/-! ## Pushing -/

theorem push_spans {m : Memory ε} {st : Stack} {l : List Slot} {s : Slot} (h : st.Spans m l)
    (hs : s.index < m.size) (hn : s ∉ l) :
    (st.push m s).2.Spans (st.push m s).1 (s :: l) := by
  refine ⟨rfl, ?_, ?_, ⟨?_, ?_⟩, List.nodup_cons.2 ⟨hn, h.nodup⟩⟩
  · simp only [push, h.tail, List.getLast?_cons]
    cases l.getLast? <;> rfl
  · simp [push, h.length]
  · rw [push, link?_setNext m s _ hs, h.head, Option.or_none]
  · refine h.linked.frame fun t ht => link?_setNext_ne m s t _ ?_
    rintro rfl
    exact hn ht

theorem push_relinks (m : Memory ε) (st : Stack) (s : Slot) : Relinks m (st.push m s).1 [s] :=
  relinks_setNext m s st.head

theorem pushRange_spans {m : Memory ε} {st : Stack} {l : List Slot} (first count : Nat)
    (h : st.Spans m l) (hs : first + count ≤ m.size)
    (hd : (sideBySide first count).Disjoint l) :
    (st.pushRange m first count).2.Spans (st.pushRange m first count).1
      ((sideBySide first count).reverse ++ l) := by
  induction count generalizing m st l first with
  | zero => exact h
  | succ count ih =>
    rw [sideBySide_succ, List.disjoint_cons_left] at hd
    have hp := push_spans (s := ⟨first⟩) h (show first < m.size by omega) hd.1
    have hsize := size_of_unlinked (push_relinks m st ⟨first⟩).unlinked
    have hd' : (sideBySide (first + 1) count).Disjoint (⟨first⟩ :: l) := by
      rw [List.disjoint_cons_right, mem_sideBySide]
      exact ⟨fun hf => absurd hf.1 (by simp), hd.2⟩
    have := ih (first + 1) hp (by omega) hd'
    rw [sideBySide_succ, List.reverse_cons, List.append_assoc]
    exact this

theorem pushRange_relinks (m : Memory ε) (st : Stack) (first count : Nat) :
    Relinks m (st.pushRange m first count).1 (sideBySide first count) := by
  induction count generalizing m st first with
  | zero => exact Relinks.refl m _
  | succ count ih =>
    rw [sideBySide_succ]
    apply ((push_relinks m st ⟨first⟩).mono (by simp)).trans
    exact (ih (st.push m ⟨first⟩).1 (st.push m ⟨first⟩).2 (first + 1)).mono
      (List.subset_cons_self _ _)

/-! ## Putting in front -/

theorem append_of_nil {m : Memory ε} (st other : Stack) (h : other.Spans m []) :
    st.append m other = (m, st) := by
  have hh : other.head = none := by simpa using h.head
  simp [append, hh]

theorem append_of_last {m : Memory ε} (st other : Stack) {k : List Slot} {s : Slot}
    (h : other.Spans m (k ++ [s])) :
    st.append m other = (m.setNext s st.head,
      ⟨(k ++ [s]).head?, st.tail.or (some s), st.length + other.length⟩) := by
  have ht : other.tail = some s := by rw [h.tail, List.getLast?_concat]
  obtain ⟨first, hf⟩ : ∃ first, (k ++ [s]).head? = some first := by cases k <;> simp
  simp [append, h.head, hf, ht]

theorem append_spans {m : Memory ε} {st other : Stack} {l k : List Slot} (h : st.Spans m l)
    (ho : other.Spans m k) (hd : k.Disjoint l) :
    (st.append m other).2.Spans (st.append m other).1 (k ++ l) := by
  rcases k.eq_nil_or_concat' with rfl | ⟨k, s, rfl⟩
  · rw [append_of_nil st other ho]
    exact h
  · rw [append_of_last st other ho]
    have hk := List.nodup_append.1 ho.nodup
    have hsk : s ∉ k := fun hs => hk.2.2 s hs s (by simp) rfl
    have hsl : s ∉ l := fun hs => hd (by simp) hs
    refine ⟨?_, ?_, ?_, (linked_append _ _ _ _).2 ⟨?_, ?_⟩, ?_⟩
    · cases k <;> simp
    · rw [List.getLast?_append, List.getLast?_concat, ← h.tail]
    · simp [h.length, ho.length]
      omega
    · rw [Option.or_none, ← h.head]
      exact ho.linked.setNext_last hsk _
    · exact h.linked.frame fun t ht => link?_setNext_ne m s t _ fun he => hsl (he ▸ ht)
    · exact ho.nodup.append h.nodup hd

theorem append_relinks {m : Memory ε} (st : Stack) {other : Stack} {k : List Slot}
    (ho : other.Spans m k) : Relinks m (st.append m other).1 k := by
  rcases k.eq_nil_or_concat' with rfl | ⟨k, s, rfl⟩
  · rw [append_of_nil st other ho]
    exact Relinks.refl m _
  · rw [append_of_last st other ho]
    exact (relinks_setNext m s _).mono (by simp)

/-! ## Popping -/

theorem pop_of_nil {m : Memory ε} {st : Stack} (h : st.Spans m []) : st.pop m = (m, st, none) := by
  have hh : st.head = none := by simpa using h.head
  simp [pop, hh]

theorem pop_of_cons {m : Memory ε} {st : Stack} {s : Slot} {l : List Slot}
    (h : st.Spans m (s :: l)) :
    st.pop m = (m.setNext s none, ⟨l.head?, l.getLast?, l.length⟩, some s) := by
  have hh : st.head = some s := by simpa using h.head
  have hn : m.next? s = l.head? := by simp [next?_eq_link?, h.linked.1]
  have ht : (if l = [] then none else st.tail) = l.getLast? := by
    rw [h.tail]
    cases l <;> simp [List.getLast?_cons]
  simp [pop, hh, hn, h.length, ht]

theorem pop_spans {m : Memory ε} {st : Stack} {s : Slot} {l : List Slot}
    (h : st.Spans m (s :: l)) : (st.pop m).2.1.Spans (st.pop m).1 l := by
  rw [pop_of_cons h]
  have hn := List.nodup_cons.1 h.nodup
  refine ⟨rfl, rfl, rfl, h.linked.2.frame fun t ht => link?_setNext_ne m s t _ ?_, hn.2⟩
  rintro rfl
  exact hn.1 ht

theorem pop_relinks {m : Memory ε} {st : Stack} {l : List Slot} (h : st.Spans m l) :
    Relinks m (st.pop m).1 l := by
  cases l with
  | nil =>
    rw [pop_of_nil h]
    exact Relinks.refl m _
  | cons s l =>
    rw [pop_of_cons h]
    exact (relinks_setNext m s none).mono (by simp)

/-! ## Splitting -/

theorem split_spec {m : Memory ε} {st : Stack} {l : List Slot} (h : st.Spans m l) (n : Nat) :
    ∃ m' front rest, st.split m n = (m', .ok (front, rest)) ∧ front.Spans m' (l.take n) ∧
      rest.Spans m' (l.drop n) ∧ Relinks m m' l := by
  unfold split
  by_cases hn : st.length ≤ n
  · rw [h.length] at hn
    refine ⟨m, st, empty, by simp [h.length, hn], ?_, ?_, Relinks.refl m l⟩
    · rwa [List.take_of_length_le hn]
    · rw [List.drop_of_length_le hn]
      exact spans_empty m
  rw [if_neg hn]
  rw [h.length] at hn
  obtain ⟨first, l', rfl⟩ := List.exists_cons_of_length_pos (l := l) (by omega)
  have hh : st.head = some first := by simpa using h.head
  cases n with
  | zero => exact ⟨m, empty, st, by simp [hh], spans_empty m, h, Relinks.refl m _⟩
  | succ n =>
    simp only [List.length_cons, Nat.not_le, Nat.add_lt_add_iff_right] at hn
    -- The last slot of the front part, and the lists before and after it.
    obtain ⟨last, hl⟩ : ∃ last, (first :: l')[n]? = some last :=
      ⟨_, List.getElem?_eq_getElem (by simp; omega)⟩
    have ha : m.advance? first n = some last := by rw [h.linked.advance? n (by omega), hl]
    have htake : (first :: l').take (n + 1) = (first :: l').take n ++ [last] := by
      rw [List.take_add_one, hl]
      rfl
    have hcut := List.take_append_drop (n + 1) (first :: l')
    have hlinked := h.linked
    rw [← hcut, linked_append] at hlinked
    have hnodup := List.nodup_append.1 (hcut ▸ h.nodup)
    have hnext : m.next? last = ((first :: l').drop (n + 1)).head? := by
      have hlast := hlinked.1
      rw [htake, linked_append] at hlast
      simp [next?_eq_link?, hlast.2.1]
    refine ⟨m.setNext last none, _, _, by simp [hh, ha]; exact ⟨rfl, rfl⟩, ?_, ?_, ?_⟩
    · refine ⟨by simp, ?_, ?_, ?_, hnodup.1⟩
      · rw [htake, List.getLast?_concat]
      · simp; omega
      · have hn' := hnodup.1
        rw [htake] at hlinked hn' ⊢
        have hlast : last ∉ _ := fun hs => (List.nodup_append.1 hn').2.2 last hs last (by simp) rfl
        exact hlinked.1.setNext_last hlast none
    · refine ⟨hnext, ?_, ?_, ?_, hnodup.2.1⟩
      · rw [h.tail, ← hcut, List.getLast?_append_of_ne_nil]
        · simp
        · simp; omega
      · simp [h.length]
      · refine hlinked.2.frame fun t ht => link?_setNext_ne m last t _ ?_
        rintro rfl
        exact hnodup.2.2 t (by simp [htake]) t ht rfl
    · exact (relinks_setNext m last none).mono (by simpa using List.mem_of_getElem? hl)

/-! ## Inserting -/

/-- `s` in front of the first slot that is greater, or at the end. -/
def insertBefore (greater : Slot → Bool) (s : Slot) (l : List Slot) : List Slot :=
  l.takeWhile (fun t => !greater t) ++ s :: l.dropWhile (fun t => !greater t)

theorem insertBefore_perm (greater : Slot → Bool) (s : Slot) (l : List Slot) :
    (insertBefore greater s l).Perm (s :: l) := by
  apply List.perm_middle.trans
  rw [List.takeWhile_append_dropWhile]

theorem insertBefore_cons_of_neg (greater : Slot → Bool) (s t : Slot) (l : List Slot)
    (h : greater t = false) :
    insertBefore greater s (t :: l) = t :: insertBefore greater s l := by
  simp [insertBefore, h]

theorem predecessor_spec {m : Memory ε} (cmp : Array ε → Array ε → Ordering) (v : Array ε)
    (s : Slot) (l : List Slot) (fuel : Nat) (h : m.Linked (s :: l) none) (hf : l.length ≤ fuel) :
    ∃ pre, m.predecessor cmp v fuel s ∈ (s :: l) ∧
      s :: l.takeWhile (fun t => !decide (cmp v (m.value t) = .lt)) =
        pre ++ [m.predecessor cmp v fuel s] := by
  induction l generalizing s fuel with
  | nil =>
    have hn : m.next? s = none := by simp [next?_eq_link?, h.1]
    have hp : m.predecessor cmp v fuel s = s := by cases fuel <;> simp [predecessor, hn]
    exact ⟨[], by simp [hp], by simp [hp]⟩
  | cons t rest ih =>
    obtain ⟨fuel, rfl⟩ : ∃ k, fuel = k + 1 := ⟨fuel - 1, by simp at hf; omega⟩
    have hn : m.next? s = some t := by simp [next?_eq_link?, h.1]
    by_cases hlt : cmp v (m.value t) = .lt
    · have hp : m.predecessor cmp v (fuel + 1) s = s := by simp [predecessor, hn, hlt]
      exact ⟨[], by simp [hp], by simp [hp, hlt]⟩
    · have hp : m.predecessor cmp v (fuel + 1) s = m.predecessor cmp v fuel t := by
        simp [predecessor, hn, hlt]
      obtain ⟨pre, hmem, hpre⟩ := ih t fuel h.2 (by simpa using hf)
      rw [hp]
      refine ⟨s :: pre, List.mem_cons_of_mem _ hmem, ?_⟩
      rw [List.takeWhile_cons_of_pos (by simpa using hlt), hpre]
      rfl

theorem insert_relinks (cmp : Array ε → Array ε → Ordering) {m : Memory ε} {st : Stack}
    {l : List Slot} (s : Slot) (h : st.Spans m l) : Relinks m (st.insert cmp m s).1 (s :: l) := by
  have hpush := (push_relinks m st s).mono (k := s :: l) (by simp)
  cases l with
  | nil =>
    have hh : st.head = none := by simpa using h.head
    simpa [insert, hh] using hpush
  | cons first l =>
    have hh : st.head = some first := by simpa using h.head
    by_cases hlt : cmp (m.value s) (m.value first) = .lt
    · simpa [insert, hh, hlt] using hpush
    · have hsize := length_le_size m _ h.nodup h.lt_size
      obtain ⟨_, hmem, _⟩ := predecessor_spec cmp (m.value s) first l m.size h.linked
        (by simp at hsize; omega)
      simp only [insert, hh, hlt, if_false]
      refine ((relinks_setNext m s _).mono (by simp)).trans ((relinks_setNext _ _ _).mono ?_)
      simpa using Or.inr hmem

theorem insert_spans (cmp : Array ε → Array ε → Ordering) {m : Memory ε} {st : Stack}
    {l : List Slot} {s : Slot} (h : st.Spans m l) (hs : s.index < m.size) (hn : s ∉ l) :
    (st.insert cmp m s).2.Spans (st.insert cmp m s).1
      (insertBefore (fun t => decide (cmp (m.value s) (m.value t) = .lt)) s l) := by
  cases l with
  | nil =>
    have hh : st.head = none := by simpa using h.head
    simpa [insert, hh, insertBefore] using push_spans h hs hn
  | cons first l =>
    have hh : st.head = some first := by simpa using h.head
    by_cases hlt : cmp (m.value s) (m.value first) = .lt
    · simpa [insert, hh, hlt, insertBefore] using push_spans h hs hn
    rw [insertBefore_cons_of_neg _ _ _ _ (by simpa using hlt)]
    have hsize := length_le_size m _ h.nodup h.lt_size
    obtain ⟨pre, -, hpre⟩ := predecessor_spec cmp (m.value s) first l m.size h.linked
      (by simp at hsize; omega)
    simp only [insert, hh, hlt, if_false]
    generalize m.predecessor cmp (m.value s) m.size first = before at hpre ⊢
    -- The slots up to `before` and those after it.
    have hcut : first :: l = (pre ++ [before]) ++
        l.dropWhile (fun t => !decide (cmp (m.value s) (m.value t) = .lt)) := by
      rw [← hpre, List.cons_append, List.takeWhile_append_dropWhile]
    rw [insertBefore, ← List.cons_append, hpre]
    generalize l.dropWhile (fun t => !decide (cmp (m.value s) (m.value t) = .lt)) = post at hcut ⊢
    have hlinked := h.linked
    have hnodup := h.nodup
    rw [hcut] at hn hlinked hnodup
    rw [linked_append] at hlinked
    have hnext : m.next? before = post.head? := by
      have hlast := hlinked.1
      rw [linked_append] at hlast
      simp [next?_eq_link?, hlast.2.1]
    obtain ⟨hsp, hspost⟩ : s ∉ pre ++ [before] ∧ s ∉ post := by simpa [and_assoc] using hn
    have hd := List.nodup_append.1 hnodup
    have hbpre : before ∉ pre := fun hb =>
      (List.nodup_append.1 hd.1).2.2 before hb before (by simp) rfl
    have hbpost : before ∉ post := fun hb => hd.2.2 before (by simp) before hb rfl
    have hsb : s ≠ before := fun he => hsp (by simp [he])
    rw [hnext]
    refine ⟨?_, ?_, ?_, (linked_append _ _ _ _).2 ⟨?_, ?_, ?_⟩, ?_⟩
    · have hhead := congrArg List.head? hcut
      cases pre <;> simp_all
    · have htail : st.tail = post.getLast?.or (some before) := by
        rw [h.tail, hcut, List.getLast?_append, List.getLast?_concat]
      cases hp : post.getLast? with
      | none =>
        obtain rfl := List.getLast?_eq_none_iff.1 hp
        simp [htail]
      | some x =>
        have hx : x ≠ before := fun he => hbpost (he ▸ List.mem_of_getLast? hp)
        simp [htail, hp, hx, List.getLast?_cons]
    · simp [h.length, hcut]
      omega
    · have hfront : m.Linked (pre ++ [before]) post.head? := by simpa using hlinked.1
      have hfront' : (m.setNext s post.head?).Linked (pre ++ [before]) post.head? :=
        hfront.frame fun t ht => link?_setNext_ne m s t _ fun he => hsp (he ▸ ht)
      exact hfront'.setNext_last hbpre (some s)
    · rw [link?_setNext_ne _ _ _ _ hsb, link?_setNext m s _ hs, Option.or_none]
    · apply hlinked.2.frame
      intro t ht
      have htb : t ≠ before := fun he => hbpost (he ▸ ht)
      have hts : t ≠ s := fun he => hspost (he ▸ ht)
      rw [link?_setNext_ne _ _ _ _ htb, link?_setNext_ne _ _ _ _ hts]
    · refine (List.perm_middle.nodup_iff).2 (List.nodup_cons.2 ⟨?_, hnodup⟩)
      exact hn

end Stack

end SlotPool
