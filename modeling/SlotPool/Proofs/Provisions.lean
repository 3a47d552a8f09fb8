import SlotPool.Proofs.Building
import SlotPool.Proofs.Sizings

/-!
# What a call for many slots comes to by itself

A call for many slots that finds enough of them cuts the free stack in two. One that finds too few
takes them all and builds blocks. If nothing else happens, it has built all that it needs in the
end, or as many as were there when a reservation was refused, and what memory and pool are then is
said slot by slot.
-/

namespace SlotPool

open Memory

variable {ε : Type}

/-! ## Stacks that are moved whole -/

theorem Memory.setNext_self {m : Memory ε} {s : Slot} {n : Option Slot} (h : m.link? s = some n) :
    m.setNext s n = m := by
  obtain ⟨arrays, cells⟩ := m
  simp only [setNext, mk.injEq, true_and]
  apply Array.ext_getElem?
  intro i
  rw [Array.getElem?_modify]
  split
  · rename_i hi
    subst hi
    obtain ⟨c, hc, rfl⟩ := Option.map_eq_some_iff.1 h
    have hcell : cells[s.index]? = some c := hc
    rw [hcell, Option.map_some]
  · rfl

theorem Stack.Spans.eq {m m' : Memory ε} {st st' : Stack} {l : List Slot} (h : st.Spans m l)
    (h' : st'.Spans m' l) : st' = st := by
  obtain ⟨head, tail, length⟩ := st
  obtain ⟨head', tail', length'⟩ := st'
  obtain rfl : head' = head := h'.head.trans h.head.symm
  obtain rfl : tail' = tail := h'.tail.trans h.tail.symm
  obtain rfl : length' = length := h'.length.trans h.length.symm
  rfl

theorem Stack.append_to_empty {m : Memory ε} {st : Stack} {l : List Slot} (h : st.Spans m l) :
    Stack.append m {} st = (m, st) := by
  obtain ⟨head, tail, length⟩ := st
  rcases l.eq_nil_or_concat' with rfl | ⟨l, s, rfl⟩
  · obtain ⟨rfl, rfl, rfl⟩ : head = none ∧ tail = none ∧ length = 0 := ⟨h.head, h.tail, h.length⟩
    rfl
  · have hlast : m.link? s = some none := ((linked_append _ _ _ _).1 h.linked).2.1
    have htail : tail = some s := by rw [← List.getLast?_concat]; exact h.tail
    rw [append_of_last _ _ h, setNext_self hlast, htail, ← h.head, Nat.zero_add]
    rfl

/-! ## What a pool is given -/

/-- The pool gets the blocks that its policy asks for when so many slots are lacking. -/
structure Pool.Supplied (p : Pool ε) (allocator : Allocator) (deficit blocks : Nat) : Prop where
  wanted : p.policy.blocksFor deficit p.blockSize = some blocks
  addressable : p.strategy.addressable blocks = true
  granted : p.strategy.Granted allocator 0 blocks

/-- The pool does not get the blocks that its policy asks for. So many of them are built then, and
this is the error. -/
inductive Pool.Denied (p : Pool ε) (allocator : Allocator) (deficit : Nat) :
    Nat → PoolError → Prop where
  | uncountable (h : p.policy.blocksFor deficit p.blockSize = none) :
      Denied p allocator deficit 0 (.capacityOverflow (Word.limit - 1) p.blockSize)
  | unaddressable {blocks : Nat} (h : p.policy.blocksFor deficit p.blockSize = some blocks)
      (ha : p.strategy.addressable blocks = false) :
      Denied p allocator deficit 0 (.capacityOverflow blocks p.blockSize)
  | refused {blocks done i : Nat} {r : Reservation}
      (h : p.policy.blocksFor deficit p.blockSize = some blocks)
      (ha : p.strategy.addressable blocks = true) (hd : done < blocks)
      (hg : p.strategy.Granted allocator 0 done)
      (hi : ∀ k < i, ∀ r, p.strategy.reservations[k]? = some r →
        allocator (done * p.strategy.reservations.length + k) r = true)
      (hr : p.strategy.reservations[i]? = some r)
      (hrefused : allocator (done * p.strategy.reservations.length + i) r = false) :
      Denied p allocator deficit done r.error

theorem Pool.supplied_or_denied (p : Pool ε) (allocator : Allocator) (deficit : Nat) :
    (∃ blocks, p.Supplied allocator deficit blocks) ∨
      ∃ done error, p.Denied allocator deficit done error := by
  cases hfor : p.policy.blocksFor deficit p.blockSize with
  | none => exact Or.inr ⟨_, _, .uncountable hfor⟩
  | some blocks =>
    obtain ⟨done, fault, hyields⟩ := p.strategy.exists_yields allocator 0 blocks
    cases hyields with
    | all ha hg => exact Or.inl ⟨blocks, hfor, ha, hg⟩
    | oversize ha => exact Or.inr ⟨_, _, .unaddressable hfor ha⟩
    | refused ha hd hg hi hr hrefused =>
      simp only [Nat.zero_add] at hi hrefused
      exact Or.inr ⟨_, _, .refused hfor ha hd hg hi hr hrefused⟩

theorem Pool.Supplied.yields {p : Pool ε} {allocator : Allocator} {deficit blocks : Nat}
    (h : p.Supplied allocator deficit blocks) :
    p.strategy.Yields allocator 0 blocks blocks none :=
  .all h.addressable h.granted

theorem Pool.Denied.yields {p : Pool ε} {allocator : Allocator} {deficit done blocks : Nat}
    {error : PoolError} (h : p.Denied allocator deficit done error)
    (hfor : p.policy.blocksFor deficit p.blockSize = some blocks) :
    p.strategy.Yields allocator 0 blocks done (some error) := by
  cases h with
  | uncountable hnone => simp [hnone] at hfor
  | unaddressable hfor' ha =>
    obtain rfl := Option.some.inj (hfor.symm.trans hfor')
    exact .oversize ha
  | refused hfor' ha hd hg hi hr hrefused =>
    obtain rfl := Option.some.inj (hfor.symm.trans hfor')
    exact .refused ha hd hg (by simpa using hi) hr (by simpa using hrefused)

namespace Call

section

variable {allocator : Allocator} {id : PoolId} {Q : Memory ε → Pool ε → Outcome → Prop}
  {n made : Nat} {m : Memory ε} {p : Pool ε}

/-! ## What follows on a passage -/

theorem Passes.ends {cs : List Call} {es : List Event} {s s' : Standing ε}
    (h : Passes allocator id cs es s s')
    (hend : Ends allocator id Q n s'.memory s'.pool s'.call s'.made) :
    Ends allocator id Q (n + cs.length) s.memory s.pool s.call s.made := by
  induction h with
  | stay s => exact hend
  | step hc hr hs _ ih => exact .step hc hr hs (ih hend)
  | reserve hr _ ih => exact .reserve hr (ih hend)

theorem Builds.ends {k : Nat} {s s' : Standing ε} (h : Builds allocator id k s s')
    (hend : Ends allocator id Q n s'.memory s'.pool s'.call s'.made) :
    Ends allocator id Q (n + k) s.memory s.pool s.call s.made := by
  obtain ⟨cs, hpass, hlen, -⟩ := h
  exact (hpass.ends hend).le (Nat.add_le_add_left hlen n)

/-! ## What follows on the blocks -/

def tallied (p : Pool ε) (blocks : Nat) : Pool ε :=
  { p with
    allocated := p.allocated + blocks * p.blockSize
    counters := { p.counters with
      growthEvents := p.counters.growthEvents + min blocks 1
      blocksProvisioned := p.counters.blocksProvisioned + blocks } }

theorem tallied_none (p : Pool ε) : tallied p 0 = p := by
  simp [tallied]

theorem tally_ends {g : Growth} {fault : Option PoolError} {l : List Slot} {blocks : Nat}
    (hf : g.fresh.Spans m l) (hl : l.length = blocks * p.blockSize)
    (h : Ends allocator id Q n m (tallied p blocks) (afterGrowth g fault) made) :
    Ends allocator id Q (n + 4) m p (afterBlocks g fault) made := by
  have hpos : 0 < p.blockSize := p.strategy.blockSize_pos
  refine count_ends (fun hsome => ?_) fun hnone => ?_
  · have hblocks : 0 < blocks := by
      apply Nat.pos_of_ne_zero
      rintro rfl
      have hnil := List.eq_nil_of_length_eq_zero (hl.trans (Nat.zero_mul _))
      simp [hf.isEmpty_iff.2 hnil] at hsome
    have hcounted : counted p g.fresh.length = tallied p blocks := by
      simp only [counted, tallied, hf.length, hl, Nat.mul_div_cancel _ hpos,
        Nat.min_eq_right hblocks]
    rwa [hcounted]
  · have hblocks : blocks = 0 := by
      rw [hf.isEmpty_iff.1 hnone, List.length_nil] at hl
      exact (Nat.mul_eq_zero.1 hl.symm).resolve_right (Nat.ne_of_gt hpos)
    rwa [hblocks, tallied_none] at h

section

variable {count deficit : Nat} {taken fresh : Stack} {k l : List Slot}

theorem carve_ends_spans (ht : taken.Spans m l) (hf : fresh.Spans m k) (hd : k.Disjoint l)
    (hfree : p.free = {})
    (hq : ∀ m' free st, Relinks m m' k → st.Spans m' (k.take deficit ++ l) →
      free.Spans m' (k.drop deficit) →
      Q m' { p with
        free, counters := { p.counters with acquisitions := p.counters.acquisitions + count } }
        (.acquired (.many st))) :
    Ends allocator id Q 3 m p (.carve count deficit taken fresh) made := by
  obtain ⟨m₁, needed, surplus, hsplit, hneeded, hsurplus, hr₁⟩ := Stack.split_spec hf deficit
  have htaken := ht.frame hr₁ (List.disjoint_comm.1 hd)
  have htake : (k.take deficit) ⊆ k := List.take_subset deficit k
  have happart : (k.take deficit).Disjoint (k.drop deficit) := by
    have hnodup := hf.nodup
    rw [← List.take_append_drop deficit k] at hnodup
    exact (List.nodup_append'.1 hnodup).2.2
  have hr₂ := Stack.append_relinks taken hneeded
  have hst := Stack.append_spans htaken hneeded fun s hs => hd (htake hs)
  have hsurplus₂ := hsurplus.frame hr₂ (List.disjoint_comm.1 happart)
  have hr := hr₁.trans (hr₂.mono htake)
  rcases happend : taken.append m₁ needed with ⟨m₂, st⟩
  rw [happend] at hst hsurplus₂ hr
  by_cases hempty : surplus.isEmpty = true
  · have hstep : (carve count deficit taken fresh).step id true m p =
        (m₂, p, none, .countAcquired count (.many st)) := by
      simp only [Call.step, hsplit, happend, hempty, if_true]
    have hnil := hsurplus₂.isEmpty_iff.1 hempty
    have hrest : p.free.Spans m₂ (k.drop deficit) := by
      rw [hfree, hnil]
      exact Stack.spans_empty m₂
    exact (Ends.step rfl rfl hstep (countAcquired_ends (hq m₂ p.free st hr hst hrest))).le
      (by omega)
  · have hstep : (carve count deficit taken fresh).step id true m p =
        (m₂, p, none, .surrender count st surplus) := by
      simp only [Call.step, hsplit, happend, hempty]
      rfl
    have hnone : p.free.Spans m₂ [] := by
      rw [hfree]
      exact Stack.spans_empty m₂
    have hr₃ := Stack.append_relinks p.free hsurplus₂
    have hfree₃ := Stack.append_spans hnone hsurplus₂ (List.disjoint_nil_right _)
    rw [List.append_nil] at hfree₃
    have hst₃ : st.Spans (p.free.append m₂ surplus).1 (k.take deficit ++ l) := by
      apply hst.frame hr₃
      apply List.disjoint_append_left.2 ⟨happart, ?_⟩
      exact List.disjoint_comm.1 fun s hs => hd (List.mem_of_mem_drop hs)
    have hdrop : (k.drop deficit) ⊆ k := List.drop_subset deficit k
    exact .step rfl rfl hstep (.step rfl rfl rfl (countAcquired_ends
      (hq _ _ st (hr.trans (hr₃.mono hdrop)) hst₃ hfree₃)))

theorem fail_ends_spans {error : PoolError} (ht : taken.Spans m l) (hf : fresh.Spans m k)
    (hd : k.Disjoint l) (hfree : p.free = {})
    (hq : ∀ m' free, Relinks m m' k → free.Spans m' (k ++ l) →
      Q m' { p with free } (.failed error)) :
    Ends allocator id Q 2 m p (.noteFailure count taken fresh error) made := by
  have hback : p.free.append m taken = (m, taken) := by
    rw [hfree]
    exact Stack.append_to_empty ht
  have hstep : (restore taken fresh error).step id true m p =
      ((taken.append m fresh).1, { p with free := (taken.append m fresh).2 }, none,
        .finished (.failed error)) := by
    simp only [Call.step, hback]
  have hboth := Stack.append_spans ht hf hd
  exact .step rfl rfl rfl (.step rfl rfl hstep
    (.finished 0 made (hq _ _ (Stack.append_relinks taken hf) hboth)))

/-! ## Calls for many slots -/

theorem popMany_ends_enough (h : count ≤ p.free.length) (hs : p.free.Spans m l)
    (hq : ∀ m' st free, Relinks m m' l → st.Spans m' (l.take count) →
      free.Spans m' (l.drop count) →
      Q m' { p with
        free, counters := { p.counters with acquisitions := p.counters.acquisitions + count } }
        (.acquired (.many st))) :
    Ends allocator id Q 2 m p (.popMany count) made := by
  obtain ⟨m', st, free, hsplit, hst, hfree, hr⟩ := Stack.split_spec hs count
  have hstep : (popMany count).step id true m p =
      (m', { p with free }, none, .countAcquired count (.many st)) := by
    simp only [Call.step, h, if_true, hsplit]
  exact .step rfl rfl hstep (countAcquired_ends (hq m' st free hr hst hfree))

/-- The pool while so many blocks are built for a call that took all free slots. -/
def emptied (m : Memory ε) (p : Pool ε) (blocks : Nat) : Pool ε :=
  { p with free := {}, blocks := p.blocks.pushRange m.arrays.size blocks }

theorem newSlots_disjoint {blockSize blocks : Nat} (h : ∀ s ∈ l, s.index < m.size) :
    (newSlots m.size blockSize blocks).Disjoint l := by
  intro s hs hs'
  have hge := (mem_newSlots.1 hs).1
  have hlt := h s hs'
  omega

section

variable {m₀ : Memory ε} {p₀ : Pool ε} {blocks done : Nat} {g : Growth}

theorem fault_ends {error : PoolError} (hs : p₀.free.Spans m₀ l)
    (hb : Stocked id m₀ { p₀ with free := {} } { origin := .bulk count deficit p₀.free, blocks } []
      done m p g)
    (hq : ∀ m' free, Adds m₀ m' p₀.blockSize done →
      free.Spans m' (newSlots m₀.size p₀.blockSize done ++ l) →
      Q m' { tallied (emptied m₀ p₀ done) done with free } (.failed error)) :
    Ends allocator id Q 6 m p (afterBlocks g (some error)) made := by
  obtain ⟨hadds, hfresh, -, rfl, horigin, -⟩ := hb
  rw [List.append_nil] at hfresh
  have hnote : afterGrowth g (some error) = .noteFailure count p₀.free g.fresh error := by
    simp only [afterGrowth, horigin]
  refine tally_ends hfresh (length_newSlots _ _ _) ?_
  rw [hnote]
  refine fail_ends_spans (hs.adds hadds) hfresh (newSlots_disjoint hs.lt_size) rfl ?_
  exact fun m' free hr hfree =>
    hq m' free (hadds.relinks hr fun s hs => (mem_newSlots.1 hs).1) hfree

theorem popMany_ends_of_yields {fault : Option PoolError} (h : p.free.length < count)
    (hfor : p.policy.blocksFor (count - p.free.length) p.blockSize = some blocks)
    (hyields : p.strategy.Yields allocator 0 blocks done fault)
    (hend : ∀ m' p' g made, Stocked id m { p with free := {} }
        { origin := .bulk count (count - p.free.length) p.free, blocks } [] done m' p' g →
      Ends allocator id Q n m' p' (afterBlocks g fault) made) :
    Ends allocator id Q (n + min (3 * done + 2) (3 * blocks) + 1) m p (.popMany count) 0 := by
  refine .step rfl rfl (popMany_step_some id true m (Nat.not_le_of_lt h) hfor) ?_
  rw [startGrowth_eq_provide]
  obtain ⟨m', p', g, made', hbuilds, hstocked⟩ := builds_provide (p := { p with free := {} })
    (.bulk count (count - p.free.length) p.free) blocks (Stack.spans_empty m) hyields
  exact hbuilds.ends (hend m' p' g made' hstocked)

theorem popMany_ends_denied {error : PoolError} (h : p.free.length < count)
    (hs : p.free.Spans m l) (hd : p.Denied allocator (count - p.free.length) done error)
    (hq : ∀ m' free, Adds m m' p.blockSize done →
      free.Spans m' (newSlots m.size p.blockSize done ++ l) →
      Q m' { tallied (emptied m p done) done with free } (.failed error)) :
    Ends allocator id Q (3 * done + 9) m p (.popMany count) 0 := by
  cases hfor : p.policy.blocksFor (count - p.free.length) p.blockSize with
  | none =>
    cases hd with
    | uncountable =>
      refine (Ends.step rfl rfl (popMany_step_none id true m (Nat.not_le_of_lt h) hfor) ?_).le
        (by omega : 7 ≤ _)
      exact fault_ends hs (stocked_none (Stack.spans_empty m)) hq
    | unaddressable hsome => simp [hfor] at hsome
    | refused hsome => simp [hfor] at hsome
  | some blocks =>
    exact (popMany_ends_of_yields h hfor (hd.yields hfor)
      fun m' p' g made hstocked => fault_ends hs hstocked hq).le (by omega)

theorem popMany_ends_supplied (h : p.free.length < count) (hs : p.free.Spans m l)
    (hsupplied : p.Supplied allocator (count - p.free.length) blocks)
    (hq : ∀ m' free st, Adds m m' p.blockSize blocks →
      st.Spans m' ((newSlots m.size p.blockSize blocks).take (count - p.free.length) ++ l) →
      free.Spans m' ((newSlots m.size p.blockSize blocks).drop (count - p.free.length)) →
      Q m' { tallied (emptied m p blocks) blocks with
        free, counters := { (tallied (emptied m p blocks) blocks).counters with
          acquisitions := p.counters.acquisitions + count } } (.acquired (.many st))) :
    Ends allocator id Q (3 * blocks + 8) m p (.popMany count) 0 := by
  refine (popMany_ends_of_yields (n := 7) h hsupplied.wanted hsupplied.yields
    fun m' p' g made hstocked => ?_).le (by omega)
  obtain ⟨hadds, hfresh, -, rfl, horigin, -⟩ := hstocked
  rw [List.append_nil] at hfresh
  have hcarve : afterGrowth g none = .carve count (count - p.free.length) p.free g.fresh := by
    simp only [afterGrowth, horigin]
  refine tally_ends hfresh (length_newSlots _ _ _) ?_
  rw [hcarve]
  refine carve_ends_spans (hs.adds hadds) hfresh (newSlots_disjoint hs.lt_size) rfl ?_
  exact fun m' free st hr hst hfree =>
    hq m' free st (hadds.relinks hr fun s hs => (mem_newSlots.1 hs).1) hst hfree

end

end

end

end Call

end SlotPool
