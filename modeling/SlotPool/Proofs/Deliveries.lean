import SlotPool.Proofs.Bulk

/-!
# What a call for many slots brings

A call for many slots that is not denied brings just as many as it was made for: the first of the
free ones, or new ones and then all that were free. By itself it leaves the other free or new ones
in their order, and counts what it did. Whatever others do in between, it brings as many.
-/

namespace SlotPool

open Memory

variable {ε : Type}

/-- A call with which nothing else happens is over and has come to `o`. The arena is `a'` then, its
pool `p'`, and the other pools are as they were. -/
structure Arena.Completes (a : Arena ε) (allocator : Allocator) (id : PoolId) (c : Call)
    (a' : Arena ε) (p' : Pool ε) (o : Outcome) : Prop where
  ended : ∃ made, a.complete allocator id ⟨c, 0⟩ = (a', ⟨.finished o, made⟩)
  pool : a'.pool? id = some p'
  others : ∀ other, other ≠ id → a'.pool? other = a.pool? other

theorem Call.Ends.completes {a : Arena ε} {allocator : Allocator} {id : PoolId} {n : Nat}
    {p : Pool ε} {c : Call} {Q : Memory ε → Pool ε → Outcome → Prop}
    (h : Ends allocator id Q n a.memory p c 0) (hp : a.pool? id = some p)
    (hn : n ≤ a.patience id c) :
    ∃ a' p' o, a.Completes allocator id c a' p' o ∧ Q a'.memory p' o := by
  obtain ⟨a', p', o, made, hdone, hpools, hq⟩ := h.complete hp hn
  refine ⟨a', p', o, ⟨⟨made, hdone⟩, ?_, fun other hne => ?_⟩, hq⟩
  · rw [hpools, if_pos rfl]
  · rw [hpools, if_neg hne]

theorem Arena.Completes.unique {a a' a'' : Arena ε} {allocator : Allocator} {id : PoolId}
    {c : Call} {p' p'' : Pool ε} {o o' : Outcome} (h : a.Completes allocator id c a' p' o)
    (h' : a.Completes allocator id c a'' p'' o') : a' = a'' ∧ p' = p'' ∧ o = o' := by
  obtain ⟨made, hdone⟩ := h.ended
  obtain ⟨made', hdone'⟩ := h'.ended
  rw [hdone] at hdone'
  simp only [Prod.mk.injEq, Arena.Progress.mk.injEq, Call.finished.injEq] at hdone'
  obtain ⟨rfl, rfl, -⟩ := hdone'
  exact ⟨rfl, Option.some.inj (h.pool.symm.trans h'.pool), rfl⟩

theorem Arena.patience_popMany {a : Arena ε} {id : PoolId} {p : Pool ε}
    (hp : a.pool? id = some p) (count : Nat) :
    a.patience id (.popMany count) = 3 * (count / p.blockSize + 1) + 32 := by
  simp only [patience, blocksAhead, hp]

/-! ## What is left of the new slots -/

/-- The policy is to leave so many of the new slots free. -/
def GrowthPolicy.Leaves (blockSize left : Nat) : GrowthPolicy → Prop
  | headroom => 1 ≤ left ∧ left ≤ blockSize
  | exactFit => left ≤ blockSize - 1

theorem GrowthPolicy.leaves_of_blocksFor {policy : GrowthPolicy} {deficit blockSize blocks : Nat}
    (hsize : 0 < blockSize) (hd : 0 < deficit)
    (h : policy.blocksFor deficit blockSize = some blocks) :
    policy.Leaves blockSize (blocks * blockSize - deficit) := by
  cases policy with
  | headroom =>
    obtain ⟨-, rfl⟩ := Word.add?_eq_some.1 h
    have hdiv := Nat.div_add_mod' deficit blockSize
    have hmod := Nat.mod_lt deficit hsize
    unfold Leaves
    rw [Nat.succ_mul]
    omega
  | exactFit =>
    obtain rfl := Option.some.inj h
    have hdiv := Nat.div_add_mod' (deficit + (blockSize - 1)) blockSize
    have hmod := Nat.mod_lt (deficit + (blockSize - 1)) hsize
    have hpos : 1 ≤ (deficit + (blockSize - 1)) / blockSize := by
      rw [Nat.le_div_iff_mul_le hsize]
      omega
    unfold Leaves
    rw [Nat.max_eq_left hpos]
    omega

/-! ## What a call comes to by itself -/

/-- The call was content with the free slots: it has the first of them, and the others are left. -/
structure Drawn (m : Memory ε) (p : Pool ε) (count : Nat) (m' : Memory ε) (p' : Pool ε)
    (st : Stack) : Prop where
  slots : st.Spans m' ((p.free.slots m).take count)
  left : p'.free.Spans m' ((p.free.slots m).drop count)
  pool : p' = { p with
    free := p'.free
    counters := { p.counters with acquisitions := p.counters.acquisitions + count } }
  memory : Relinks m m' (p.free.slots m)

/-- The call has made the pool grow by so many blocks: it has new slots and all that were free, and
the other new ones are left. -/
structure GrownBy (m : Memory ε) (p : Pool ε) (count blocks : Nat) (m' : Memory ε) (p' : Pool ε)
    (st : Stack) : Prop where
  slots : st.Spans m'
    ((newSlots m.size p.blockSize blocks).take (count - p.available) ++ p.free.slots m)
  nodup : (st.slots m').Nodup
  length : (st.slots m').length = count
  left : p'.free.Spans m' ((newSlots m.size p.blockSize blocks).drop (count - p.available))
  available : p'.available = blocks * p.blockSize - (count - p.available)
  leaves : p.policy.Leaves p.blockSize p'.available
  made : p'.blocks.length = p.blocks.length + blocks
  pool : p' = { p with
    free := p'.free
    blocks := p'.blocks
    allocated := p.allocated + blocks * p.blockSize
    counters := { p.counters with
      growthEvents := p.counters.growthEvents + 1
      blocksProvisioned := p.counters.blocksProvisioned + blocks
      acquisitions := p.counters.acquisitions + count } }
  memory : Adds m m' p.blockSize blocks

section

variable {a : Arena ε} {id : PoolId} {p : Pool ε} {count blocks : Nat}

theorem exists_drawn (hp : a.pool? id = some p)
    (hs : p.free.Spans a.memory (p.free.slots a.memory)) (allocator : Allocator)
    (hcount : count ≤ p.available) :
    ∃ a' p' st, a.Completes allocator id (.popMany count) a' p' (.acquired (.many st)) ∧
      Drawn a.memory p count a'.memory p' st := by
  let Q (m' : Memory ε) (p' : Pool ε) (o : Outcome) : Prop :=
    ∃ st, o = .acquired (.many st) ∧ Drawn a.memory p count m' p' st
  have hends : Call.Ends allocator id Q 2 a.memory p (.popMany count) 0 :=
    Call.popMany_ends_enough hcount hs fun m' st free hr hst hfree =>
      ⟨st, rfl, hst, hfree, rfl, hr⟩
  obtain ⟨a', p', o, hdone, st, rfl, hdrawn⟩ := hends.completes hp (by
    rw [Arena.patience_popMany hp]
    omega)
  exact ⟨a', p', st, hdone, hdrawn⟩

theorem exists_grownBy (hp : a.pool? id = some p)
    (hs : p.free.Spans a.memory (p.free.slots a.memory)) {allocator : Allocator}
    (hshort : p.available < count)
    (hsupplied : p.Supplied allocator (count - p.available) blocks) :
    ∃ a' p' st, a.Completes allocator id (.popMany count) a' p' (.acquired (.many st)) ∧
      GrownBy a.memory p count blocks a'.memory p' st := by
  have hpos : 0 < p.blockSize := p.strategy.blockSize_pos
  have hfor := hsupplied.wanted
  have hblocks := GrowthPolicy.blocksFor_pos hfor
  have henough := Call.deficit_le_of_blocksFor hpos hfor
  have hleaves := GrowthPolicy.leaves_of_blocksFor hpos (Nat.sub_pos_of_lt hshort) hfor
  let Q (m' : Memory ε) (p' : Pool ε) (o : Outcome) : Prop :=
    ∃ st, o = .acquired (.many st) ∧ GrownBy a.memory p count blocks m' p' st
  have hends : Call.Ends allocator id Q (3 * blocks + 8) a.memory p (.popMany count) 0 := by
    refine Call.popMany_ends_supplied hshort hs hsupplied fun m' free st hadds hst hfree => ?_
    refine ⟨st, rfl, ?_⟩
    have havailable : free.length = blocks * p.blockSize - (count - p.available) := by
      rw [hfree.length, List.length_drop, length_newSlots]
      rfl
    constructor
    · exact hst
    · rw [hst.slots_eq]
      exact hst.nodup
    · rw [hst.slots_eq, List.length_append, List.length_take, length_newSlots, ← hs.length]
      unfold Pool.available at hshort henough
      omega
    · exact hfree
    · exact havailable
    · show p.policy.Leaves p.blockSize free.length
      rwa [havailable]
    · exact BlockList.length_pushRange _ _ _
    · simp only [Call.tallied, Call.emptied, Nat.min_eq_right hblocks]
      rfl
    · exact hadds
  obtain ⟨a', p', o, hdone, st, rfl, hgrown⟩ := hends.completes hp (by
    have hle := GrowthPolicy.blocksFor_le hpos hfor
    have hquotient : (count - p.available) / p.blockSize ≤ count / p.blockSize :=
      Nat.div_le_div_right (Nat.sub_le _ _)
    rw [Arena.patience_popMany hp]
    omega)
  exact ⟨a', p', st, hdone, hgrown⟩

end

namespace World

theorem Underway.brought {id : PoolId} {count : Nat} {strides : List (Stride ε)} {w : World ε}
    {held : List Held} {slots : Grant}
    (h : Underway id (.popMany count) strides w held (.finished (.acquired slots))) :
    ∃ st, slots = .many st ∧ (st.slots w.memory).length = count ∧ (st.slots w.memory).Nodup ∧
      st.length = count := by
  obtain ⟨p, hp⟩ := h.has.exists_pool
  have hbrought : Brought count strides w.memory slots := h.bulk hp
  cases slots with
  | one s => exact hbrought.elim
  | many st =>
    obtain ⟨-, hlength, -⟩ := hbrought
    obtain ⟨frame, hpart⟩ := h.has.exists_call_partition
    have hst : st.Spans w.memory (st.slots w.memory) :=
      hpart.sound (.chain st) (by simp [Call.pieces, Grant.pieces])
    exact ⟨st, rfl, hlength, hst.nodup, hst.length.trans hlength⟩

/-- A call for many slots is exact. If enough are free it brings the first of them and leaves the
others. If not, and the pool can grow by the blocks that its policy asks for, it brings new slots in
front of all that were free, and leaves the other new ones, as many as the policy is to leave.
Whatever others do in between, it brings as many as it was made for, unless it fails. -/
theorem acquire_many_exact {w : World ε} (h : w.Reachable) {id : PoolId} {p : Pool ε}
    (hp : w.arena.pool? id = some p) (allocator : Allocator) (count : Nat) :
    (count ≤ p.available → ∃ a' p' st,
      w.arena.Completes allocator id (.popMany count) a' p' (.acquired (.many st)) ∧
        Drawn w.memory p count a'.memory p' st) ∧
    (∀ blocks, p.available < count → p.Supplied allocator (count - p.available) blocks →
      ∃ a' p' st,
        w.arena.Completes allocator id (.popMany count) a' p' (.acquired (.many st)) ∧
          GrownBy w.memory p count blocks a'.memory p' st) ∧
    (∀ strides, ∀ w' : World ε, ∀ held slots,
      Underway id (.popMany count) strides w' held (.finished (.acquired slots)) →
        ∃ st, slots = .many st ∧ (st.slots w'.memory).length = count ∧
          (st.slots w'.memory).Nodup ∧ st.length = count) := by
  have hs := free_spans h hp
  refine ⟨fun hcount => ?_, fun blocks hshort hsupplied => ?_, fun strides w' held slots hw => ?_⟩
  · exact exists_drawn hp hs allocator hcount
  · exact exists_grownBy hp hs hshort hsupplied
  · exact hw.brought

/-! ## Calls to a pool of pairs -/

theorem acquire_many_exact_resting :
    ∃ p, resting.Reachable ∧ resting.arena.pool? ⟨0⟩ = some p ∧ p.available = 1 ∧
      (∃ a' p' st,
        resting.arena.Completes (fun _ _ => true) ⟨0⟩ (.popMany 1) a' p' (.acquired (.many st)) ∧
          Drawn resting.memory p 1 a'.memory p' st) ∧
      (∃ a' p' st,
        resting.arena.Completes (fun _ _ => true) ⟨0⟩ (.popMany 3) a' p' (.acquired (.many st)) ∧
          GrownBy resting.memory p 3 2 a'.memory p' st) ∧
      ∃ strides, ∃ w' : World Nat, ∃ slots,
        Underway ⟨0⟩ (.popMany 3) strides w' [] (.finished (.acquired slots)) ∧
          ∃ st, slots = .many st ∧ (st.slots w'.memory).length = 3 := by
  have hpool : (resting.arena.pool? ⟨0⟩).map (fun p => (p.available,
      p.policy.blocksFor 2 p.blockSize, p.strategy.addressable 2)) = some (1, some 2, true) := by
    decide +kernel
  obtain ⟨p, hp, hfacts⟩ := Option.map_eq_some_iff.1 hpool
  simp only [Prod.mk.injEq] at hfacts
  obtain ⟨havailable, hwanted, haddressable⟩ := hfacts
  have hsupplied : p.Supplied (fun _ _ => true) (3 - p.available) 2 := by
    rw [havailable]
    exact ⟨hwanted, haddressable, fun _ _ _ _ _ => rfl⟩
  have hover : (finishing (fun _ _ => true) grown.1 grown.2.call).2.call =
      .finished (.acquired (.many ⟨some ⟨5⟩, some ⟨0⟩, 3⟩)) := by decide +kernel
  obtain ⟨strides, losses, hgrown⟩ := underway_grown
  obtain ⟨strides', w, h⟩ := hgrown.finishes (fun _ _ => true)
  rw [hover] at h
  obtain ⟨hdrawn, -, -⟩ :=
    acquire_many_exact resting_reachable hp (fun _ _ => true) 1
  obtain ⟨-, hgrown, hbrought⟩ :=
    acquire_many_exact resting_reachable hp (fun _ _ => true) 3
  obtain ⟨st, hst, hlength, -⟩ := hbrought _ _ _ _ h
  exact ⟨p, resting_reachable, hp, havailable, hdrawn (by omega),
    hgrown 2 (by omega) hsupplied, _, _, _, h, st, hst, hlength⟩

end World

end SlotPool
