import SlotPool.Proofs.Alone
import SlotPool.Proofs.Passages
import Mathlib.Data.Nat.Find

/-!
# The blocks that are wanted, and those that are built

A pool is to provide so many blocks, whose slots go in front of some stack. Blocks are built one
after the other, up to the first reservation that is refused. Those that are finished are kept, and
of the others nothing is left: neither a slot in the memory nor a block in the pool's list.
-/

namespace SlotPool

open Memory

variable {ε : Type}

/-! ## Blocks that are added -/

namespace Memory

theorem sideBySide_add (first count more : Nat) :
    sideBySide first (count + more) =
      sideBySide first count ++ sideBySide (first + count) more := by
  rw [sideBySide, ← List.range'_append_1, List.map_append]
  rfl

/-- The slots of so many new blocks in a memory of `size` slots, the newest in front. -/
def newSlots (size blockSize blocks : Nat) : List Slot :=
  (sideBySide size (blocks * blockSize)).reverse

theorem newSlots_succ (size blockSize blocks : Nat) :
    newSlots size blockSize (blocks + 1) =
      (sideBySide (size + blocks * blockSize) blockSize).reverse ++
        newSlots size blockSize blocks := by
  rw [newSlots, Nat.succ_mul, sideBySide_add, List.reverse_append, newSlots]

@[simp]
theorem length_newSlots (size blockSize blocks : Nat) :
    (newSlots size blockSize blocks).length = blocks * blockSize := by
  simp [newSlots, sideBySide]

theorem mem_newSlots {size blockSize blocks : Nat} {s : Slot} :
    s ∈ newSlots size blockSize blocks ↔
      size ≤ s.index ∧ s.index < size + blocks * blockSize := by
  rw [newSlots, List.mem_reverse, mem_sideBySide]

theorem Relinks.cell? {m m' : Memory ε} {l : List Slot} (h : Relinks m m' l) {s : Slot}
    (hs : s ∉ l) : m'.cell? s = m.cell? s := by
  have hlink := h.link s hs
  cases hc : m.cell? s with
  | none =>
    rw [link?, link?, hc] at hlink
    exact Option.map_eq_none_iff.1 hlink
  | some c =>
    obtain ⟨c', hc', hrun, howner⟩ := cell?_of_unlinked h.unlinked hc
    have hnext : c'.next = c.next := by simpa [link?, hc, hc'] using hlink
    obtain ⟨run, owner, next⟩ := c
    obtain ⟨run', owner', next'⟩ := c'
    obtain ⟨rfl, rfl, rfl⟩ : run' = run ∧ owner' = owner ∧ next' = next := ⟨hrun, howner, hnext⟩
    exact hc'

/-- So many blocks were added. The slots that there were are as they were. -/
structure Adds (m m' : Memory ε) (blockSize blocks : Nat) : Prop where
  size : m'.size = m.size + blocks * blockSize
  arrays : m'.arrays.size = m.arrays.size + blocks
  cell : ∀ s : Slot, s.index < m.size → m'.cell? s = m.cell? s
  array : ∀ i, i < m.arrays.size → m'.arrays[i]? = m.arrays[i]?

namespace Adds

variable {m m' m'' : Memory ε} {blockSize blocks : Nat}

theorem refl (m : Memory ε) (blockSize : Nat) : Adds m m blockSize 0 :=
  ⟨by simp, rfl, fun _ _ => rfl, fun _ _ => rfl⟩

theorem eq_of_none (h : Adds m m' blockSize 0) : m' = m := by
  have harrays : m'.arrays = m.arrays := by
    apply Array.ext_getElem?
    intro i
    by_cases hi : i < m.arrays.size
    · exact h.array i hi
    · have hi' : m'.arrays.size ≤ i := by rw [h.arrays]; omega
      rw [Array.getElem?_eq_none hi', Array.getElem?_eq_none (by omega)]
  have hcells : m'.cells = m.cells := by
    apply Array.ext_getElem?
    intro i
    have hsize : m'.cells.size = m.cells.size := by simpa [Memory.size] using h.size
    by_cases hi : i < m.cells.size
    · exact h.cell ⟨i⟩ hi
    · rw [Array.getElem?_eq_none (by omega), Array.getElem?_eq_none (by omega)]
  obtain ⟨arrays, cells⟩ := m
  obtain ⟨arrays', cells'⟩ := m'
  obtain rfl : arrays' = arrays := harrays
  obtain rfl : cells' = cells := hcells
  rfl

theorem relinks {l : List Slot} (h : Adds m m' blockSize blocks) (hr : Relinks m' m'' l)
    (hl : ∀ s ∈ l, m.size ≤ s.index) : Adds m m'' blockSize blocks := by
  have harrays := arrays_of_unlinked hr.unlinked
  refine ⟨(size_of_unlinked hr.unlinked).trans h.size, by rw [harrays, h.arrays],
    fun s hs => ?_, by rw [harrays]; exact h.array⟩
  rw [hr.cell? fun hin => absurd (hl s hin) (by omega), h.cell s hs]

theorem addBlock (h : Adds m m' blockSize blocks) (owner : PoolId) (width : Nat) (v : ε) :
    Adds m (m'.addBlock owner blockSize width v) blockSize (blocks + 1) := by
  constructor
  · rw [size_addBlock, h.size, Nat.succ_mul, Nat.add_assoc]
  · rw [arrays_addBlock, Array.size_push, h.arrays, Nat.add_assoc]
  · intro s hs
    rw [cell?_addBlock_of_lt _ _ _ _ _ (by rw [h.size]; omega), h.cell s hs]
  · intro i hi
    have hne : i ≠ m'.arrays.size := by rw [h.arrays]; omega
    rw [arrays_addBlock, Array.getElem?_push, if_neg hne, h.array i hi]

end Adds

end Memory

theorem Stack.Spans.adds {m m' : Memory ε} {st : Stack} {l : List Slot} {blockSize blocks : Nat}
    (h : st.Spans m l) (ha : Adds m m' blockSize blocks) : st.Spans m' l := by
  refine { h with linked := h.linked.frame fun s hs => ?_ }
  rw [link?, link?, ha.cell s (h.lt_size s hs)]

/-- Adds `count` arrays that lie side by side, from `first` on. -/
def BlockList.pushRange (l : BlockList Nat) (first : Nat) : Nat → BlockList Nat
  | 0 => l
  | count + 1 => (l.pushRange first count).push (first + count)

theorem BlockList.length_pushRange (l : BlockList Nat) (first count : Nat) :
    (l.pushRange first count).length = l.length + count := by
  induction count with
  | zero => rfl
  | succ count ih => rw [pushRange, length_push, ih, Nat.add_assoc]

/-! ## What is asked for and what it yields -/

/-- The allocator grants the reservations of so many blocks, of which the first has the number
`made`. -/
def Strategy.Granted (strategy : Strategy ε) (allocator : Allocator) (made blocks : Nat) : Prop :=
  ∀ block < blocks, ∀ i r, strategy.reservations[i]? = some r →
    allocator (made + block * strategy.reservations.length + i) r = true

namespace Strategy

/-- What a request for `blocks` blocks comes to whose first reservation has the number `made`: so
many of them are finished, and this error comes up, if any. -/
inductive Yields (s : Strategy ε) (allocator : Allocator) (made blocks : Nat) :
    Nat → Option PoolError → Prop where
  | all (ha : s.addressable blocks = true) (hg : s.Granted allocator made blocks) :
      Yields s allocator made blocks blocks none
  /-- So many blocks cannot be addressed, which is found out before anything is reserved. -/
  | oversize (ha : s.addressable blocks = false) :
      Yields s allocator made blocks 0 (some (.capacityOverflow blocks s.blockSize))
  /-- Of the block after those that are finished, the reservation `i` is the first that is refused.
  -/
  | refused {done i : Nat} {r : Reservation} (ha : s.addressable blocks = true)
      (hd : done < blocks) (hg : s.Granted allocator made done)
      (hi : ∀ k < i, ∀ r, s.reservations[k]? = some r →
        allocator (made + done * s.reservations.length + k) r = true)
      (hr : s.reservations[i]? = some r)
      (hrefused : allocator (made + done * s.reservations.length + i) r = false) :
      Yields s allocator made blocks done (some r.error)

theorem exists_refused {strategy : Strategy ε} {allocator : Allocator} {made blocks : Nat}
    (h : ¬ strategy.Granted allocator made blocks) :
    ∃ done < blocks, strategy.Granted allocator made done ∧ ∃ i r,
      (∀ k < i, ∀ r, strategy.reservations[k]? = some r →
        allocator (made + done * strategy.reservations.length + k) r = true) ∧
      strategy.reservations[i]? = some r ∧
      allocator (made + done * strategy.reservations.length + i) r = false := by
  classical
  let Whole (block : Nat) : Prop := ∀ i r, strategy.reservations[i]? = some r →
    allocator (made + block * strategy.reservations.length + i) r = true
  have hblock : ∃ block, block < blocks ∧ ¬ Whole block := by
    by_contra hall
    refine h fun block hlt => ?_
    by_contra hsome
    exact hall ⟨block, hlt, hsome⟩
  obtain ⟨hdone, hpart⟩ := Nat.find_spec hblock
  have hbefore : ∀ block < Nat.find hblock, Whole block := by
    intro block hlt
    by_contra hsome
    exact Nat.find_min hblock hlt ⟨by omega, hsome⟩
  have hreservation : ∃ i r, strategy.reservations[i]? = some r ∧
      allocator (made + Nat.find hblock * strategy.reservations.length + i) r = false := by
    by_contra hall
    refine hpart fun i r hr => ?_
    by_contra hsome
    exact hall ⟨i, r, hr, by simpa using hsome⟩
  obtain ⟨r, hr, hrefused⟩ := Nat.find_spec hreservation
  refine ⟨_, hdone, hbefore, _, r, fun k hk r' hr' => ?_, hr, hrefused⟩
  by_contra hsome
  exact Nat.find_min hreservation hk ⟨r', hr', by simpa using hsome⟩

variable {s : Strategy ε} {allocator : Allocator} {made blocks done : Nat}
  {fault : Option PoolError}

theorem exists_yields (s : Strategy ε) (allocator : Allocator) (made blocks : Nat) :
    ∃ done fault, s.Yields allocator made blocks done fault := by
  cases ha : s.addressable blocks with
  | false => exact ⟨_, _, .oversize ha⟩
  | true =>
    by_cases hg : s.Granted allocator made blocks
    · exact ⟨_, _, .all ha hg⟩
    · obtain ⟨done, hd, hdone, i, r, hi, hr, hrefused⟩ := exists_refused hg
      exact ⟨_, _, .refused ha hd hdone hi hr hrefused⟩

theorem Yields.fault_eq_none_iff (h : s.Yields allocator made blocks done fault) :
    fault = none ↔ done = blocks ∧ s.addressable blocks = true := by
  cases h with
  | all ha hg => exact ⟨fun _ => ⟨rfl, ha⟩, fun _ => rfl⟩
  | oversize ha => simp [ha]
  | refused ha hd => simp [Nat.ne_of_lt hd]

theorem Yields.fault_eq_none_iff_of_pos (h : s.Yields allocator made blocks done fault)
    (hb : 0 < blocks) : fault = none ↔ done = blocks := by
  cases h with
  | all ha hg => exact ⟨fun _ => rfl, fun _ => rfl⟩
  | oversize ha => simp [Nat.ne_of_lt hb]
  | refused ha hd => simp [Nat.ne_of_lt hd]

theorem Yields.done_eq_zero_of_overflow (h : s.Yields allocator made blocks done fault)
    {n size : Nat} (hfault : fault = some (.capacityOverflow n size)) : done = 0 := by
  cases h with
  | all ha hg => cases hfault
  | oversize ha => rfl
  | refused ha hd hg hi hr hrefused => cases hfault

end Strategy

/-! ## Slots of new blocks -/

namespace Memory

theorem Adds.value {m m' : Memory ε} {blockSize blocks : Nat} (h : Adds m m' blockSize blocks)
    {s : Slot} (hs : 0 < (m.value s).size) : m'.value s = m.value s := by
  cases hc : m.cell? s with
  | none => simp [Memory.value, hc] at hs
  | some c =>
    have hc' : m'.cell? s = some c := (h.cell s (lt_size_of_cell? hc)).trans hc
    rw [value_of_cell? hc] at hs ⊢
    rw [value_of_cell? hc']
    have hlt : c.run.array < m.arrays.size := by
      by_contra hge
      rw [elements, Array.getElem?_eq_none (Nat.le_of_not_lt hge)] at hs
      exact absurd hs (Nat.lt_irrefl 0)
    simp only [elements, h.array _ hlt]

end Memory

theorem Clean.adds {m m' : Memory ε} {id : PoolId} {strategy : Strategy ε} {s : Slot}
    {blockSize blocks : Nat} (h : Clean m id strategy s) (ha : Adds m m' blockSize blocks) :
    Clean m' id strategy s := by
  refine ⟨?_, (ha.value ?_).trans h.value⟩
  · rw [Memory.owner?, ha.cell s h.lt_size]
    exact h.owner
  · rw [h.value, Array.size_replicate]
    exact strategy.width_pos

namespace Call

section

variable {m : Memory ε}

theorem buildBlock_relinks (id : PoolId) (strategy : Strategy ε) (m : Memory ε) (g : Growth) :
    Relinks (m.addBlock id strategy.blockSize strategy.shape.width strategy.pristine)
      (buildBlock id strategy m g).1 (sideBySide m.size strategy.blockSize) :=
  Stack.pushRange_relinks _ g.fresh m.size strategy.blockSize

theorem spans_buildBlock (id : PoolId) (strategy : Strategy ε) (g : Growth) {st : Stack}
    {l : List Slot} (h : st.Spans m l) : st.Spans (buildBlock id strategy m g).1 l := by
  refine (h.adds ((Adds.refl m strategy.blockSize).addBlock id _ _)).frame
    (buildBlock_relinks id strategy m g) fun s hs hs' => ?_
  have hlt := h.lt_size s hs
  have hge := ((mem_sideBySide _ _ _).1 hs').1
  omega

theorem buildBlock_spans (id : PoolId) (strategy : Strategy ε) {g : Growth} {l : List Slot}
    (h : g.fresh.Spans m l) :
    (buildBlock id strategy m g).2.fresh.Spans (buildBlock id strategy m g).1
      ((sideBySide m.size strategy.blockSize).reverse ++ l) := by
  have hkept := h.adds ((Adds.refl m strategy.blockSize).addBlock id strategy.shape.width
    strategy.pristine)
  refine Stack.pushRange_spans m.size strategy.blockSize hkept (by rw [size_addBlock]) ?_
  intro s hs hs'
  have hlt := h.lt_size s hs'
  have hge := ((mem_sideBySide _ _ _).1 hs).1
  omega

end

/-! ## What a call carries -/

/-- The error that has come up, which the call reports in the end. -/
def fault? : Call → Option PoolError
  | countSlots _ fault => fault
  | countGrowth _ fault _ => fault
  | countBlocks _ fault _ => fault
  | noteGrowth _ fault _ => fault
  | publish _ fault => fault
  | unclaim fault => fault
  | noteFailure _ _ _ error => some error
  | restore _ _ error => some error
  | finished (.failed error) => some error
  | _ => none

/-- The growth of which the call makes the next block. -/
def growth? : Call → Option Growth
  | reserve g => some g
  | build g => some g
  | _ => none

@[simp]
theorem fault?_afterGrowth (g : Growth) (fault : Option PoolError) :
    (afterGrowth g fault).fault? = fault := by
  obtain ⟨origin, blocks, granted, fresh⟩ := g
  cases origin <;> cases fault <;> rfl

@[simp]
theorem fault?_afterBlocks (g : Growth) (fault : Option PoolError) :
    (afterBlocks g fault).fault? = fault := by
  unfold afterBlocks
  split
  · exact fault?_afterGrowth g fault
  · rfl

theorem growth?_afterBlocks (g : Growth) (fault : Option PoolError) :
    (afterBlocks g fault).growth? = none := by
  obtain ⟨origin, blocks, granted, fresh⟩ := g
  unfold afterBlocks
  split
  · cases origin <;> cases fault <;> rfl
  · rfl

/-! ## Building -/

/-- Growth by `blocks` blocks, the slots of which go in front of `out`. -/
def provide (strategy : Strategy ε) (origin : Origin) (blocks : Nat) (out : Stack) : Call :=
  let g : Growth := { origin, blocks, fresh := out }
  if strategy.addressable blocks then nextBlock g
  else afterBlocks g (some (.capacityOverflow blocks strategy.blockSize))

theorem startGrowth_eq_provide (strategy : Strategy ε) (origin : Origin) (blocks : Nat) :
    startGrowth strategy origin blocks = provide strategy origin blocks {} := rfl

/-- The call is about to reserve something for a block, or to finish it. -/
def isBuilding (c : Call) : Bool := c.growth?.isSome

theorem isBuilding_afterBlocks (g : Growth) (fault : Option PoolError) :
    (afterBlocks g fault).isBuilding = false := by
  rw [isBuilding, growth?_afterBlocks]
  rfl

/-- The call comes from one standing to the other in at most so many steps. In each of them it
reserves something for a block or finishes one, and nothing is noted. -/
def Builds (allocator : Allocator) (id : PoolId) (n : Nat) (s s' : Standing ε) : Prop :=
  ∃ cs, Passes allocator id cs [] s s' ∧ cs.length ≤ n ∧ ∀ c ∈ cs, c.isBuilding = true

section

variable {allocator : Allocator} {id : PoolId} {n k made : Nat} {s s' s'' : Standing ε}
  {fault : Option PoolError}
  {m m' : Memory ε} {p p' : Pool ε} {g g' : Growth} {old : List Slot} {done : Nat}

theorem Builds.refl (s : Standing ε) : Builds allocator id 0 s s :=
  ⟨[], .stay s, Nat.le_refl 0, fun _ hc => nomatch hc⟩

theorem Builds.le (h : Builds allocator id n s s') (hn : n ≤ k) : Builds allocator id k s s' := by
  obtain ⟨cs, hpass, hlen, hcs⟩ := h
  exact ⟨cs, hpass, hlen.trans hn, hcs⟩

theorem Builds.trans (h : Builds allocator id n s s') (h' : Builds allocator id k s' s'') :
    Builds allocator id (n + k) s s'' := by
  obtain ⟨cs, hpass, hlen, hcs⟩ := h
  obtain ⟨cs', hpass', hlen', hcs'⟩ := h'
  refine ⟨cs ++ cs', hpass.trans hpass', ?_, fun c hc => ?_⟩
  · rw [List.length_append]
    exact Nat.add_le_add hlen hlen'
  · exact (List.mem_append.1 hc).elim (hcs c) (hcs' c)

theorem builds_reserve {r : Reservation} (hr : p.strategy.reservations[g.granted]? = some r) :
    Builds allocator id 1 ⟨m, p, .reserve g, made⟩
      ⟨m, p, afterReservation p.strategy g (allocator made r), made + 1⟩ := by
  refine ⟨_, .reserve hr (.stay _), Nat.le_refl 1, fun c hc => ?_⟩
  rw [List.mem_singleton.1 hc]
  rfl

theorem builds_build :
    Builds allocator id 1 ⟨m, p, .build g, made⟩
      ⟨(buildBlock id p.strategy m g).1,
        { p with blocks := p.blocks.push (buildBlock id p.strategy m g).1.newestArray },
        nextBlock (buildBlock id p.strategy m g).2, made⟩ := by
  refine ⟨[.build g], .silent rfl rfl rfl (.stay _), Nat.le_refl 1, fun c hc => ?_⟩
  rw [List.mem_singleton.1 hc]
  rfl

theorem builds_reservations (i : Nat) (hi : i < p.strategy.reservations.length)
    (hz : g.granted = 0)
    (hg : ∀ k < i, ∀ r, p.strategy.reservations[k]? = some r → allocator (made + k) r = true) :
    Builds allocator id i ⟨m, p, .reserve g, made⟩
      ⟨m, p, .reserve { g with granted := i }, made + i⟩ := by
  induction i with
  | zero =>
    obtain ⟨origin, blocks, granted, fresh⟩ := g
    obtain rfl : granted = 0 := hz
    exact .refl _
  | succ i ih =>
    have hlt := Nat.lt_of_succ_lt hi
    have hr := List.getElem?_eq_getElem hlt
    have hgrant := hg i (Nat.lt_succ_self i) _ hr
    have hnext : Builds allocator id 1 ⟨m, p, .reserve { g with granted := i }, made + i⟩ _ :=
      builds_reserve hr
    simp only [afterReservation, hr, hgrant, if_true, if_pos hi] at hnext
    exact (ih hlt fun k hk => hg k (Nat.lt_succ_of_lt hk)).trans hnext

theorem builds_block (hz : g.granted = 0)
    (hg : ∀ i r, p.strategy.reservations[i]? = some r → allocator (made + i) r = true) :
    Builds allocator id 3 ⟨m, p, .reserve g, made⟩
      ⟨(buildBlock id p.strategy m g).1,
        { p with blocks := p.blocks.push (buildBlock id p.strategy m g).1.newestArray },
        nextBlock (buildBlock id p.strategy m g).2, made + p.strategy.reservations.length⟩ := by
  obtain ⟨hpos, htwo⟩ := length_reservations p.strategy
  obtain ⟨last, hlast⟩ : ∃ last, p.strategy.reservations.length = last + 1 :=
    ⟨p.strategy.reservations.length - 1, by omega⟩
  have hlt : last < p.strategy.reservations.length := by omega
  have hr := List.getElem?_eq_getElem hlt
  have hbefore : Builds allocator id last ⟨m, p, .reserve g, made⟩ _ :=
    builds_reservations last hlt hz fun k _ r hk => hg k r hk
  have hlastly : Builds allocator id 1 ⟨m, p, .reserve { g with granted := last }, made + last⟩ _ :=
    builds_reserve hr
  simp only [afterReservation, hr, hg last _ hr, if_true] at hlastly
  rw [if_neg (by omega), Nat.add_assoc, ← hlast] at hlastly
  exact ((hbefore.trans hlastly).trans builds_build).le (by omega)

theorem builds_refused {i : Nat} {r : Reservation} (hz : g.granted = 0)
    (hg : ∀ k < i, ∀ r, p.strategy.reservations[k]? = some r → allocator (made + k) r = true)
    (hr : p.strategy.reservations[i]? = some r) (hrefused : allocator (made + i) r = false) :
    Builds allocator id 2 ⟨m, p, .reserve g, made⟩
      ⟨m, p, afterBlocks { g with granted := i } (some r.error), made + i + 1⟩ := by
  obtain ⟨-, htwo⟩ := length_reservations p.strategy
  obtain ⟨hlt, -⟩ := List.getElem?_eq_some_iff.1 hr
  have hbefore : Builds allocator id i ⟨m, p, .reserve g, made⟩ _ :=
    builds_reservations i hlt hz hg
  have hlastly : Builds allocator id 1 ⟨m, p, .reserve { g with granted := i }, made + i⟩ _ :=
    builds_reserve hr
  simp only [afterReservation, hr, hrefused] at hlastly
  exact (hbefore.trans hlastly).le (by omega)

/-! ## One block after the other -/

/-- Of the blocks that are wanted so many are finished. Their slots, all of them clean, are in front
of the others, the newest first. -/
structure Stocked (id : PoolId) (m : Memory ε) (p : Pool ε) (g : Growth) (old : List Slot)
    (done : Nat) (m' : Memory ε) (p' : Pool ε) (g' : Growth) : Prop where
  /-- There are no more slots and arrays than those of the blocks. -/
  adds : Adds m m' p.blockSize done
  fresh : g'.fresh.Spans m' (newSlots m.size p.blockSize done ++ old)
  clean : ∀ s ∈ newSlots m.size p.blockSize done, Clean m' id p.strategy s
  pool : p' = { p with blocks := p.blocks.pushRange m.arrays.size done }
  origin : g'.origin = g.origin
  blocks : g'.blocks = g.blocks - done

theorem stocked_none (hf : g.fresh.Spans m old) : Stocked id m p g old 0 m p g := by
  have hnone : newSlots m.size p.blockSize 0 = [] := by rw [newSlots, Nat.zero_mul]; rfl
  refine ⟨.refl m _, ?_, ?_, rfl, rfl, rfl⟩
  · rwa [hnone]
  · rw [hnone]
    intro s hs
    cases hs

theorem Stocked.next (h : Stocked id m p g old done m' p' g') :
    Stocked id m p g old (done + 1) (buildBlock id p'.strategy m' g').1
      { p' with blocks := p'.blocks.push (buildBlock id p'.strategy m' g').1.newestArray }
      (buildBlock id p'.strategy m' g').2 := by
  obtain ⟨hadds, hfresh, hclean, rfl, horigin, hblocks⟩ := h
  have hu := (buildBlock_relinks id p.strategy m' g').unlinked
  have hadded : Adds m (buildBlock id p.strategy m' g').1 p.blockSize (done + 1) := by
    refine (hadds.addBlock id p.strategy.shape.width p.strategy.pristine).relinks
      (buildBlock_relinks id p.strategy m' g') fun s hs => ?_
    have hge := ((mem_sideBySide _ _ _).1 hs).1
    have hsize := hadds.size
    omega
  have hone : Adds m' (buildBlock id p.strategy m' g').1 p.blockSize 1 := by
    refine ((Adds.refl m' _).addBlock id p.strategy.shape.width p.strategy.pristine).relinks
      (buildBlock_relinks id p.strategy m' g') fun s hs => ((mem_sideBySide _ _ _).1 hs).1
  refine ⟨hadded, ?_, fun s hs => ?_, ?_, horigin, ?_⟩
  · have hbuilt := buildBlock_spans id p.strategy hfresh
    rw [hadds.size, ← List.append_assoc] at hbuilt
    rw [newSlots_succ]
    exact hbuilt
  · rw [newSlots_succ, List.mem_append, List.mem_reverse] at hs
    rcases hs with hs | hs
    · rw [← hadds.size] at hs
      change s ∈ sideBySide m'.size p.strategy.blockSize at hs
      refine ⟨?_, ?_⟩
      · rw [owner?_of_unlinked hu, owner?, cell?_addBlock_new _ _ _ _ _ hs, Option.map_some]
      · rw [value_of_unlinked hu, value_addBlock_new _ _ _ _ _ hs]
    · exact (hclean s hs).adds hone
  · have hnewest : (buildBlock id p.strategy m' g').1.newestArray = m.arrays.size + done := by
      rw [newestArray, hadded.arrays]
      rfl
    simp only [hnewest, BlockList.pushRange]
  · show g'.blocks - 1 = _
    rw [hblocks, Nat.sub_sub]

theorem builds_blocks (hd : done ≤ g.blocks) (hz : g.granted = 0) (hf : g.fresh.Spans m old)
    (hg : p.strategy.Granted allocator made done) :
    ∃ m' p' g', Builds allocator id (3 * done) ⟨m, p, nextBlock g, made⟩
        ⟨m', p', nextBlock g', made + done * p.strategy.reservations.length⟩ ∧
      Stocked id m p g old done m' p' g' ∧ g'.granted = 0 := by
  induction done with
  | zero =>
    rw [Nat.zero_mul]
    exact ⟨m, p, g, .refl _, stocked_none hf, hz⟩
  | succ done ih =>
    obtain ⟨m', p', g', hbuilds, hstocked, hz'⟩ :=
      ih (Nat.le_of_succ_le hd) fun block hb => hg block (Nat.lt_succ_of_lt hb)
    have hstrategy : p'.strategy = p.strategy := by rw [hstocked.pool]
    have hmore : g'.blocks ≠ 0 := by
      rw [hstocked.blocks]
      omega
    have hblock : Builds allocator id 3
        ⟨m', p', .reserve g', made + done * p.strategy.reservations.length⟩ _ :=
      builds_block hz' fun i r hr => hg done (Nat.lt_succ_self done) i r (hstrategy ▸ hr)
    rw [show nextBlock g' = .reserve g' from if_neg hmore] at hbuilds
    have hboth := hbuilds.trans hblock
    rw [Nat.add_assoc, hstrategy, ← Nat.succ_mul, ← hstrategy] at hboth
    exact ⟨_, _, _, hstrategy ▸ hboth, hstocked.next, rfl⟩

/-- Whatever the allocator answers, building comes to what the request yields. -/
theorem builds_provide (origin : Origin) (blocks : Nat) {out : Stack} (hout : out.Spans m old)
    (hyields : p.strategy.Yields allocator made blocks done fault) :
    ∃ m' p' g' made', Builds allocator id (min (3 * done + 2) (3 * blocks))
        ⟨m, p, provide p.strategy origin blocks out, made⟩
        ⟨m', p', afterBlocks g' fault, made'⟩ ∧
      Stocked id m p { origin, blocks, fresh := out } old done m' p' g' := by
  have hblocks : ∀ done ≤ blocks, p.strategy.Granted allocator made done → ∃ m' p' g',
      Builds allocator id (3 * done) ⟨m, p, nextBlock { origin, blocks, fresh := out }, made⟩
        ⟨m', p', nextBlock g', made + done * p.strategy.reservations.length⟩ ∧
      Stocked id m p { origin, blocks, fresh := out } old done m' p' g' ∧ g'.granted = 0 :=
    fun done hd hg => builds_blocks hd rfl hout hg
  cases hyields with
  | oversize ha =>
    rw [provide, if_neg (by simp [ha])]
    exact ⟨m, p, _, made, (Builds.refl _).le (Nat.zero_le _), stocked_none hout⟩
  | all ha hg =>
    obtain ⟨m', p', g', hbuilds, hstocked, -⟩ := hblocks _ (Nat.le_refl _) hg
    have hdone : g'.blocks = 0 := hstocked.blocks.trans (Nat.sub_self _)
    rw [show nextBlock g' = afterBlocks g' none from if_pos hdone] at hbuilds
    rw [provide, if_pos ha]
    exact ⟨m', p', g', _, hbuilds.le (by omega), hstocked⟩
  | @refused _ i r ha hd hg hi hr hrefused =>
    obtain ⟨m', p', g', hbuilds, hstocked, hz⟩ := hblocks done (Nat.le_of_lt hd) hg
    have hstrategy : p'.strategy = p.strategy := by rw [hstocked.pool]
    have hmore : g'.blocks ≠ 0 := by
      rw [hstocked.blocks]
      exact Nat.sub_ne_zero_of_lt hd
    rw [show nextBlock g' = .reserve g' from if_neg hmore] at hbuilds
    have hlast : Builds allocator id 2
        ⟨m', p', .reserve g', made + done * p.strategy.reservations.length⟩ _ :=
      builds_refused hz (fun k hk r hr => hi k hk r (hstrategy ▸ hr)) (hstrategy.symm ▸ hr) hrefused
    rw [provide, if_pos ha]
    exact ⟨m', p', { g' with granted := i }, _, (hbuilds.trans hlast).le (by omega),
      { hstocked with }⟩

end

end Call

/-! ## In an arena -/

/-- Provides blocks for the pool named `id`, all that are wanted or up to the first reservation that
is refused. -/
def Arena.provision (a : Arena ε) (allocator : Allocator) (id : PoolId) (strategy : Strategy ε)
    (origin : Origin) (blocks : Nat) (out : Stack) (made : Nat) : Arena ε × Progress :=
  a.proceed allocator id (fun c => !c.isBuilding) (3 * blocks)
    ⟨.provide strategy origin blocks out, made⟩

theorem Call.Builds.proceed {allocator : Allocator} {id : PoolId} {n : Nat} {s s' : Standing ε}
    (h : Builds allocator id n s s') {a : Arena ε} (hp : a.pool? id = some s.pool)
    (hm : a.memory = s.memory) (hstop : s'.call.isBuilding = false) :
    a.proceed allocator id (fun c => !c.isBuilding) n ⟨s.call, s.made⟩ =
      (a.put id s'.memory s'.pool [], ⟨s'.call, s'.made⟩) := by
  obtain ⟨cs, hpass, hlen, hcs⟩ := h
  refine (hpass.proceed_and_visits hp hm (fun c hc => ?_) (Or.inl ?_) hlen).1
  · rw [hcs c hc]
    rfl
  · rw [hstop]
    rfl

/-- Whichever reservation is refused, a stack of any slots gets those of the finished blocks in
front, as many as these blocks have, all of them new and clean. The pool has so many blocks more,
and the memory no other slots more than these. There is no error just if all blocks are finished
and can be addressed; of blocks that are finished only none at all cannot. Nothing else in the arena
changes. -/
theorem provision_finishes_whole_blocks {a : Arena ε} {id : PoolId} {p : Pool ε}
    (hp : a.pool? id = some p) (allocator : Allocator) (made : Nat) (origin : Origin)
    (blocks : Nat) {out : Stack} {old : List Slot} (hout : out.Spans a.memory old) :
    ∃ done fault m' p' g' made',
      a.provision allocator id p.strategy origin blocks out made =
        (a.put id m' p' [], ⟨.afterBlocks g' fault, made'⟩) ∧
      p.strategy.Yields allocator made blocks done fault ∧
      ((fault = none ↔ done = blocks ∧ p.strategy.addressable blocks = true) ∧
        (0 < blocks → (fault = none ↔ done = blocks)) ∧
        ∀ n size, fault = some (.capacityOverflow n size) → done = 0) ∧
      (g'.fresh.slots m' = newSlots a.memory.size p.blockSize done ++ old ∧
        (newSlots a.memory.size p.blockSize done ++ old).Nodup ∧
        (newSlots a.memory.size p.blockSize done).length = done * p.blockSize) ∧
      p'.blocks.length = p.blocks.length + done ∧
      Call.Stocked id a.memory p { origin, blocks, fresh := out } old done m' p' g' := by
  obtain ⟨done, fault, hyields⟩ := p.strategy.exists_yields allocator made blocks
  obtain ⟨m', p', g', made', hbuilds, hstocked⟩ :=
    Call.builds_provide origin blocks hout hyields
  refine ⟨done, fault, m', p', g', made', ?_, hyields, ⟨hyields.fault_eq_none_iff,
    hyields.fault_eq_none_iff_of_pos, fun _ _ => hyields.done_eq_zero_of_overflow⟩,
    ⟨hstocked.fresh.slots_eq, hstocked.fresh.nodup, length_newSlots _ _ _⟩, ?_, hstocked⟩
  · exact (hbuilds.le (Nat.min_le_right _ _)).proceed hp rfl
      (Call.isBuilding_afterBlocks g' fault)
  · rw [hstocked.pool]
    exact BlockList.length_pushRange _ _ _

def triples : Strategy Nat := .buffers ⟨7, 24, 32, 8⟩ 3 2 (Nat.succ_pos 2) Nat.two_pos

def triplePool : Pool Nat := .fresh triples .headroom 100

def tripleArena : Arena Nat :=
  (Arena.provision (({} : Arena Nat).addPool triplePool) (fun _ _ => true) ⟨0⟩ triples .single 1 {}
    0).1

/-- The pool gets two blocks more, but the nodes of the second one are refused. -/
def tripleGrowth : Arena Nat × Arena.Progress :=
  tripleArena.provision (fun made _ => made ≠ 3) ⟨0⟩ triples .single 2 ⟨some ⟨1⟩, some ⟨0⟩, 2⟩ 0

theorem provision_finishes_whole_blocks_triples :
    Stack.Spans tripleArena.memory ⟨some ⟨1⟩, some ⟨0⟩, 2⟩ [⟨1⟩, ⟨0⟩] ∧
      ∃ fault m' p' g' made',
        tripleGrowth = (tripleArena.put ⟨0⟩ m' p' [], ⟨.afterBlocks g' fault, made'⟩) ∧
        triples.Yields (fun made _ => made ≠ 3) 0 2 1 fault ∧ fault = some (.outOfMemory 2 32) ∧
        g'.fresh.slots m' = [⟨3⟩, ⟨2⟩, ⟨1⟩, ⟨0⟩] ∧ m'.value ⟨3⟩ = #[7, 7, 7] ∧ m'.size = 4 ∧
        p'.blocks.length = 2 := by
  have hout : Stack.Spans tripleArena.memory ⟨some ⟨1⟩, some ⟨0⟩, 2⟩ [⟨1⟩, ⟨0⟩] :=
    ⟨rfl, rfl, rfl, ⟨by decide +kernel, by decide +kernel, trivial⟩, by decide⟩
  obtain ⟨p, hp⟩ : ∃ p, tripleArena.pool? ⟨0⟩ = some p := ⟨_, rfl⟩
  have hstrategy : p.strategy = triples := by
    obtain rfl := Option.some.inj hp
    rfl
  have hblocks : p.blocks.length = 1 := by
    obtain rfl := Option.some.inj hp
    decide +kernel
  have hsize : tripleArena.memory.size = 2 := by decide +kernel
  obtain ⟨done, fault, m', p', g', made', hrun, hyields, -, ⟨hslots, -, -⟩, hlength, hstocked⟩ :=
    provision_finishes_whole_blocks hp (fun made _ => made ≠ 3) 0 .single 2 hout
  rw [Pool.blockSize, hstrategy, hsize] at hslots
  have hadds := hstocked.adds.size
  have hclean := hstocked.clean ⟨3⟩
  rw [Pool.blockSize, hstrategy, hsize] at hadds hclean
  rw [hstrategy] at hrun hyields
  have hrun : tripleGrowth = _ := hrun
  have hmemory : tripleGrowth.1.memory = m' := by rw [hrun]; rfl
  have hfour : tripleGrowth.1.memory.size = 4 := by decide +kernel
  obtain rfl : done = 1 := by
    rw [hmemory] at hfour
    change m'.size = 2 + done * 2 at hadds
    omega
  have hfault : tripleGrowth.2.call.fault? = some (.outOfMemory 2 32) := by decide +kernel
  rw [hrun, Call.fault?_afterBlocks] at hfault
  refine ⟨hout, fault, m', p', g', made', hrun, hyields, hfault, hslots, ?_, hmemory ▸ hfour, ?_⟩
  · exact (hclean (by decide)).value
  · rw [hlength, hblocks]

/-- Buffers so long that no block of them can be addressed. -/
def overlong : Strategy Nat := .buffers ⟨0, 24, 32, 1⟩ ((1 <<< 63) - 1) 4 (by decide) (by decide)

/-- Where no block can be addressed it is an error to provide none, and none is left to finish. -/
theorem not_provided_of_finished :
    ¬ ∀ (a : Arena Nat) (id : PoolId) (p p' : Pool Nat) (allocator : Allocator) (made : Nat)
      (origin : Origin) (blocks : Nat) (out : Stack) (old : List Slot), a.pool? id = some p →
      out.Spans a.memory old →
      (a.provision allocator id p.strategy origin blocks out made).1.pool? id = some p' →
      ((a.provision allocator id p.strategy origin blocks out made).2.call.fault? = none ↔
        p'.blocks.length = p.blocks.length + blocks) := by
  intro h
  have hnone := (h (({} : Arena Nat).addPool (.fresh overlong .headroom 100)) ⟨0⟩
    (.fresh overlong .headroom 100) (.fresh overlong .headroom 100) (fun _ _ => true) 0 .single 0
    {} [] rfl (Stack.spans_empty _) rfl).2 rfl
  revert hnone
  decide +kernel

end SlotPool
