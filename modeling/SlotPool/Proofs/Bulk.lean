import SlotPool.Proofs.Provisions
import SlotPool.Proofs.Underway

/-!
# A call for many slots among the steps of all others

`Call.Bulk` says of a call for many slots what it has in its hands and what its steps have counted.
Each step of the call keeps it, and so does whatever others do in between.
-/

namespace SlotPool

open Memory

variable {ε : Type}

/-! ## What steps of a call have done -/

namespace Stride

def added (s : Stride ε) : List Slot :=
  sideBySide s.memory.size (s.memory'.size - s.memory.size)

/-- The slots that steps add, the newest in front. -/
def newest (strides : List (Stride ε)) : List Slot := (strides.flatMap added).reverse

/-- The free slots that the first of the steps finds. -/
def found : List (Stride ε) → List Slot
  | [] => []
  | s :: _ => s.pool.free.slots s.memory

theorem newest_concat (strides : List (Stride ε)) (s : Stride ε) :
    newest (strides ++ [s]) = s.added.reverse ++ newest strides := by
  simp [newest]

theorem added_of_size {s : Stride ε} (h : s.memory'.size = s.memory.size) : s.added = [] := by
  unfold added
  rw [h, Nat.sub_self]
  rfl

theorem newest_still {s : Stride ε} (h : s.memory'.size = s.memory.size)
    (strides : List (Stride ε)) : newest (strides ++ [s]) = newest strides := by
  rw [newest_concat, added_of_size h]
  rfl

theorem found_concat {strides : List (Stride ε)} (h : strides ≠ []) (s : Stride ε) :
    found (strides ++ [s]) = found strides := by
  cases strides with
  | nil => exact absurd rfl h
  | cons first rest => rfl

end Stride

/-- What is counted of `blocks` new blocks when a call has come to the `stage`. -/
def Measure.booked (blockSize blocks stage : Nat) : Measure → Nat
  | .slots => blocks * blockSize
  | .blocks => blocks
  | .allocated => if 2 ≤ stage then blocks * blockSize else 0
  | .growthEvents => if 3 ≤ stage then min blocks 1 else 0
  | .blocksProvisioned => if 4 ≤ stage then blocks else 0
  | _ => 0

/-- So many blocks were built, and are counted as far as the `stage` says. Nothing else is counted,
and nothing is said of what is free. -/
structure Booked (blockSize blocks stage : Nat) (strides : List (Stride ε)) : Prop where
  length : (Stride.newest strides).length = blocks * blockSize
  gain : ∀ μ : Measure, μ ≠ .available → μ.gain strides = μ.booked blockSize blocks stage

section

variable {blockSize blocks stage : Nat} {strides : List (Stride ε)} {s : Stride ε}

theorem Booked.concat {stage' : Nat} (h : Booked blockSize blocks stage strides)
    (hs : s.memory'.size = s.memory.size)
    (hμ : ∀ μ : Measure, μ ≠ .available → μ.read s.memory' s.pool' +
      μ.booked blockSize blocks stage =
        μ.read s.memory s.pool + μ.booked blockSize blocks stage') :
    Booked blockSize blocks stage' (strides ++ [s]) := by
  constructor
  · rw [Stride.newest_still hs, h.length]
  · intro μ hne
    have := h.gain μ hne
    have := hμ μ hne
    rw [Measure.gain_concat]
    omega

theorem Booked.still (h : Booked blockSize blocks stage strides)
    (hs : s.memory'.size = s.memory.size)
    (hμ : ∀ μ : Measure, μ ≠ .available →
      μ.read s.memory' s.pool' = μ.read s.memory s.pool) :
    Booked blockSize blocks stage (strides ++ [s]) :=
  h.concat hs fun μ hne => by rw [hμ μ hne]

theorem Booked.of_none (hpos : 0 < blockSize) (h : Booked blockSize blocks stage strides)
    (hnil : Stride.newest strides = []) (stage' : Nat) :
    Booked blockSize blocks stage' strides := by
  have hlength := h.length
  rw [hnil, List.length_nil] at hlength
  obtain rfl : blocks = 0 :=
    (Nat.mul_eq_zero.1 hlength.symm).resolve_right (Nat.ne_of_gt hpos)
  refine ⟨h.length, fun μ hne => (h.gain μ hne).trans ?_⟩
  cases μ <;> simp [Measure.booked]

end

/-! ## How far the call has come -/

/-- A call that found too few slots has taken those it found, and has built blocks. -/
structure Short (count blockSize stage : Nat) (strides : List (Stride ε)) (m : Memory ε)
    (taken fresh : Stack) : Prop where
  begun : strides ≠ []
  short : (Stride.found strides).length < count
  taken : taken.slots m = Stride.found strides
  fresh : fresh.slots m = Stride.newest strides
  booked : ∃ blocks, Booked blockSize blocks stage strides

/-- What a call for `count` slots comes to if it does not fail: as many new slots as were lacking,
and those that it found, or as many of them as it was to bring. -/
def Brought (count : Nat) (strides : List (Stride ε)) (m : Memory ε) : Grant → Prop
  | .one _ => False
  | .many st => strides ≠ [] ∧ (st.slots m).length = count ∧
      st.slots m = (Stride.newest strides).take (count - (Stride.found strides).length) ++
        (Stride.found strides).take count

/-- In its last step a call that has failed puts all slots back in front of those that are free. -/
structure Restored (count blockSize : Nat) (strides : List (Stride ε)) : Prop where
  short : (Stride.found strides).length < count
  free : ∃ s ∈ strides.getLast?, s.pool'.free.slots s.memory' =
    Stride.newest strides ++ Stride.found strides ++ s.pool.free.slots s.memory
  booked : ∃ blocks, Booked blockSize blocks 4 strides

namespace Call

def BulkGrowth (count blockSize stage : Nat) (strides : List (Stride ε)) (m : Memory ε)
    (g : Growth) : Prop :=
  ∃ taken, g.origin = .bulk count (count - (Stride.found strides).length) taken ∧
    Short count blockSize stage strides m taken g.fresh

def Bulk (count blockSize : Nat) (strides : List (Stride ε)) (m : Memory ε) : Call → Prop
  | popMany n => n = count ∧ strides = []
  | reserve g => BulkGrowth count blockSize 1 strides m g
  | build g => BulkGrowth count blockSize 1 strides m g
  | countSlots g _ => BulkGrowth count blockSize 1 strides m g ∧ Stride.newest strides ≠ []
  | countGrowth g _ _ => BulkGrowth count blockSize 2 strides m g ∧ Stride.newest strides ≠ []
  | countBlocks g _ _ => BulkGrowth count blockSize 3 strides m g
  | noteGrowth g _ _ => BulkGrowth count blockSize 4 strides m g
  | carve n deficit taken fresh => n = count ∧
      deficit = count - (Stride.found strides).length ∧
        Short count blockSize 4 strides m taken fresh
  | surrender n taken _ => n = count ∧ Brought count strides m (.many taken)
  | noteFailure _ taken fresh _ => Short count blockSize 4 strides m taken fresh
  | restore taken fresh _ => Short count blockSize 4 strides m taken fresh
  | countAcquired n slots => n = count ∧ Brought count strides m slots
  | finished (.acquired slots) => Brought count strides m slots
  | finished (.failed _) => Restored count blockSize strides
  | _ => False

section

variable {count blockSize : Nat} {strides : List (Stride ε)} {m m' : Memory ε} {g : Growth}
  {c : Call}

theorem Bulk.congr (h : c.Bulk count blockSize strides m)
    (hs : ∀ q ∈ c.pieces, q.slots m' = q.slots m) : c.Bulk count blockSize strides m' := by
  have hshort : ∀ {stage taken fresh}, Short count blockSize stage strides m taken fresh →
      (∀ q ∈ [Piece.chain fresh, .chain taken], q.slots m' = q.slots m) →
      Short count blockSize stage strides m' taken fresh := by
    intro stage taken fresh h hs
    have hfresh : fresh.slots m' = fresh.slots m := hs (.chain fresh) (by simp)
    have htaken : taken.slots m' = taken.slots m := hs (.chain taken) (by simp)
    exact ⟨h.begun, h.short, htaken.trans h.taken, hfresh.trans h.fresh, h.booked⟩
  have hgrowth : ∀ {stage g}, BulkGrowth count blockSize stage strides m g →
      (∀ q ∈ g.pieces, q.slots m' = q.slots m) →
      BulkGrowth count blockSize stage strides m' g := by
    rintro stage g ⟨taken, horigin, h⟩ hs
    rw [Growth.pieces, horigin] at hs
    exact ⟨taken, horigin, hshort h hs⟩
  have hbrought : ∀ {slots}, Brought count strides m slots →
      (∀ q ∈ slots.pieces, q.slots m' = q.slots m) → Brought count strides m' slots := by
    intro slots h hs
    cases slots with
    | one s => exact h
    | many st =>
      have hst : st.slots m' = st.slots m := hs (.chain st) (by simp [Grant.pieces])
      simp only [Brought, hst]
      exact h
  cases c with
  | popMany n => exact h
  | reserve g => exact hgrowth h hs
  | build g => exact hgrowth h hs
  | countSlots g fault => exact ⟨hgrowth h.1 hs, h.2⟩
  | countGrowth g fault allocated => exact ⟨hgrowth h.1 hs, h.2⟩
  | countBlocks g fault allocated => exact hgrowth h hs
  | noteGrowth g fault allocated => exact hgrowth h hs
  | carve n deficit taken fresh => exact ⟨h.1, h.2.1, hshort h.2.2 hs⟩
  | surrender n taken surplus =>
    exact ⟨h.1, hbrought h.2 fun q hq => hs q (List.mem_cons_of_mem _ hq)⟩
  | noteFailure n taken fresh error => exact hshort h hs
  | restore taken fresh error => exact hshort h hs
  | countAcquired n slots => exact ⟨h.1, hbrought h.2 hs⟩
  | finished o =>
    cases o with
    | acquired slots => exact hbrought h hs
    | _ => exact h
  | _ => exact h

theorem BulkGrowth.afterGrowth (h : BulkGrowth count blockSize 4 strides m g)
    (fault : Option PoolError) : (afterGrowth g fault).Bulk count blockSize strides m := by
  obtain ⟨taken, horigin, hshort⟩ := h
  unfold Call.afterGrowth
  rw [horigin]
  cases fault with
  | none => exact ⟨rfl, rfl, hshort⟩
  | some error => exact hshort

theorem Continues.bulk (hpos : 0 < blockSize) (hn : Continues g c)
    (hf : g.fresh.Spans m (g.fresh.slots m)) (h : BulkGrowth count blockSize 1 strides m g) :
    c.Bulk count blockSize strides m := by
  obtain ⟨taken, horigin, hshort⟩ := h
  have hnil : g.fresh.isEmpty = true ↔ Stride.newest strides = [] := by
    rw [← hshort.fresh]
    exact hf.isEmpty_iff
  cases hn with
  | reserve granted => exact ⟨taken, horigin, hshort⟩
  | build granted => exact ⟨taken, horigin, hshort⟩
  | countSlots fault hsome hb =>
    refine ⟨⟨taken, horigin, hshort⟩, fun he => ?_⟩
    rw [hnil.2 he] at hsome
    exact absurd hsome (by decide)
  | afterGrowth fault hempty hb =>
    obtain ⟨blocks, hbooked⟩ := hshort.booked
    have hall : Short count blockSize 4 strides m taken g.fresh :=
      { hshort with booked := ⟨blocks, hbooked.of_none hpos (hnil.1 hempty) 4⟩ }
    exact BulkGrowth.afterGrowth ⟨taken, horigin, hall⟩ fault

end

end Call

/-! ## One step -/

section

variable {count blockSize stage stage' : Nat} {strides : List (Stride ε)} {m : Memory ε}
  {s : Stride ε} {taken fresh : Stack}

theorem Short.concat (h : Short count blockSize stage strides m taken fresh)
    (hs : s.memory'.size = s.memory.size)
    (hμ : ∀ blocks, (Stride.newest strides).length = blocks * blockSize →
      ∀ μ : Measure, μ ≠ .available →
        μ.read s.memory' s.pool' + μ.booked blockSize blocks stage =
          μ.read s.memory s.pool + μ.booked blockSize blocks stage') :
    Short count blockSize stage' (strides ++ [s]) m taken fresh := by
  obtain ⟨blocks, hbooked⟩ := h.booked
  constructor
  · simp
  · rw [Stride.found_concat h.begun]
    exact h.short
  · rw [Stride.found_concat h.begun]
    exact h.taken
  · rw [Stride.newest_still hs]
    exact h.fresh
  · exact ⟨blocks, hbooked.concat hs (hμ blocks hbooked.length)⟩

theorem Call.BulkGrowth.concat {g : Growth} (h : BulkGrowth count blockSize stage strides m g)
    (hs : s.memory'.size = s.memory.size)
    (hμ : ∀ blocks, (Stride.newest strides).length = blocks * blockSize →
      ∀ μ : Measure, μ ≠ .available →
        μ.read s.memory' s.pool' + μ.booked blockSize blocks stage =
          μ.read s.memory s.pool + μ.booked blockSize blocks stage') :
    BulkGrowth count blockSize stage' (strides ++ [s]) m g := by
  obtain ⟨taken, horigin, hshort⟩ := h
  refine ⟨taken, ?_, hshort.concat hs hμ⟩
  rw [Stride.found_concat hshort.begun]
  exact horigin

theorem Brought.concat {slots : Grant} (h : Brought count strides m slots)
    (hs : s.memory'.size = s.memory.size) : Brought count (strides ++ [s]) m slots := by
  cases slots with
  | one t => exact h
  | many st =>
    simp only [Brought, Stride.newest_still hs, Stride.found_concat h.1]
    exact ⟨by simp, h.2⟩

end

namespace Call

section

variable {id : PoolId} {granted : Bool} {m m' : Memory ε} {p p' : Pool ε} {c c' : Call}
  {e : Option Event} {frame : List Piece} {count : Nat} {strides : List (Stride ε)}

theorem popMany_bulk (h : (popMany count).step id granted m p = (m', p', e, c'))
    (hfree : p.free.Spans m (p.free.slots m)) :
    c'.Bulk count p.blockSize [⟨m, p, m', p'⟩] m' := by
  by_cases hcount : count ≤ p.free.length
  · obtain ⟨m₁, st, rest, hsplit, hst, -, hr⟩ := Stack.split_spec hfree count
    simp only [step, hcount, if_true, hsplit] at h
    obtain ⟨rfl, rfl, -, rfl⟩ := h
    have hsize := size_of_unlinked hr.unlinked
    rw [hfree.length] at hcount
    refine ⟨rfl, by simp, ?_, ?_⟩
    · rw [hst.slots_eq, List.length_take, Nat.min_eq_left hcount]
    · rw [hst.slots_eq, Stride.found, Nat.sub_eq_zero_of_le hcount]
      rfl
  · obtain ⟨rfl, rfl, blocks, -, hnext⟩ := popMany_short hcount h
    rw [hfree.length] at hcount hnext
    refine hnext.bulk p.strategy.blockSize_pos ?_ ⟨p.free, rfl, ?_⟩
    · exact Piece.sound_of_spans (Stack.spans_empty m')
    · refine ⟨by simp, Nat.lt_of_not_le hcount, rfl, ?_, 0, ?_, fun μ hne => ?_⟩
      · rw [Stride.newest, List.flatMap_singleton, Stride.added_of_size rfl]
        exact (Stack.spans_empty m').slots_eq
      · rw [Stride.newest, List.flatMap_singleton, Stride.added_of_size rfl, Nat.zero_mul]
        rfl
      · cases μ <;> simp_all [Measure.gain, Measure.read, Measure.booked]

theorem build_bulk {g : Growth} (h : (build g).step id granted m p = (m', p', e, c'))
    (hf : g.fresh.Spans m (g.fresh.slots m))
    (ht : ∀ st, .chain st ∈ g.origin.pieces → st.Spans m (st.slots m))
    (hb : BulkGrowth count p.blockSize 1 strides m g) :
    c'.Bulk count p.blockSize (strides ++ [⟨m, p, m', p'⟩]) m' := by
  obtain ⟨taken, horigin, hshort⟩ := hb
  obtain ⟨blocks, hbooked⟩ := hshort.booked
  have hsize : m'.size = m.size + p.blockSize := step_size h
  simp only [step, Prod.mk.injEq] at h
  obtain ⟨rfl, rfl, -, rfl⟩ := h
  have hfresh := buildBlock_spans id p.strategy hf
  have htaken := spans_buildBlock id p.strategy g (ht taken (by simp [horigin, Origin.pieces]))
  have hnewest : Stride.newest (strides ++ [⟨m, p, (buildBlock id p.strategy m g).1, { p with
      blocks := p.blocks.push (buildBlock id p.strategy m g).1.newestArray }⟩]) =
      (sideBySide m.size p.strategy.blockSize).reverse ++ Stride.newest strides := by
    rw [Stride.newest_concat, Stride.added]
    simp only [hsize, Nat.add_sub_cancel_left]
    rfl
  refine (continues_nextBlock _).bulk p.strategy.blockSize_pos
    (Piece.sound_of_spans hfresh) ⟨taken, ?_, ?_⟩
  · rw [Stride.found_concat hshort.begun]
    exact horigin
  · constructor
    · simp
    · rw [Stride.found_concat hshort.begun]
      exact hshort.short
    · rw [Stride.found_concat hshort.begun, htaken.slots_eq]
      exact hshort.taken
    · rw [hnewest, hfresh.slots_eq, hshort.fresh]
    · refine ⟨blocks + 1, ?_, fun μ hne => ?_⟩
      · rw [hnewest, List.length_append, hbooked.length, Nat.succ_mul]
        simp [sideBySide, Pool.blockSize, Nat.add_comm]
      · rw [Measure.gain_concat, hbooked.gain μ hne]
        cases μ with
        | available => exact absurd rfl hne
        | slots =>
          simp only [Measure.read, Measure.booked, hsize, Nat.succ_mul]
          omega
        | blocks =>
          simp only [Measure.read, Measure.booked, BlockList.length_push]
          omega
        | _ => simp [Measure.read, Measure.booked]

theorem carve_bulk {n deficit : Nat} {taken fresh : Stack}
    (h : (carve n deficit taken fresh).step id granted m p = (m', p', e, c'))
    (hf : fresh.Spans m (fresh.slots m)) (ht : taken.Spans m (taken.slots m))
    (hd : (fresh.slots m).Disjoint (taken.slots m))
    (hfits : taken.length + deficit = n ∧ deficit ≤ fresh.length)
    (hb : (carve n deficit taken fresh).Bulk count p.blockSize strides m) :
    c'.Bulk count p.blockSize (strides ++ [⟨m, p, m', p'⟩]) m' := by
  obtain ⟨rfl, rfl, hshort⟩ := hb
  obtain ⟨m₁, needed, surplus, hsplit, hneeded, -, hr₁⟩ :=
    Stack.split_spec hf (n - (Stride.found strides).length)
  have htaken := ht.frame hr₁ (List.disjoint_comm.1 hd)
  have hr₂ := Stack.append_relinks taken hneeded
  have hst := Stack.append_spans htaken hneeded fun s hs => hd (List.mem_of_mem_take hs)
  have hsize := (size_of_unlinked hr₂.unlinked).trans (size_of_unlinked hr₁.unlinked)
  simp only [step, hsplit, Prod.mk.injEq] at h
  obtain ⟨rfl, rfl, -, rfl⟩ := h
  have hbrought : Brought n (strides ++ [⟨m, p, (taken.append m₁ needed).1, p⟩])
      (taken.append m₁ needed).1 (.many (taken.append m₁ needed).2) := by
    refine ⟨by simp, ?_, ?_⟩
    · rw [hst.slots_eq, List.length_append, List.length_take, ← hf.length, ← ht.length]
      omega
    · rw [hst.slots_eq, hshort.fresh, hshort.taken, Stride.newest_still hsize,
        Stride.found_concat hshort.begun,
        List.take_of_length_le (Nat.le_of_lt hshort.short)]
  split
  · exact ⟨rfl, hbrought⟩
  · exact ⟨rfl, hbrought⟩

theorem restore_bulk {taken fresh : Stack} {error : PoolError}
    (h : (restore taken fresh error).step id granted m p = (m', p', e, c'))
    (hfree : p.free.Spans m (p.free.slots m)) (hf : fresh.Spans m (fresh.slots m))
    (ht : taken.Spans m (taken.slots m)) (hd : (fresh.slots m).Disjoint (taken.slots m))
    (hd' : (p.free.slots m).Disjoint (fresh.slots m ++ taken.slots m))
    (hb : Short count p.blockSize 4 strides m taken fresh) :
    c'.Bulk count p.blockSize (strides ++ [⟨m, p, m', p'⟩]) m' := by
  have hfresh' := (List.disjoint_append_right.1 hd').1
  have htaken' := (List.disjoint_append_right.1 hd').2
  have hr₁ := Stack.append_relinks p.free ht
  have hback := Stack.append_spans hfree ht (List.disjoint_comm.1 htaken')
  have hfresh := hf.frame hr₁ hd
  have hr₂ := Stack.append_relinks (p.free.append m taken).2 hfresh
  have hboth := Stack.append_spans hback hfresh
    (List.disjoint_append_right.2 ⟨hd, List.disjoint_comm.1 hfresh'⟩)
  have hsize := (size_of_unlinked hr₂.unlinked).trans (size_of_unlinked hr₁.unlinked)
  obtain ⟨rfl, rfl, -, rfl⟩ := h
  obtain ⟨blocks, hbooked⟩ := hb.booked
  refine ⟨?_, ⟨_, List.getLast?_concat, ?_⟩, blocks, hbooked.still hsize fun μ hne => ?_⟩
  · rw [Stride.found_concat hb.begun]
    exact hb.short
  · rw [Stride.newest_still hsize, Stride.found_concat hb.begun, ← hb.taken, ← hb.fresh,
      List.append_assoc]
    exact hboth.slots_eq
  · cases μ with
    | available => exact absurd rfl hne
    | slots => exact hsize
    | _ => rfl

theorem Bulk.step (h : c.step id granted m p = (m', p', e, c'))
    (hp : Partition m ((.chain p.free :: c.pieces) ++ frame)) (hfits : c.Fits p.blockSize)
    (hc : c.outcome? = none) (hb : c.Bulk count p.blockSize strides m) :
    c'.Bulk count p.blockSize (strides ++ [⟨m, p, m', p'⟩]) m' := by
  have hpos : 0 < p.blockSize := p.strategy.blockSize_pos
  have hsound : ∀ st, .chain st ∈ .chain p.free :: c.pieces → st.Spans m (st.slots m) :=
    fun st hst => hp.sound (.chain st) (List.mem_append_left _ hst)
  have hnodup := hp.nodup
  rw [slotsOf_append] at hnodup
  have hapart := (List.nodup_append'.1 hnodup).1
  have hfree := hsound p.free List.mem_cons_self
  cases c with
  | popMany n =>
    obtain ⟨rfl, rfl⟩ := hb
    exact popMany_bulk h hfree
  | reserve g =>
    have hf := hsound g.fresh (by simp [pieces, Growth.pieces])
    obtain ⟨rfl, rfl, -, rfl⟩ := h
    have hgrowth := BulkGrowth.concat (s := ⟨m, p, m, p⟩) hb rfl fun blocks _ μ _ => rfl
    exact (continues_afterReservation p.strategy g granted).bulk hpos hf hgrowth
  | build g =>
    have hf := hsound g.fresh (by simp [pieces, Growth.pieces])
    exact build_bulk h hf (fun st hst => hsound st (by simp [pieces, Growth.pieces, hst])) hb
  | countSlots g fault =>
    have hf := hsound g.fresh (by simp [pieces, Growth.pieces])
    obtain ⟨hgrowth, hsome⟩ := hb
    have hlength := hf.length
    obtain ⟨taken, horigin, hshort⟩ := hgrowth
    rw [hshort.fresh] at hlength
    obtain ⟨rfl, rfl, -, rfl⟩ := h
    refine ⟨BulkGrowth.concat ⟨taken, horigin, hshort⟩ rfl fun blocks hblocks μ hne => ?_, ?_⟩
    · cases μ <;> simp_all [Measure.read, Measure.booked]
    · rwa [Stride.newest_still rfl]
  | countGrowth g fault allocated =>
    obtain ⟨hgrowth, hsome⟩ := hb
    obtain ⟨rfl, rfl, -, rfl⟩ := h
    refine hgrowth.concat rfl fun blocks hblocks μ hne => ?_
    have hone : min blocks 1 = 1 := by
      apply Nat.min_eq_right
      apply Nat.pos_of_ne_zero
      rintro rfl
      exact hsome (List.eq_nil_of_length_eq_zero (hblocks.trans (Nat.zero_mul _)))
    cases μ <;> simp [Measure.read, Measure.booked, hone, Pool.available]
  | countBlocks g fault allocated =>
    have hf := hsound g.fresh (by simp [pieces, Growth.pieces])
    have hlength := hf.length
    obtain ⟨taken, horigin, hshort⟩ := hb
    rw [hshort.fresh] at hlength
    obtain ⟨rfl, rfl, -, rfl⟩ := h
    refine BulkGrowth.concat ⟨taken, horigin, hshort⟩ rfl fun blocks hblocks μ hne => ?_
    have hquotient : g.fresh.length / p.blockSize = blocks := by
      rw [hlength, hblocks, Nat.mul_div_cancel _ hpos]
    cases μ <;> simp [Measure.read, Measure.booked, hquotient, Pool.available]
  | noteGrowth g fault allocated =>
    obtain ⟨rfl, rfl, -, rfl⟩ := h
    have hgrowth := BulkGrowth.concat (s := ⟨m, p, m, p⟩) hb rfl fun blocks _ μ _ => rfl
    exact hgrowth.afterGrowth fault
  | carve n deficit taken fresh =>
    have hd : (fresh.slots m).Disjoint (taken.slots m) := by
      simp only [pieces, slotsOf_cons, slotsOf_nil, Piece.slots_chain, List.append_nil] at hapart
      exact (List.nodup_append'.1 (List.nodup_append'.1 hapart).2.1).2.2
    exact carve_bulk h (hsound fresh (by simp [pieces])) (hsound taken (by simp [pieces])) hd
      hfits hb
  | surrender n taken surplus =>
    obtain ⟨rfl, hbrought⟩ := hb
    obtain ⟨rfl, rfl, -, rfl⟩ := h
    have hsame := (Shifts.append m p.free surplus (.chain taken :: frame) hp).2
    have htaken : taken.slots (p.free.append m surplus).1 = taken.slots m :=
      hsame (.chain taken) List.mem_cons_self
    have hsize := size_of_unlinked (Stack.unlinked_append m p.free surplus)
    have hnext := hbrought.concat (s := ⟨m, p, (p.free.append m surplus).1,
      { p with free := (p.free.append m surplus).2 }⟩) hsize
    simp only [Brought] at hnext
    rw [← htaken] at hnext
    exact ⟨rfl, hnext⟩
  | noteFailure n taken fresh error =>
    obtain ⟨rfl, rfl, -, rfl⟩ := h
    exact Short.concat (s := ⟨m, p, m, p⟩) hb rfl fun blocks _ μ _ => rfl
  | restore taken fresh error =>
    simp only [pieces, slotsOf_cons, slotsOf_nil, Piece.slots_chain, List.append_nil] at hapart
    have hd := (List.nodup_append'.1 (List.nodup_append'.1 hapart).2.1).2.2
    exact restore_bulk h hfree (hsound fresh (by simp [pieces])) (hsound taken (by simp [pieces]))
      hd (List.nodup_append'.1 hapart).2.2 hb
  | countAcquired n slots =>
    obtain ⟨rfl, hbrought⟩ := hb
    obtain ⟨rfl, rfl, -, rfl⟩ := h
    exact hbrought.concat rfl
  | finished o => simp [outcome?] at hc
  | _ => exact hb.elim

end

end Call

/-! ## A whole call -/

namespace World.Underway

variable {id : PoolId} {count : Nat} {strides : List (Stride ε)} {w : World ε} {held : List Held}
  {c : Call}

theorem bulk (h : Underway id (.popMany count) strides w held c) {p : Pool ε}
    (hp : w.arena.pool? id = some p) : c.Bulk count p.blockSize strides w.memory := by
  induction h generalizing p with
  | start h hc => exact ⟨rfl, rfl⟩
  | @own strides a a' rest losses held c c' q q' granted h hc hq hs hq' ih =>
    obtain rfl : q' = p := Option.some.inj (hq'.symm.trans hp)
    obtain ⟨q₁, e, hstep, hpools⟩ := Arena.step_eq hq hs
    obtain rfl : q₁ = q' := by simpa [Arena.pool?_set hq hpools] using hq'
    obtain ⟨others, hfree, -⟩ := Arena.free_perm hq
    obtain ⟨frame, hpart⟩ := h.has.exists_call_partition
    rw [Pool.blockSize, Call.step_strategy id granted hstep]
    exact (ih hq).step hstep (Arena.local_partition hfree hpart) (h.has.fits hq) hc
  | @others strides w w' held c h hs ih =>
    obtain ⟨hsame, hpieces⟩ := h.others_keep hs
    obtain ⟨q, hq⟩ := h.has.exists_pool
    obtain ⟨q', hq', hstrategy⟩ := hsame id q hq
    obtain rfl : q' = p := Option.some.inj (hq'.symm.trans hp)
    rw [Pool.blockSize, hstrategy]
    exact (ih hq).congr hpieces
  | gives x taker h hh hc ih => exact ih hp
  | takes x giver h hc hh ih => exact ih hp

end World.Underway

end SlotPool
