import SlotPool.Proofs.Ownership

/-!
# What calls have still to count

A pool counts slots and blocks after they have changed hands, in one step each. `Call.dues` is what
a call has still to add to the counters, and `Call.outside` the slots that the pool counts as
acquired while a call has them. With that, every step of a call keeps the books of its pool.
-/

namespace SlotPool

open Memory

variable {ε : Type}

/-! ## Slots by owner -/

namespace Memory

def owned (m : Memory ε) (id : PoolId) (l : List Slot) : Nat :=
  l.countP fun s => m.owner? s = some id

@[simp]
theorem owned_nil (m : Memory ε) (id : PoolId) : m.owned id [] = 0 := rfl

@[simp]
theorem owned_append (m : Memory ε) (id : PoolId) (l k : List Slot) :
    m.owned id (l ++ k) = m.owned id l + m.owned id k :=
  List.countP_append

theorem owned_perm (m : Memory ε) (id : PoolId) {l k : List Slot} (h : l.Perm k) :
    m.owned id l = m.owned id k :=
  h.countP_eq _

theorem owned_congr {m m' : Memory ε} (id : PoolId) {l : List Slot}
    (h : ∀ s ∈ l, m'.owner? s = m.owner? s) : m'.owned id l = m.owned id l :=
  List.countP_congr fun s hs => by simp [h s hs]

theorem owned_of_all {m : Memory ε} {id : PoolId} {l : List Slot}
    (h : ∀ s ∈ l, m.owner? s = some id) (id' : PoolId) :
    m.owned id' l = if id' = id then l.length else 0 := by
  split
  · rename_i he
    exact List.countP_eq_length.2 fun s hs => by simp [h s hs, he]
  · rename_i hne
    exact List.countP_eq_zero.2 fun s hs => by simp [h s hs, Ne.symm hne]

end Memory

/-! ## Lengths of stacks -/

namespace Stack

theorem length_pushRange (m : Memory ε) (st : Stack) (first count : Nat) :
    (st.pushRange m first count).2.length = st.length + count := by
  induction count generalizing m st first with
  | zero => rfl
  | succ count ih =>
    rw [pushRange]
    simp only [ih, push]
    omega

theorem Spans.length_append {m : Memory ε} (st : Stack) {other : Stack} {k : List Slot}
    (h : other.Spans m k) : (st.append m other).2.length = st.length + other.length := by
  rcases k.eq_nil_or_concat' with rfl | ⟨k, s, rfl⟩
  · rw [append_of_nil st other h, h.length, List.length_nil, Nat.add_zero]
  · rw [append_of_last st other h]

theorem Spans.length_split {m m' : Memory ε} {st front rest : Stack} {l : List Slot} {n : Nat}
    (h : st.Spans m l) (hs : st.split m n = (m', .ok (front, rest))) (hn : n ≤ st.length) :
    front.length = n := by
  obtain ⟨m₁, front₁, rest₁, heq, hfront, -⟩ := split_spec h n
  obtain ⟨rfl, rfl, rfl⟩ : m₁ = m' ∧ front₁ = front ∧ rest₁ = rest := by
    simpa using heq.symm.trans hs
  rw [hfront.length, List.length_take, ← h.length]
  omega

theorem Spans.length_of_isEmpty {m : Memory ε} {st : Stack} {l : List Slot} (h : st.Spans m l)
    (he : st.isEmpty = true) : st.length = 0 := by
  rw [h.length, h.isEmpty_iff.1 he, List.length_nil]

end Stack

theorem BlockList.length_push {β : Type} (l : BlockList β) (block : β) :
    (l.push block).length = l.length + 1 := by
  simp [push, proceed, Adding.step]

/-! ## Sizes of what calls have -/

def Origin.deficit : Origin → Nat
  | single => 0
  | bulk _ deficit _ => deficit

/-- What was taken and what is lacking are as many slots as were asked for. -/
def Origin.Fits : Origin → Prop
  | single => True
  | bulk count deficit taken => taken.length + deficit = count

def Grant.length : Grant → Nat
  | one _ => 1
  | many st => st.length

theorem Grant.length_slots {m : Memory ε} {slots : Grant} (h : ∀ q ∈ slots.pieces, q.Sound m) :
    (slotsOf m slots.pieces).length = slots.length := by
  cases slots with
  | one s => rfl
  | many st =>
    have hsound : st.Spans m (st.slots m) := h (.chain st) (by simp [pieces])
    simp [pieces, length, hsound.length]

namespace Growth

/-- New slots come in whole blocks, and there are as many as are lacking when those blocks are made
that are still to be. -/
structure Fits (blockSize blocks : Nat) (g : Growth) : Prop where
  dvd : blockSize ∣ g.fresh.length
  origin : g.origin.Fits
  covers : g.origin.deficit ≤ g.fresh.length + blocks * blockSize

/-- As `Fits` for a growth that has ended, which may be short of slots only by a fault. -/
structure Ends (blockSize : Nat) (fault : Option PoolError) (g : Growth) : Prop where
  dvd : blockSize ∣ g.fresh.length
  origin : g.origin.Fits
  covers : fault = none → g.origin.deficit ≤ g.fresh.length

theorem Fits.ends {blockSize : Nat} {fault : Option PoolError} {g : Growth}
    (h : g.Fits blockSize g.blocks) (hb : fault = none → g.blocks = 0) : g.Ends blockSize fault :=
  ⟨h.dvd, h.origin, fun hf => by simpa [hb hf] using h.covers⟩

end Growth

namespace Call

/-- The stacks of a call are as long as its counts say. -/
def Fits (blockSize : Nat) : Call → Prop
  | reserve g => g.Fits blockSize g.blocks
  | build g => g.Fits blockSize g.blocks
  | countSlots g fault => g.Ends blockSize fault
  | countGrowth g fault _ => g.Ends blockSize fault
  | countBlocks g fault _ => g.Ends blockSize fault
  | noteGrowth g fault _ => g.Ends blockSize fault
  | carve count deficit taken fresh => taken.length + deficit = count ∧ deficit ≤ fresh.length
  | surrender count taken _ => taken.length = count
  | countAcquired count slots => slots.length = count
  | _ => True

theorem fits_afterGrowth {blockSize : Nat} {g : Growth} {fault : Option PoolError}
    (h : g.Ends blockSize fault) : (afterGrowth g fault).Fits blockSize := by
  obtain ⟨origin, blocks, granted, fresh⟩ := g
  cases origin with
  | single => trivial
  | bulk count deficit taken =>
    cases fault with
    | some error => trivial
    | none => exact ⟨h.origin, h.covers rfl⟩

theorem Continues.fits {blockSize : Nat} {g : Growth} {c : Call} (h : Continues g c)
    (hg : g.Fits blockSize g.blocks) : c.Fits blockSize := by
  cases h with
  | reserve granted => exact ⟨hg.dvd, hg.origin, hg.covers⟩
  | build granted => exact ⟨hg.dvd, hg.origin, hg.covers⟩
  | countSlots fault hf hb => exact hg.ends hb
  | afterGrowth fault hf hb => exact fits_afterGrowth (hg.ends hb)

theorem length_buildBlock (id : PoolId) (strategy : Strategy ε) (m : Memory ε) (g : Growth) :
    (buildBlock id strategy m g).2.fresh.length = g.fresh.length + strategy.blockSize :=
  Stack.length_pushRange _ g.fresh m.size strategy.blockSize

theorem buildBlock_fits (id : PoolId) (strategy : Strategy ε) (m : Memory ε) {g : Growth}
    (hg : g.Fits strategy.blockSize g.blocks) :
    (buildBlock id strategy m g).2.Fits strategy.blockSize (g.blocks - 1) := by
  have hlength := length_buildBlock id strategy m g
  refine ⟨?_, hg.origin, ?_⟩
  · rw [hlength]
    exact Nat.dvd_add hg.dvd (Nat.dvd_refl _)
  · rw [hlength]
    have hcovers : g.origin.deficit ≤ _ := hg.covers
    show g.origin.deficit ≤ _
    cases hb : g.blocks with
    | zero =>
      rw [hb, Nat.zero_mul] at hcovers
      omega
    | succ blocks =>
      rw [hb, Nat.succ_mul] at hcovers
      rw [Nat.add_sub_cancel]
      omega

section

variable {id : PoolId} {granted : Bool} {m m' : Memory ε} {p p' : Pool ε} {c c' : Call}
  {e : Option Event} {frame : List Piece}

theorem step_fits (h : c.step id granted m p = (m', p', e, c'))
    (hp : Partition m ((.chain p.free :: c.pieces) ++ frame)) (hc : c.Fits p.blockSize) :
    c'.Fits p.blockSize := by
  cases c with
  | popOne =>
    simp only [step] at h
    split at h
    · obtain ⟨-, -, -, rfl⟩ := h
      trivial
    · obtain ⟨-, -, -, rfl⟩ := h
      exact rfl
  | claimGrowth =>
    simp only [step] at h
    split at h
    · obtain ⟨-, -, -, rfl⟩ := h
      trivial
    · simp only [Prod.mk.injEq] at h
      obtain ⟨-, -, -, rfl⟩ := h
      exact (continues_startGrowth p.strategy .single 1).fits
        ⟨Nat.dvd_zero _, trivial, Nat.zero_le _⟩
  | popMany count =>
    by_cases hcount : count ≤ p.free.length
    · have hfree : p.free.Spans m (p.free.slots m) := hp.sound (.chain p.free) (by simp)
      obtain ⟨m₁, front, rest, hs⟩ := Shifts.split_ok hp p.free (by simp) count
      simp only [step, hcount, hs, if_true] at h
      obtain ⟨-, -, -, rfl⟩ := h
      exact hfree.length_split hs hcount
    · obtain ⟨-, -, blocks, hblocks, hnext⟩ := popMany_short hcount h
      refine hnext.fits ⟨Nat.dvd_zero _, ?_, ?_⟩
      · simp only [Origin.Fits]
        omega
      · exact Nat.le_trans hblocks (Nat.le_add_left _ _)
  | reserve g =>
    obtain ⟨-, -, -, rfl⟩ := h
    exact (continues_afterReservation p.strategy g granted).fits hc
  | build g =>
    simp only [step, Prod.mk.injEq] at h
    obtain ⟨-, -, -, rfl⟩ := h
    exact (continues_nextBlock _).fits (buildBlock_fits id p.strategy m hc)
  | countSlots g fault =>
    obtain ⟨-, -, -, rfl⟩ := h
    exact hc
  | countGrowth g fault allocated =>
    obtain ⟨-, -, -, rfl⟩ := h
    exact hc
  | countBlocks g fault allocated =>
    obtain ⟨-, -, -, rfl⟩ := h
    exact hc
  | noteGrowth g fault allocated =>
    obtain ⟨-, -, -, rfl⟩ := h
    exact fits_afterGrowth hc
  | carve count deficit taken fresh =>
    obtain ⟨hcount, hdeficit⟩ := hc
    have hfresh : fresh.Spans m (fresh.slots m) := hp.sound (.chain fresh) (by simp [pieces])
    obtain ⟨m₁, needed, surplus, hs, hneeded, -⟩ := Stack.split_spec hfresh deficit
    have hlength := hfresh.length_split hs hdeficit
    simp only [step, hs] at h
    obtain ⟨-, -, -, rfl⟩ := h
    have htaken := hneeded.length_append taken
    split <;> simp only [Fits, Grant.length] <;> omega
  | surrender count taken surplus =>
    obtain ⟨-, -, -, rfl⟩ := h
    exact hc
  | unclaim fault =>
    obtain ⟨-, -, -, rfl⟩ := h
    cases fault <;> trivial
  | cleanOne s =>
    obtain ⟨-, -, hc'⟩ := cleanOne_step h
    obtain rfl | ⟨v, rfl⟩ := hc'.eq_or_broken <;> trivial
  | cleanMany st =>
    obtain ⟨-, hst⟩ := cleanMany_step h
    split at hst
    · rw [hst.2]
      trivial
    · obtain rfl | ⟨v, rfl⟩ := hst.2.eq_or_broken <;> trivial
  | observe left seen =>
    cases left <;> obtain ⟨-, -, -, rfl⟩ := h <;> trivial
  | _ =>
    obtain ⟨-, -, -, rfl⟩ := h
    trivial

end

/-! ## Slots still to be counted -/

/-- What a call has still to add to the counters of its pool. -/
structure Dues where
  /-- New slots, for the number of slots ever provided. -/
  unlisted : Nat := 0
  /-- New slots, for the number of blocks provisioned. -/
  unbooked : Nat := 0
  unreturned : Nat := 0

def dues : Call → Dues
  | reserve g => ⟨g.fresh.length, g.fresh.length, 0⟩
  | build g => ⟨g.fresh.length, g.fresh.length, 0⟩
  | countSlots g _ => ⟨g.fresh.length, g.fresh.length, 0⟩
  | countGrowth g _ _ => ⟨0, g.fresh.length, 0⟩
  | countBlocks g _ _ => ⟨0, g.fresh.length, 0⟩
  | countReleased count => ⟨0, 0, count⟩
  | _ => {}

/-- New slots that the next step makes. -/
def made (blockSize : Nat) : Call → Nat
  | build _ => blockSize
  | _ => 0

theorem dues_afterGrowth (g : Growth) (fault : Option PoolError) :
    (afterGrowth g fault).dues = {} := by
  obtain ⟨origin, blocks, granted, fresh⟩ := g
  cases origin <;> cases fault <;> rfl

theorem Continues.dues_eq {g : Growth} {c : Call} (h : Continues g c)
    (hf : g.fresh.isEmpty = true → g.fresh.length = 0) :
    c.dues = ⟨g.fresh.length, g.fresh.length, 0⟩ := by
  cases h with
  | afterGrowth fault he hb => rw [dues_afterGrowth, hf he]
  | _ => rfl

section

variable {id : PoolId} {granted : Bool} {m m' : Memory ε} {p p' : Pool ε} {c c' : Call}
  {e : Option Event} {frame : List Piece}

theorem buildBlock_isEmpty {g : Growth}
    (hp : Partition m ((.chain p.free :: g.pieces) ++ frame))
    (he : (buildBlock id p.strategy m g).2.fresh.isEmpty = true) :
    (buildBlock id p.strategy m g).2.fresh.length = 0 := by
  have hpart : Partition m (g.pieces ++ (.chain p.free :: frame)) :=
    hp.of_perm List.perm_middle.symm
  have hsound := (buildBlock_shifts id p.strategy m g _ hpart).1.sound
    (.chain (buildBlock id p.strategy m g).2.fresh) (by simp [Growth.pieces])
  exact Stack.Spans.length_of_isEmpty hsound he

theorem step_counts (h : c.step id granted m p = (m', p', e, c'))
    (hp : Partition m ((.chain p.free :: c.pieces) ++ frame)) (hc : c.Fits p.blockSize) :
    p'.allocated + c'.dues.unlisted =
        p.allocated + c.dues.unlisted + c.made p.blockSize ∧
      p'.counters.blocksProvisioned * p.blockSize + c'.dues.unbooked =
        p.counters.blocksProvisioned * p.blockSize + c.dues.unbooked + c.made p.blockSize ∧
      p'.blocks.length * p.blockSize = p.blocks.length * p.blockSize + c.made p.blockSize := by
  cases c with
  | popOne =>
    simp only [step] at h
    split at h
    all_goals
      obtain ⟨-, rfl, -, rfl⟩ := h
      exact ⟨rfl, rfl, rfl⟩
  | claimGrowth =>
    simp only [step] at h
    split at h
    · obtain ⟨-, rfl, -, rfl⟩ := h
      exact ⟨rfl, rfl, rfl⟩
    · simp only [Prod.mk.injEq] at h
      obtain ⟨-, rfl, -, rfl⟩ := h
      rw [(continues_startGrowth p.strategy .single 1).dues_eq fun _ => rfl]
      exact ⟨rfl, rfl, rfl⟩
  | popMany count =>
    by_cases hcount : count ≤ p.free.length
    · obtain ⟨m₁, front, rest, hs⟩ := Shifts.split_ok hp p.free (by simp) count
      simp only [step, hcount, hs, if_true] at h
      obtain ⟨-, rfl, -, rfl⟩ := h
      exact ⟨rfl, rfl, rfl⟩
    · obtain ⟨-, rfl, blocks, -, hnext⟩ := popMany_short hcount h
      rw [hnext.dues_eq fun _ => rfl]
      exact ⟨rfl, rfl, rfl⟩
  | reserve g =>
    obtain ⟨-, rfl, -, rfl⟩ := h
    have hfresh : g.fresh.Spans m (g.fresh.slots m) :=
      hp.sound (.chain g.fresh) (by simp [pieces, Growth.pieces])
    rw [(continues_afterReservation p.strategy g granted).dues_eq hfresh.length_of_isEmpty]
    exact ⟨rfl, rfl, rfl⟩
  | build g =>
    simp only [step, Prod.mk.injEq] at h
    obtain ⟨-, rfl, -, rfl⟩ := h
    rw [(continues_nextBlock _).dues_eq (buildBlock_isEmpty hp), length_buildBlock,
      BlockList.length_push, Nat.succ_mul]
    exact ⟨(Nat.add_assoc _ _ _).symm, (Nat.add_assoc _ _ _).symm, rfl⟩
  | countSlots g fault =>
    obtain ⟨-, rfl, -, rfl⟩ := h
    exact ⟨rfl, rfl, rfl⟩
  | countGrowth g fault allocated =>
    obtain ⟨-, rfl, -, rfl⟩ := h
    exact ⟨rfl, rfl, rfl⟩
  | countBlocks g fault allocated =>
    obtain ⟨-, rfl, -, rfl⟩ := h
    refine ⟨rfl, ?_, rfl⟩
    simp only [dues, made]
    rw [Nat.add_mul, Nat.div_mul_cancel hc.dvd]
  | noteGrowth g fault allocated =>
    obtain ⟨-, rfl, -, rfl⟩ := h
    rw [dues_afterGrowth]
    exact ⟨rfl, rfl, rfl⟩
  | carve count deficit taken fresh =>
    obtain ⟨m₁, needed, surplus, hs⟩ :=
      Shifts.split_ok hp fresh (by simp [pieces]) deficit
    simp only [step, hs] at h
    obtain ⟨-, rfl, -, rfl⟩ := h
    split <;> exact ⟨rfl, rfl, rfl⟩
  | unclaim fault =>
    obtain ⟨-, rfl, -, rfl⟩ := h
    cases fault <;> exact ⟨rfl, rfl, rfl⟩
  | cleanOne s =>
    obtain ⟨-, rfl, hc'⟩ := cleanOne_step h
    obtain rfl | ⟨v, rfl⟩ := hc'.eq_or_broken <;> exact ⟨rfl, rfl, rfl⟩
  | cleanMany st =>
    obtain ⟨rfl, hst⟩ := cleanMany_step h
    split at hst
    · rw [hst.2]
      exact ⟨rfl, rfl, rfl⟩
    · obtain rfl | ⟨v, rfl⟩ := hst.2.eq_or_broken <;> exact ⟨rfl, rfl, rfl⟩
  | countReleased count =>
    obtain ⟨-, rfl, -, rfl⟩ := h
    exact ⟨rfl, rfl, rfl⟩
  | observe left seen =>
    cases left <;> obtain ⟨-, rfl, -, rfl⟩ := h <;> exact ⟨rfl, rfl, rfl⟩
  | _ =>
    obtain ⟨-, rfl, -, rfl⟩ := h
    exact ⟨rfl, rfl, rfl⟩

theorem step_slots (h : c.step id granted m p = (m', p', e, c')) :
    m'.slots = m.slots ++ sideBySide m.size (c.made p.blockSize) := by
  have hnone : sideBySide m.size 0 = [] := rfl
  by_cases hc : c.relinksOnly = true
  · have hmade : c.made p.blockSize = 0 := by
      cases c <;> first | rfl | simp [relinksOnly] at hc
    rw [slots_of_unlinked (unlinked_step h hc), hmade, hnone, List.append_nil]
  cases c with
  | build g =>
    obtain ⟨rfl, -⟩ := h
    rw [slots_of_unlinked (Stack.unlinked_pushRange _ _ _ _), slots_addBlock]
    rfl
  | cleanOne s =>
    obtain ⟨rfl, -⟩ := cleanOne_step h
    simp only [Memory.slots, size, cells_cleanAll]
    exact (List.append_nil _).symm
  | cleanMany st =>
    obtain ⟨-, hst⟩ := cleanMany_step h
    split at hst
    · rw [hst.1]
      exact (List.append_nil _).symm
    · simp only [hst.1, Memory.slots, size, cells_cleanAll]
      exact (List.append_nil _).symm
  | _ => simp [relinksOnly] at hc

theorem step_owned (h : c.step id granted m p = (m', p', e, c')) (hl : m.Laid) (id' : PoolId) :
    m'.owned id' m'.slots =
      m.owned id' m.slots + if id' = id then c.made p.blockSize else 0 := by
  have hkeep := step_keeps h hl
  rw [step_slots h, owned_append]
  rw [owned_congr id' fun s hs => hkeep.owner? s ((mem_slots m s).1 hs)]
  congr 1
  have hnew : ∀ s ∈ sideBySide m.size (c.made p.blockSize), m'.owner? s = some id := by
    intro s hs
    have hmem : s ∈ m'.slots := by
      rw [step_slots h]
      exact List.mem_append_right _ hs
    obtain ⟨cell, hcell⟩ := exists_cell? ((mem_slots m' s).1 hmem)
    have hlt : ¬ s.index < m.size := Nat.not_lt.2 ((mem_sideBySide _ _ _).1 hs).1
    rw [owner?, hcell, Option.map_some, (step_new_cell h hcell hlt).1]
  rw [owned_of_all hnew]
  simp [sideBySide]

end

/-! ## Slots that a call has from a client -/

/-- Slots that the pool counts as acquired and not yet as given back. -/
def outside : Call → List Piece
  | cleanOne s => [.single s]
  | pushOne s => [.single s]
  | cleanMany st => [.chain st]
  | appendMany st => [.chain st]
  | finished (.acquired slots) => slots.pieces
  | _ => []

theorem outside_subset (c : Call) : c.outside ⊆ c.pieces := by
  cases c with
  | finished o => cases o <;> simp [outside, pieces]
  | _ => simp [outside, pieces]

theorem outside_afterGrowth (g : Growth) (fault : Option PoolError) :
    (afterGrowth g fault).outside = [] := by
  obtain ⟨origin, blocks, granted, fresh⟩ := g
  cases origin <;> cases fault <;> rfl

theorem Continues.outside_eq {g : Growth} {c : Call} (h : Continues g c) : c.outside = [] := by
  cases h with
  | afterGrowth fault he hb => exact outside_afterGrowth g fault
  | _ => rfl

section

variable {id : PoolId} {granted : Bool} {m m' : Memory ε} {p p' : Pool ε} {c c' : Call}
  {e : Option Event} {frame : List Piece}

/-- The books of a pool on what is outside, before and after a step. -/
def Settles (id : PoolId) (m m' : Memory ε) (p p' : Pool ε) (c c' : Call) (id' : PoolId) : Prop :=
  m.owned id' (slotsOf m c.outside) +
      (if id' = id then
        p'.counters.acquisitions + p.counters.releases + c.dues.unreturned else 0) =
    m'.owned id' (slotsOf m' c'.outside) + m'.owned id' (c.forfeited m' c') +
      (if id' = id then
        p.counters.acquisitions + p'.counters.releases + c'.dues.unreturned else 0)

theorem settles_still (id' : PoolId) (ho : c.outside = []) (ho' : c'.outside = [])
    (hl : c.forfeited m' c' = []) (hd : c.dues.unreturned = 0) (hd' : c'.dues.unreturned = 0)
    (ha : p'.counters.acquisitions = p.counters.acquisitions)
    (hr : p'.counters.releases = p.counters.releases) : Settles id m m' p p' c c' id' := by
  rw [Settles, ho, ho', hl, hd, hd', ha, hr]
  rfl

theorem Continues.settles (id' : PoolId) {g : Growth} (h : Continues g c')
    (hf : g.fresh.isEmpty = true → g.fresh.length = 0) (ho : c.outside = [])
    (hd : c.dues.unreturned = 0) (hp : p'.counters = p.counters) :
    Settles id m m' p p' c c' id' := by
  refine settles_still id' ho h.outside_eq (forfeited_of_alive _ _ _ h.outcome?_eq) hd ?_ ?_ ?_
  · rw [h.dues_eq hf]
  · rw [hp]
  · rw [hp]

theorem AfterCleaning.settles (id' : PoolId) {found : Option Violation} {next : Call}
    (hc' : AfterCleaning found next c') (ho : next.outside = c.pieces) (hc : c.outside = c.pieces)
    (hd : c.dues.unreturned = 0) (hd' : next.dues.unreturned = 0)
    (hl : ∀ v, c.forfeited m' (finished (.broken v)) = slotsOf m' c.pieces)
    (hslots : m'.owned id' (slotsOf m' c.pieces) = m.owned id' (slotsOf m c.pieces))
    (hn : next.outcome? = none) : Settles id m m' p p c c' id' := by
  obtain rfl | ⟨v, rfl⟩ := hc'.eq_or_broken
  · rw [Settles, ho, hc, hd, hd', forfeited_of_alive _ _ _ hn, hslots]
    rfl
  · rw [Settles, hc, hd, hl v, hslots]
    simp [outside, dues]

/-- The pool `id` counts what comes out of it and goes back, and no other pool does. -/
theorem step_settles (h : c.step id granted m p = (m', p', e, c'))
    (hp : Partition m ((.chain p.free :: c.pieces) ++ frame)) (hc : c.Fits p.blockSize)
    (hl : m.Laid) (hv : ∀ s ∈ slotsOf m c.vetted, m.owner? s = some id) (id' : PoolId) :
    Settles id m m' p p' c c' id' := by
  have hkeep := step_keeps h hl
  cases c with
  | popOne =>
    simp only [step] at h
    split at h
    all_goals
      obtain ⟨-, rfl, -, rfl⟩ := h
      exact settles_still id' rfl rfl rfl rfl rfl rfl rfl
  | claimGrowth =>
    simp only [step] at h
    split at h
    · obtain ⟨-, rfl, -, rfl⟩ := h
      exact settles_still id' rfl rfl rfl rfl rfl rfl rfl
    · simp only [Prod.mk.injEq] at h
      obtain ⟨-, rfl, -, rfl⟩ := h
      exact (continues_startGrowth p.strategy .single 1).settles id' (fun _ => rfl) rfl rfl rfl
  | popMany count =>
    by_cases hcount : count ≤ p.free.length
    · obtain ⟨m₁, front, rest, hs⟩ := Shifts.split_ok hp p.free (by simp) count
      simp only [step, hcount, hs, if_true] at h
      obtain ⟨-, rfl, -, rfl⟩ := h
      exact settles_still id' rfl rfl rfl rfl rfl rfl rfl
    · obtain ⟨-, rfl, blocks, -, hnext⟩ := popMany_short hcount h
      exact hnext.settles id' (fun _ => rfl) rfl rfl rfl
  | reserve g =>
    obtain ⟨-, rfl, -, rfl⟩ := h
    have hfresh : g.fresh.Spans m (g.fresh.slots m) :=
      hp.sound (.chain g.fresh) (by simp [pieces, Growth.pieces])
    exact (continues_afterReservation p.strategy g granted).settles id'
      hfresh.length_of_isEmpty rfl rfl rfl
  | build g =>
    simp only [step, Prod.mk.injEq] at h
    obtain ⟨-, rfl, -, rfl⟩ := h
    exact (continues_nextBlock _).settles id' (buildBlock_isEmpty hp) rfl rfl rfl
  | noteGrowth g fault allocated =>
    obtain ⟨-, rfl, -, rfl⟩ := h
    refine settles_still id' rfl (outside_afterGrowth g fault)
      (forfeited_of_alive _ _ _ (outcome?_afterGrowth g fault)) rfl ?_ rfl rfl
    rw [dues_afterGrowth]
  | carve count deficit taken fresh =>
    obtain ⟨m₁, needed, surplus, hs⟩ := Shifts.split_ok hp fresh (by simp [pieces]) deficit
    simp only [step, hs] at h
    obtain ⟨-, rfl, -, rfl⟩ := h
    split <;> exact settles_still id' rfl rfl rfl rfl rfl rfl rfl
  | unclaim fault =>
    obtain ⟨-, rfl, -, rfl⟩ := h
    cases fault <;> exact settles_still id' rfl rfl rfl rfl rfl rfl rfl
  | observe left seen =>
    cases left <;> obtain ⟨-, rfl, -, rfl⟩ := h <;>
      exact settles_still id' rfl rfl rfl rfl rfl rfl rfl
  | countAcquired count slots =>
    obtain ⟨rfl, rfl, -, rfl⟩ := h
    have hlength : (slotsOf m slots.pieces).length = count := by
      have hsound := fun q hq => hp.sound q (List.mem_append_left _ (List.mem_cons_of_mem _ hq))
      exact (Grant.length_slots hsound).trans hc
    have howned : m.owned id' (slotsOf m slots.pieces) =
        if id' = id then (slotsOf m slots.pieces).length else 0 := owned_of_all hv id'
    simp only [Settles, outside, dues, forfeited, howned, hlength, slotsOf_nil, owned_nil]
    split <;> omega
  | cleanOne s =>
    obtain ⟨hm, rfl, hc'⟩ := cleanOne_step h
    refine hc'.settles id' rfl rfl rfl rfl (fun _ => rfl) ?_ rfl
    exact owned_congr id' fun t ht => hkeep.owner? t (hp.lt_size t (by simp_all [pieces]))
  | pushOne s =>
    obtain ⟨-, rfl, -, rfl⟩ := h
    have howned : m.owned id' [s] = if id' = id then [s].length else 0 := owned_of_all hv id'
    simp only [Settles, outside, dues, forfeited, slotsOf_cons, slotsOf_nil, Piece.slots_single,
      List.append_nil, howned, owned_nil, List.length_singleton]
    split <;> omega
  | cleanMany st =>
    obtain ⟨rfl, hst⟩ := cleanMany_step h
    have hsound : st.Spans m (st.slots m) := hp.sound (.chain st) (by simp [pieces])
    split at hst
    · rename_i hempty
      obtain ⟨rfl, rfl⟩ := hst
      simp [Settles, outside, dues, forfeited, hsound.isEmpty_iff.1 hempty]
    · obtain ⟨hm, hc'⟩ := hst
      have hcells : m'.cells = m.cells := by rw [hm, cells_cleanAll]
      have hsame := (Shifts.of_cells hcells [] _ hp).2 (.chain st) (by simp [pieces])
      refine hc'.settles id' rfl rfl rfl rfl (fun _ => rfl) ?_ rfl
      simp only [pieces, slotsOf_cons, slotsOf_nil, List.append_nil, hsame, Piece.slots_chain]
      exact owned_congr id' fun t ht => hkeep.owner? t (hsound.lt_size t ht)
  | appendMany st =>
    obtain ⟨-, rfl, -, rfl⟩ := h
    have hsound : st.Spans m (st.slots m) := hp.sound (.chain st) (by simp [pieces])
    have howned : m.owned id' (st.slots m) = if id' = id then (st.slots m).length else 0 :=
      owned_of_all (fun s hs => hv s (by simpa [vetted, pieces] using hs)) id'
    simp only [Settles, outside, dues, forfeited, slotsOf_cons, slotsOf_nil, Piece.slots_chain,
      List.append_nil, howned, owned_nil, ← hsound.length]
    split <;> omega
  | countReleased count =>
    obtain ⟨-, rfl, -, rfl⟩ := h
    simp only [Settles, outside, dues, forfeited, slotsOf_nil, owned_nil]
    split <;> omega
  | finished o =>
    obtain ⟨rfl, rfl, -, rfl⟩ := h
    cases o <;> simp [Settles, outside, forfeited, slots, pieces, dues]
  | _ =>
    obtain ⟨-, rfl, -, rfl⟩ := h
    exact settles_still id' rfl rfl rfl rfl rfl rfl rfl

end

end Call

end SlotPool
