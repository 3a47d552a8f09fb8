import SlotPool.Proofs.Alone

/-!
# Requests that nothing hinders

A call for slots fails only where a reservation is refused or the pool would have to grow further
than can be addressed. As long as neither happens, `Call.want?` stays what it was: the call comes to
just the slots that it was made for, and counts each of them once, whatever other calls do between
its steps. A call that gives slots back counts each of them once as well.
-/

namespace SlotPool

open Memory

variable {ε : Type}

/-! ## What is wanted -/

/-- What a call for slots is to bring. -/
inductive Want where
  | one
  | many (count : Nat)
deriving DecidableEq, Repr

def Want.count : Want → Nat
  | one => 1
  | many count => count

def Origin.want : Origin → Want
  | single => .one
  | bulk count _ _ => .many count

def Grant.want : Grant → Want
  | one _ => .one
  | many st => .many st.length

theorem Grant.count_want (slots : Grant) : slots.want.count = slots.length := by
  cases slots <;> rfl

namespace Call

/-- What the call brings in the end if nothing hinders it. A call that has failed brings nothing. -/
def want? : Call → Option Want
  | popOne => some .one
  | claimGrowth => some .one
  | countBackoff => some .one
  | noteBackoff => some .one
  | popMany count => some (.many count)
  | reserve g => some g.origin.want
  | build g => some g.origin.want
  | countSlots g none => some g.origin.want
  | countGrowth g none _ => some g.origin.want
  | countBlocks g none _ => some g.origin.want
  | noteGrowth g none _ => some g.origin.want
  | publish _ none => some .one
  | unclaim none => some .one
  | carve count _ _ _ => some (.many count)
  | surrender count _ _ => some (.many count)
  | countAcquired _ slots => some slots.want
  | finished (.acquired slots) => some slots.want
  | _ => none

/-- Slots that the call has still to count as acquired. -/
def toAcquire (c : Call) : Nat :=
  match c.outcome? with
  | some _ => 0
  | none => c.want?.elim 0 Want.count

/-- Slots that the call has still to count as given back. -/
def toRelease : Call → Nat
  | cleanOne _ => 1
  | pushOne _ => 1
  | cleanMany st => st.length
  | appendMany st => st.length
  | countReleased count => count
  | _ => 0

/-- The next step does not raise the flag to grow the pool by a block that cannot be addressed. -/
def OneAddressable (p : Pool ε) : Call → Prop
  | claimGrowth => p.growing = false → p.strategy.addressable 1 = true
  | _ => True

/-- The next step does not ask for many slots at once for which the pool has to grow by blocks that
cannot be addressed. -/
def ManyAddressable (p : Pool ε) : Call → Prop
  | popMany count => p.free.length < count → ∃ blocks,
      p.policy.blocksFor (count - p.free.length) p.blockSize = some blocks ∧
        p.strategy.addressable blocks = true
  | _ => True

theorem toRelease_of_want {want : Want} {c : Call} (hw : c.want? = some want) :
    c.toRelease = 0 := by
  cases c <;> simp [want?, toRelease] at hw ⊢

theorem Returns.toAcquire_eq {n : Nat} {c : Call} (hn : c.Returns n) : c.toAcquire = 0 := by
  cases hn <;> rfl

theorem acquired_one {o : Outcome} (hw : (finished o).want? = some .one) :
    ∃ s, o = .acquired (.one s) := by
  cases o with
  | acquired slots =>
    cases slots with
    | one s => exact ⟨s, rfl⟩
    | many st => simp [want?, Grant.want] at hw
  | _ => simp [want?] at hw

theorem acquired_many {o : Outcome} {count : Nat}
    (hw : (finished o).want? = some (.many count)) :
    ∃ st, o = .acquired (.many st) ∧ st.length = count := by
  cases o with
  | acquired slots =>
    cases slots with
    | one s => simp [want?, Grant.want] at hw
    | many st => exact ⟨st, rfl, by simpa [want?, Grant.want] using hw⟩
  | _ => simp [want?] at hw

/-! ## Steps towards what is wanted -/

@[simp]
theorem want?_afterGrowth (g : Growth) : (afterGrowth g none).want? = some g.origin.want := by
  obtain ⟨origin, blocks, granted, fresh⟩ := g
  cases origin <;> rfl

@[simp]
theorem want?_afterBlocks (g : Growth) : (afterBlocks g none).want? = some g.origin.want := by
  unfold afterBlocks
  split
  · exact want?_afterGrowth g
  · rfl

@[simp]
theorem want?_nextBlock (g : Growth) : (nextBlock g).want? = some g.origin.want := by
  unfold nextBlock
  split
  · exact want?_afterBlocks g
  · rfl

theorem want?_startGrowth {strategy : Strategy ε} {blocks : Nat}
    (h : strategy.addressable blocks = true) (origin : Origin) :
    (startGrowth strategy origin blocks).want? = some origin.want := by
  rw [startGrowth, if_pos h]
  exact want?_nextBlock _

theorem want?_afterReservation {strategy : Strategy ε} {g : Growth} {granted : Bool}
    (h : strategy.reservations[g.granted]?.isSome = true → granted = true) :
    (afterReservation strategy g granted).want? = some g.origin.want := by
  unfold afterReservation
  cases hr : strategy.reservations[g.granted]? with
  | none => rfl
  | some r =>
    obtain rfl := h (by rw [hr]; rfl)
    simp only [if_true]
    split <;> rfl

section

variable {id : PoolId} {granted : Bool} {m m' : Memory ε} {p p' : Pool ε} {c c' : Call}
  {e : Option Event} {want : Want}

/-- How a call goes on in a step, and what it counts in it. -/
structure Serves (want : Want) (p p' : Pool ε) (c c' : Call) : Prop where
  want : c'.want? = some want
  acquired : p'.counters.acquisitions + c'.toAcquire = p.counters.acquisitions + c.toAcquire
  released : p'.counters.releases = p.counters.releases

theorem serves_of_alive (hc : c.outcome? = none) (hw : c.want? = some want)
    (hc' : c'.outcome? = none) (hw' : c'.want? = some want)
    (hp : p'.counters.acquisitions = p.counters.acquisitions ∧
      p'.counters.releases = p.counters.releases) : Serves want p p' c c' := by
  refine ⟨hw', ?_, hp.2⟩
  rw [toAcquire, toAcquire, hc, hc', hw, hw', hp.1]

theorem step_serves (h : c.step id granted m p = (m', p', e, c')) (hc : c.outcome? = none)
    (hw : c.want? = some want)
    (hgranted : (c.reservation? p.strategy).isSome = true → granted = true)
    (hone : c.OneAddressable p) (hmany : c.ManyAddressable p)
    (hfits : c.Fits p.blockSize) (hfits' : c'.Fits p.blockSize)
    (hunbroken : ∀ v, c' ≠ .finished (.broken v)) : Serves want p p' c c' := by
  cases c with
  | popOne =>
    simp only [step] at h
    split at h
    all_goals
      obtain ⟨-, rfl, -, rfl⟩ := h
      exact serves_of_alive rfl hw rfl hw ⟨rfl, rfl⟩
  | claimGrowth =>
    simp only [step] at h
    split at h
    · obtain ⟨-, rfl, -, rfl⟩ := h
      exact serves_of_alive rfl hw rfl hw ⟨rfl, rfl⟩
    · rename_i hlow
      obtain ⟨-, rfl, -, rfl⟩ := h
      have hnext := want?_startGrowth (hone (by simpa using hlow)) .single
      exact serves_of_alive rfl hw (continues_startGrowth _ _ _).outcome?_eq (hnext.trans hw)
        ⟨rfl, rfl⟩
  | popMany count =>
    by_cases hcount : count ≤ p.free.length
    · simp only [step, hcount, if_true] at h
      rcases hs : p.free.split m count with ⟨m₁, v | ⟨st, free⟩⟩
      · simp only [hs] at h
        obtain ⟨-, -, -, rfl⟩ := h
        exact absurd rfl (hunbroken v)
      · simp only [hs] at h
        obtain ⟨-, rfl, -, rfl⟩ := h
        have hlength : st.length = count := hfits'
        refine serves_of_alive rfl hw rfl (Eq.trans ?_ hw) ⟨rfl, rfl⟩
        simp only [want?, Grant.want, hlength]
    · obtain ⟨blocks, hblocks, haddressable⟩ := hmany (Nat.lt_of_not_le hcount)
      simp only [step, hcount, if_false, hblocks] at h
      obtain ⟨-, rfl, -, rfl⟩ := h
      exact serves_of_alive rfl hw (continues_startGrowth _ _ _).outcome?_eq
        ((want?_startGrowth haddressable _).trans hw) ⟨rfl, rfl⟩
  | reserve g =>
    obtain ⟨-, rfl, -, rfl⟩ := h
    exact serves_of_alive rfl hw (continues_afterReservation _ _ _).outcome?_eq
      ((want?_afterReservation hgranted).trans hw) ⟨rfl, rfl⟩
  | build g =>
    simp only [step, Prod.mk.injEq] at h
    obtain ⟨-, rfl, -, rfl⟩ := h
    exact serves_of_alive rfl hw (continues_nextBlock _).outcome?_eq
      ((want?_nextBlock _).trans hw) ⟨rfl, rfl⟩
  | noteGrowth g fault allocated =>
    obtain ⟨-, rfl, -, rfl⟩ := h
    cases fault with
    | none =>
      exact serves_of_alive rfl hw (outcome?_afterGrowth g none) ((want?_afterGrowth g).trans hw)
        ⟨rfl, rfl⟩
    | some error => simp [want?] at hw
  | carve count deficit taken fresh =>
    simp only [step] at h
    rcases hs : fresh.split m deficit with ⟨m₁, v | ⟨needed, surplus⟩⟩
    · simp only [hs] at h
      obtain ⟨-, -, -, rfl⟩ := h
      exact absurd rfl (hunbroken v)
    · simp only [hs, Prod.mk.injEq] at h
      obtain ⟨-, rfl, -, hnext⟩ := h
      split at hnext <;> subst hnext
      · have hlength : (taken.append m₁ needed).2.length = count := hfits'
        refine serves_of_alive rfl hw rfl (Eq.trans ?_ hw) ⟨rfl, rfl⟩
        simp only [want?, Grant.want, hlength]
      · exact serves_of_alive rfl hw rfl hw ⟨rfl, rfl⟩
  | surrender count taken surplus =>
    obtain ⟨-, rfl, -, rfl⟩ := h
    have hlength : taken.length = count := hfits
    refine serves_of_alive rfl hw rfl (Eq.trans ?_ hw) ⟨rfl, rfl⟩
    simp only [want?, Grant.want, hlength]
  | countAcquired count slots =>
    obtain ⟨-, rfl, -, rfl⟩ := h
    have hlength : slots.length = count := hfits
    refine ⟨hw, ?_, rfl⟩
    simp only [toAcquire, outcome?, want?, Option.elim_some, Grant.count_want, hlength]
    rfl
  | countSlots g fault | countGrowth g fault _ | countBlocks g fault _ | publish g fault
  | unclaim fault =>
    obtain ⟨-, rfl, -, rfl⟩ := h
    cases fault with
    | none => exact serves_of_alive rfl hw rfl hw ⟨rfl, rfl⟩
    | some error => simp [want?] at hw
  | countBackoff | noteBackoff =>
    obtain ⟨-, rfl, -, rfl⟩ := h
    exact serves_of_alive rfl hw rfl hw ⟨rfl, rfl⟩
  | finished o => simp [outcome?] at hc
  | _ => simp [want?] at hw

/-! ## Giving back -/

theorem Returns.step_counts {n : Nat} (hn : c.Returns n) (hc : c.outcome? = none)
    (h : c.step id granted m p = (m', p', e, c')) (hsound : ∀ q ∈ c.pieces, q.Sound m)
    (hunbroken : ∀ v, c' ≠ .finished (.broken v)) :
    (∃ n', c'.Returns n') ∧ p'.counters.acquisitions = p.counters.acquisitions ∧
      p'.counters.releases + c'.toRelease = p.counters.releases + c.toRelease := by
  refine ⟨?_, ?_⟩
  · obtain ⟨n', -, hn'⟩ := (hn.step hc h).resolve_right fun ⟨v, hv⟩ => hunbroken v hv
    exact ⟨n', hn'⟩
  cases hn with
  | cleanOne s =>
    obtain ⟨-, rfl, hc'⟩ := cleanOne_step h
    obtain rfl := hc'.eq_or_broken.resolve_right fun ⟨v, hv⟩ => hunbroken v hv
    exact ⟨rfl, rfl⟩
  | cleanMany st =>
    obtain ⟨rfl, hst⟩ := cleanMany_step h
    split at hst
    · rename_i hempty
      obtain ⟨-, rfl⟩ := hst
      have hspans : st.Spans m (st.slots m) := hsound (.chain st) (by simp [pieces])
      exact ⟨rfl, by simp [toRelease, hspans.length_of_isEmpty hempty]⟩
    · obtain rfl := hst.2.eq_or_broken.resolve_right fun ⟨v, hv⟩ => hunbroken v hv
      exact ⟨rfl, rfl⟩
  | pushOne s =>
    obtain ⟨-, rfl, -, rfl⟩ := h
    exact ⟨rfl, rfl⟩
  | appendMany st =>
    obtain ⟨-, rfl, -, rfl⟩ := h
    exact ⟨rfl, rfl⟩
  | countReleased count =>
    obtain ⟨-, rfl, -, rfl⟩ := h
    exact ⟨rfl, rfl⟩
  | returned => simp [outcome?] at hc

end

end Call

/-! ## The pool of a call -/

/-- A pool stays as it was set up. -/
structure Pool.SameSetup (p p' : Pool ε) : Prop where
  strategy : p'.strategy = p.strategy
  policy : p'.policy = p.policy

theorem Pool.SameSetup.refl (p : Pool ε) : p.SameSetup p := ⟨rfl, rfl⟩

theorem Call.step_sameSetup {id : PoolId} {granted : Bool} {m m' : Memory ε} {p p' : Pool ε}
    {c c' : Call} {e : Option Event} (h : c.step id granted m p = (m', p', e, c')) :
    p.SameSetup p' := by
  refine ⟨Call.step_strategy id granted h, ?_⟩
  have hp : (c.step id granted m p).2.1.policy = p.policy := by
    cases c <;> simp only [step]
    all_goals repeat' split
    all_goals rfl
  rw [h] at hp
  exact hp

theorem Arena.exists_pool_of_step {a : Arena ε} {id : PoolId} {p : Pool ε}
    (hp : a.pool? id = some p) (granted : Bool) (c : Call) :
    ∃ p' e, c.step id granted a.memory p =
        ((a.step id granted c).1.memory, p', e, (a.step id granted c).2) ∧
      (a.step id granted c).1.pool? id = some p' ∧
      (a.step id granted c).1.pools.size = a.pools.size ∧ p.SameSetup p' := by
  rcases hs : a.step id granted c with ⟨a', c'⟩
  obtain ⟨p', e, hstep, hpools⟩ := Arena.step_eq hp hs
  refine ⟨p', e, hstep, ?_, ?_, Call.step_sameSetup hstep⟩
  · rw [Arena.pool?_set hp hpools, if_pos rfl]
  · rw [hpools, Array.size_setIfInBounds]

/-! ## One client among others -/

/-- What other clients hold keeps its values. -/
def Undisturbed (rest : List Client) (m m' : Memory ε) : Prop :=
  ∀ k ∈ rest, ∀ x ∈ k.held, ∀ s ∈ x.slots m, m'.value s = m.value s

namespace World.Has

variable {rest : List Client} {a : Arena ε} {held : List Held} {id : PoolId} {c : Call}
  {call : Option (PoolId × Call)} {p : Pool ε}

theorem undisturbed (h : Has rest a held call) {m' : Memory ε} {touched : List Slot}
    (hkeeps : Keeps a.memory m' touched)
    (htouched : touched ⊆ slotsOf a.memory (Client.pieces ⟨held, call⟩)) :
    Undisturbed rest a.memory m' := by
  obtain ⟨l, clients, losses, hr, hc, hl⟩ := h
  have hpart : Partition a.memory _ := (whole_of_reachable hr).partition.of_perm (pieces_perm hc)
  intro k hk x hx s hs
  have hframe : s ∈ slotsOf a.memory (rest.flatMap Client.pieces ++ losses.pieces) := by
    refine mem_slotsOf_of_subset (fun q hq => List.mem_append_left _ ?_) hs
    exact List.mem_flatMap.2 ⟨k, hk, List.mem_append_left _ (List.mem_flatMap.2 ⟨x, hx, hq⟩)⟩
  have hlt : s.index < a.memory.size := hpart.lt_size s (by
    rw [slotsOf_append]
    exact List.mem_append_right _ hframe)
  refine hkeeps.value s hlt fun hin => hpart.disjoint ?_ hframe
  have hpieces : (Client.pieces ⟨held, call⟩).Perm (Client.pieces ⟨l, call⟩) :=
    (hl.symm.flatMap_right Held.pieces).append_right _
  rw [slotsOf_append]
  exact List.mem_append_right _ ((slotsOf_perm _ hpieces).mem_iff.1 (htouched hin))

theorem run_undisturbed (h : Has rest a held (some (id, c))) (granted : Bool) :
    Undisturbed rest a.memory (a.step id granted c).1.memory := by
  obtain ⟨p, hp⟩ := h.exists_pool
  obtain ⟨p', e, hstep, -⟩ := Arena.step_eq hp rfl
  refine h.undisturbed (Call.step_keeps hstep h.laid) ?_
  rw [Client.pieces, slotsOf_append]
  exact List.subset_append_right _ _

theorem fits (h : Has rest a held (some (id, c))) (hp : a.pool? id = some p) :
    c.Fits p.blockSize := by
  obtain ⟨l, clients, losses, hr, hc, hl⟩ := h
  exact (audited_of_reachable hr).fits _ (hc.mem_iff.2 List.mem_cons_self) id c p rfl hp

/-- Where there is one pool, all slots are from it, and a call breaks no rule. -/
theorem unbroken_of_one (h : Has rest a held (some (id, c))) (hone : a.pools.size ≤ 1)
    (hc : c.outcome? = none) (granted : Bool) (v : Violation) :
    (a.step id granted c).2 ≠ .finished (.broken v) := by
  intro hv
  obtain ⟨p, hp⟩ := h.exists_pool
  obtain ⟨frame, hpart⟩ := h.exists_call_partition
  have hobjects := h.objects_of_run granted hc (v := v) (by rw [hv]; rfl)
  obtain ⟨l, clients, losses, hr, -⟩ := h
  refine Call.not_objects_of_owned hc (fun s hs => ?_) v hobjects
  refine Arena.owner_of_one (tended_of_reachable hr).arena hone hp (hpart.lt_size s ?_)
  exact mem_slotsOf_of_subset (fun q hq => List.mem_append_left _ (List.mem_append_right _ hq)) hs

theorem run_serves {want : Want} (h : Has rest a held (some (id, c))) (hsize : a.pools.size ≤ 1)
    (hp : a.pool? id = some p) (hc : c.outcome? = none) (hw : c.want? = some want)
    {granted : Bool} (hgranted : (c.reservation? p.strategy).isSome = true → granted = true)
    (hone : c.OneAddressable p) (hmany : c.ManyAddressable p) :
    ∃ p', (a.step id granted c).1.pool? id = some p' ∧
      (a.step id granted c).1.pools.size = a.pools.size ∧ p.SameSetup p' ∧
      Call.Serves want p p' c (a.step id granted c).2 := by
  obtain ⟨p', e, hstep, hp', hpools, hsame⟩ := Arena.exists_pool_of_step hp granted c
  have hfits' := (h.run granted hc).fits hp'
  rw [Pool.blockSize, hsame.strategy] at hfits'
  exact ⟨p', hp', hpools, hsame, Call.step_serves hstep hc hw hgranted hone hmany (h.fits hp) hfits'
    (h.unbroken_of_one hsize hc granted)⟩

theorem run_returns {n : Nat} (h : Has rest a held (some (id, c))) (hsize : a.pools.size ≤ 1)
    (hp : a.pool? id = some p) (hc : c.outcome? = none) (hn : c.Returns n) (granted : Bool) :
    ∃ p', (a.step id granted c).1.pool? id = some p' ∧
      (a.step id granted c).1.pools.size = a.pools.size ∧ p.SameSetup p' ∧
      (∃ n', (a.step id granted c).2.Returns n') ∧
      p'.counters.acquisitions = p.counters.acquisitions ∧
      p'.counters.releases + (a.step id granted c).2.toRelease =
        p.counters.releases + c.toRelease := by
  obtain ⟨p', e, hstep, hp', hpools, hsame⟩ := Arena.exists_pool_of_step hp granted c
  obtain ⟨frame, hpart⟩ := h.exists_call_partition
  have hsound : ∀ q ∈ c.pieces, q.Sound a.memory := fun q hq =>
    hpart.sound q (List.mem_append_left _ (List.mem_append_right _ hq))
  exact ⟨p', hp', hpools, hsame,
    hn.step_counts hc hstep hsound (h.unbroken_of_one hsize hc granted)⟩

end World.Has

end SlotPool
