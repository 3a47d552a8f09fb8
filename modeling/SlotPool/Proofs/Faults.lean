import SlotPool.Proofs.Bulk
import SlotPool.Proofs.Capacity

/-!
# How errors come up

A call carries an error from the step in which it comes up to its end. A call for one slot may find
that a block cannot be addressed, when it raises the growth flag; a call for many slots may find it
of what it lacks, in its first step; and a reservation may be refused. A growth that can be
addressed stays so from block to block.
-/

namespace SlotPool

open Memory

variable {ε : Type}

namespace Call

/-- What the call still grows by is not too much. -/
def Within (s : Strategy ε) (c : Call) : Prop :=
  ∀ g, c.growth? = some g → 0 < g.blocks ∧ ¬ s.Exceeds g.blocks

theorem within_of_growth {s : Strategy ε} {c : Call} (h : c.growth? = none) : c.Within s := by
  intro g hg
  simp [h] at hg

theorem growth?_of_reservation {s : Strategy ε} {c : Call} {r : Reservation}
    (h : c.reservation? s = some r) : ∃ g, c.growth? = some g ∧ r ∈ s.reservations := by
  cases c with
  | reserve g => exact ⟨g, rfl, List.mem_of_getElem? h⟩
  | _ => simp [reservation?] at h

theorem growth?_of_fault {c : Call} {error : PoolError} (h : c.fault? = some error) :
    c.growth? = none := by
  cases c <;> first | rfl | simp [fault?] at h

theorem reservation?_of_growth {c : Call} (h : c.growth? = none) (s : Strategy ε) :
    c.reservation? s = none := by
  cases c <;> first | rfl | simp [growth?] at h

theorem outcome_of_fault {c : Call} {error : PoolError} (h : c.fault? = some error)
    {o : Outcome} (hc : c.outcome? = some o) : o = .failed error := by
  cases c with
  | finished o' =>
    obtain rfl : o' = o := Option.some.inj hc
    cases o' <;> simp_all [fault?]
  | _ => simp [outcome?] at hc

theorem fault?_of_outcome {c : Call} {error : PoolError}
    (h : c.outcome? = some (.failed error)) :
    c.fault? = some error := by
  cases c with
  | finished o =>
    obtain rfl : o = .failed error := Option.some.inj h
    rfl
  | _ => simp [outcome?] at h

/-! ## Growing -/

@[simp]
theorem fault?_nextBlock (g : Growth) : (nextBlock g).fault? = none := by
  unfold nextBlock
  split
  · exact fault?_afterBlocks g none
  · rfl

theorem fault?_startGrowth (strategy : Strategy ε) (origin : Origin) (blocks : Nat) :
    (startGrowth strategy origin blocks).fault? =
      if strategy.addressable blocks then none
      else some (.capacityOverflow blocks strategy.blockSize) := by
  unfold startGrowth
  split
  · exact fault?_nextBlock _
  · exact fault?_afterBlocks _ _

theorem afterGrowth_ne_popMany (g : Growth) (fault : Option PoolError) (count : Nat) :
    afterGrowth g fault ≠ popMany count := by
  obtain ⟨origin, blocks, granted, fresh⟩ := g
  cases origin <;> cases fault <;> simp [afterGrowth]

theorem Continues.ne_popMany {g : Growth} {c : Call} (h : Continues g c) (count : Nat) :
    c ≠ popMany count := by
  cases h with
  | afterGrowth fault hf hb => exact afterGrowth_ne_popMany g fault count
  | _ => simp

theorem within_nextBlock {s : Strategy ε} {g : Growth} (h : ¬ s.Exceeds g.blocks) :
    (nextBlock g).Within s := by
  unfold nextBlock
  split
  · exact within_of_growth (growth?_afterBlocks g none)
  · rename_i hblocks
    intro g' hg'
    obtain rfl : g = g' := Option.some.inj hg'
    exact ⟨Nat.pos_of_ne_zero hblocks, h⟩

theorem within_startGrowth {strategy : Strategy ε} (hw : strategy.Weighs) (origin : Origin)
    {blocks : Nat} (hb : 0 < blocks) : (startGrowth strategy origin blocks).Within strategy := by
  unfold startGrowth
  split
  · rename_i ha
    exact within_nextBlock ((Strategy.addressable_iff hw hb).1 ha)
  · exact within_of_growth (growth?_afterBlocks _ _)

theorem within_afterReservation {strategy : Strategy ε} {g : Growth} (granted : Bool)
    (h : (reserve g).Within strategy) : (afterReservation strategy g granted).Within strategy := by
  have hwithin := h g rfl
  have hkeep : ∀ c : Call, (∀ g', c.growth? = some g' → g'.blocks = g.blocks) →
      c.Within strategy := by
    intro c hc g' hg'
    rw [hc g' hg']
    exact hwithin
  unfold afterReservation
  split
  · exact hkeep _ fun g' hg' => by rw [← Option.some.inj hg']
  · split
    · dsimp only
      split <;> exact hkeep _ fun g' hg' => by rw [← Option.some.inj hg']
    · exact within_of_growth (growth?_afterBlocks g _)

/-! ## One step -/

section

variable {id : PoolId} {granted : Bool} {m m' : Memory ε} {p p' : Pool ε} {c c' : Call}
  {e : Option Event}

/-- The allocator refuses the reservation that the call makes in its step. -/
inductive Refuses (p : Pool ε) : Bool → Call → Call → PoolError → Prop where
  | refuse (g : Growth) (r : Reservation) (hr : p.strategy.reservations[g.granted]? = some r) :
      Refuses p false (reserve g) (afterReservation p.strategy g false) r.error

theorem reserve_fault {g : Growth} (h : (reserve g).step id granted m p = (m', p', e, c')) :
    c'.fault? = none ∨
      ∃ error, c'.fault? = some error ∧ Refuses p granted (reserve g) c' error := by
  obtain ⟨-, -, -, rfl⟩ := h
  cases hr : p.strategy.reservations[g.granted]? with
  | none =>
    simp only [afterReservation, hr]
    exact Or.inl rfl
  | some r =>
    cases granted with
    | true =>
      simp only [afterReservation, hr, if_true]
      split <;> exact Or.inl rfl
    | false =>
      refine Or.inr ⟨r.error, ?_, .refuse g r hr⟩
      simp only [afterReservation, hr]
      exact fault?_afterBlocks g _

theorem step_fault (h : c.step id granted m p = (m', p', e, c')) (hclaim : c ≠ claimGrowth)
    (hmany : ∀ count, c ≠ popMany count) :
    c'.fault? = c.fault? ∨ ∃ error, c'.fault? = some error ∧ Refuses p granted c c' error := by
  cases c with
  | claimGrowth => exact absurd rfl hclaim
  | popMany count => exact absurd rfl (hmany count)
  | reserve g => exact reserve_fault h
  | popOne =>
    simp only [step] at h
    split at h
    all_goals
      obtain ⟨-, -, -, rfl⟩ := h
      exact Or.inl rfl
  | build g =>
    simp only [step, Prod.mk.injEq] at h
    obtain ⟨-, -, -, rfl⟩ := h
    exact Or.inl (fault?_nextBlock _)
  | noteGrowth g fault allocated =>
    obtain ⟨-, -, -, rfl⟩ := h
    exact Or.inl (fault?_afterGrowth g fault)
  | unclaim fault =>
    obtain ⟨-, -, -, rfl⟩ := h
    cases fault <;> exact Or.inl rfl
  | carve count deficit taken fresh =>
    simp only [step] at h
    split at h
    · obtain ⟨-, -, -, rfl⟩ := h
      split <;> exact Or.inl rfl
    · obtain ⟨-, -, -, rfl⟩ := h
      exact Or.inl rfl
  | cleanOne s =>
    obtain ⟨-, -, hc'⟩ := cleanOne_step h
    obtain rfl | ⟨v, rfl⟩ := hc'.eq_or_broken <;> exact Or.inl rfl
  | cleanMany st =>
    obtain ⟨-, hst⟩ := cleanMany_step h
    split at hst
    · rw [hst.2]
      exact Or.inl rfl
    · obtain rfl | ⟨v, rfl⟩ := hst.2.eq_or_broken <;> exact Or.inl rfl
  | observe left seen =>
    cases left <;> obtain ⟨-, -, -, rfl⟩ := h <;> exact Or.inl rfl
  | _ =>
    obtain ⟨-, -, -, rfl⟩ := h
    exact Or.inl rfl

theorem claimGrowth_fault (h : claimGrowth.step id granted m p = (m', p', e, c'))
    (hw : p.strategy.Weighs) :
    (p.growing = true → c' = countBackoff) ∧
      (p.growing = false → p.strategy.Exceeds 1 →
        c'.fault? = some (.capacityOverflow 1 p.blockSize)) ∧
      (¬ p.strategy.Exceeds 1 → c'.fault? = none) := by
  have haddressable := Strategy.addressable_iff hw Nat.one_pos
  simp only [step] at h
  split at h
  · rename_i hgrowing
    obtain ⟨-, -, -, rfl⟩ := h
    exact ⟨fun _ => rfl, fun hlow => by simp [hgrowing] at hlow, fun _ => rfl⟩
  · rename_i hgrowing
    simp only [Prod.mk.injEq] at h
    obtain ⟨-, -, -, rfl⟩ := h
    refine ⟨fun hraised => absurd hraised hgrowing, fun _ hover => ?_, fun hfits => ?_⟩
    · rw [fault?_startGrowth, if_neg fun ha => haddressable.1 ha hover]
      rfl
    · rw [fault?_startGrowth, if_pos (haddressable.2 hfits)]

theorem popMany_fault {count : Nat} (h : (popMany count).step id granted m p = (m', p', e, c'))
    (hw : p.strategy.Weighs) :
    (p.available < count ∧ p.Exceeded (count - p.available) →
        c'.fault? = some (p.overflow (count - p.available))) ∧
      (¬ (p.available < count ∧ p.Exceeded (count - p.available)) → c'.fault? = none) := by
  by_cases hcount : count ≤ p.free.length
  · have henough : ¬ p.available < count := Nat.not_lt_of_le hcount
    refine ⟨fun hover => absurd hover.1 henough, fun _ => ?_⟩
    simp only [step, hcount, if_true] at h
    split at h
    all_goals
      obtain ⟨-, -, -, rfl⟩ := h
      rfl
  · have hshort : p.available < count := Nat.lt_of_not_le hcount
    constructor
    · rintro ⟨-, hover⟩
      obtain hfor | ⟨blocks, hfor, ha⟩ := hover.found_out hw
      · have hstep := popMany_step_none id granted m hcount hfor
        rw [h] at hstep
        simp only [Prod.mk.injEq] at hstep
        rw [hstep.2.2.2, fault?_afterBlocks, Pool.overflow_of_none hfor]
      · have hstep := popMany_step_some id granted m hcount hfor
        rw [h] at hstep
        simp only [Prod.mk.injEq] at hstep
        rw [hstep.2.2.2, fault?_startGrowth, if_neg (by simp [ha]), Pool.overflow_of_some hfor]
        rfl
    · intro hover
      obtain ⟨blocks, hfor, ha⟩ :=
        Pool.exists_addressable (fun hover' => hover ⟨hshort, hover'⟩) hw
      have hstep := popMany_step_some id granted m hcount hfor
      rw [h] at hstep
      simp only [Prod.mk.injEq] at hstep
      rw [hstep.2.2.2, fault?_startGrowth, if_pos ha]

theorem step_outOfMemory (h : c.step id granted m p = (m', p', e, c')) (hw : p.strategy.Weighs)
    {slots bytes : Nat} (hc' : c'.fault? = some (.outOfMemory slots bytes)) :
    c.fault? = some (.outOfMemory slots bytes) ∨
      Refuses p granted c c' (.outOfMemory slots bytes) := by
  by_cases hclaim : c = claimGrowth
  · subst hclaim
    obtain ⟨hraised, hlow, hfits⟩ := claimGrowth_fault h hw
    by_cases hover : p.strategy.Exceeds 1
    · cases hgrowing : p.growing with
      | true => simp [hraised hgrowing, fault?] at hc'
      | false => simp [hlow hgrowing hover] at hc'
    · simp [hfits hover] at hc'
  by_cases hmany : ∃ count, c = popMany count
  · obtain ⟨count, rfl⟩ := hmany
    obtain ⟨hover, hfits⟩ := popMany_fault h hw
    by_cases hexceeded : p.available < count ∧ p.Exceeded (count - p.available)
    · simp [hover hexceeded, Pool.overflow] at hc'
    · simp [hfits hexceeded] at hc'
  obtain hsame | ⟨error, hnew, hrefuses⟩ := step_fault h hclaim (not_exists.1 hmany)
  · exact Or.inl (hsame.symm.trans hc')
  · obtain rfl := Option.some.inj (hnew.symm.trans hc')
    exact Or.inr hrefuses

theorem step_blocks (h : c.step id granted m p = (m', p', e, c')) (hb : ∀ g, c ≠ build g) :
    p'.blocks = p.blocks := by
  have hp : (c.step id granted m p).2.1.blocks = p.blocks := by
    cases c with
    | build g => exact absurd rfl (hb g)
    | _ =>
      simp only [step]
      repeat' split
      all_goals rfl
  rw [h] at hp
  exact hp

theorem step_ne_popMany (h : c.step id granted m p = (m', p', e, c')) (count : Nat) :
    c' ≠ popMany count := by
  have hnext : (c.step id granted m p).2.2.2 ≠ popMany count := by
    cases c with
    | claimGrowth =>
      simp only [step]
      split
      · simp
      · exact (continues_startGrowth _ _ _).ne_popMany count
    | popMany n =>
      by_cases hcount : n ≤ p.free.length
      · simp only [step, hcount, if_true]
        split <;> simp
      · obtain ⟨-, -, blocks, -, hnext⟩ := popMany_short hcount h
        rw [h]
        exact hnext.ne_popMany count
    | reserve g => exact (continues_afterReservation _ _ _).ne_popMany count
    | build g => exact (continues_nextBlock _).ne_popMany count
    | noteGrowth g fault allocated => exact afterGrowth_ne_popMany g fault count
    | _ =>
      simp only [step]
      repeat' split
      all_goals simp
  rw [h] at hnext
  exact hnext

theorem Within.step (hc : c.Within p.strategy) (h : c.step id granted m p = (m', p', e, c'))
    (hw : p.strategy.Weighs) : c'.Within p.strategy := by
  have hnext : (c.step id granted m p).2.2.2.Within p.strategy := by
    cases c with
    | claimGrowth =>
      simp only [Call.step]
      split
      · exact within_of_growth rfl
      · exact within_startGrowth hw _ Nat.one_pos
    | popMany count =>
      by_cases hcount : count ≤ p.free.length
      · simp only [Call.step, hcount, if_true]
        split <;> exact within_of_growth rfl
      · cases hfor : p.policy.blocksFor (count - p.free.length) p.blockSize with
        | none =>
          rw [popMany_step_none id granted m hcount hfor]
          dsimp only
          exact within_of_growth (growth?_afterBlocks _ _)
        | some blocks =>
          rw [popMany_step_some id granted m hcount hfor]
          exact within_startGrowth hw _ (GrowthPolicy.blocksFor_pos hfor)
    | reserve g => exact within_afterReservation granted hc
    | build g =>
      refine within_nextBlock fun hover => (hc g rfl).2 ?_
      exact hover.mono (Nat.sub_le g.blocks 1)
    | noteGrowth g fault allocated =>
      obtain ⟨origin, blocks, granted, fresh⟩ := g
      cases origin <;> cases fault <;> exact within_of_growth rfl
    | _ =>
      refine within_of_growth ?_
      simp only [Call.step]
      repeat' split
      all_goals rfl
  rw [h] at hnext
  exact hnext

end

end Call

/-! ## All calls in a world -/

namespace Client

/-- The client's call is as `I` says of its pool's strategy. -/
def Meets (I : Strategy ε → Call → Prop) (a : Arena ε) (k : Client) : Prop :=
  ∀ id c p, k.call = some (id, c) → a.pool? id = some p → I p.strategy c

variable {I : Strategy ε → Call → Prop}

theorem Meets.samePools {a a' : Arena ε} {k : Client} (hm : k.Meets I a) (hk : k.Known a)
    (h : a.SamePools a') : k.Meets I a' := by
  intro id c p' hc hp'
  obtain ⟨p, hp⟩ := hk.call id c hc
  obtain ⟨p'', hp'', hstrategy⟩ := h id p hp
  obtain rfl : p'' = p' := Option.some.inj (hp''.symm.trans hp')
  rw [hstrategy]
  exact hm id c p hc hp

theorem step_meets (hbegin : ∀ s c, c.isBeginning = true → I s c)
    (hstep : ∀ id granted (m m' : Memory ε) p p' e c c', c.step id granted m p = (m', p', e, c') →
      I p.strategy c → I p.strategy c')
    {a a' : Arena ε} {k k' : Client} {new : Losses} (hm : k.Meets I a) (hk : k.Known a)
    (h : Step a k a' k' new) : k'.Meets I a' := by
  intro id c₁ p' hc₁ hp'
  obtain ⟨held, id', granted, c, c', rfl, rfl, hc, hr⟩ | ⟨-, -, hbegun⟩ := step_run_or_begin h
  · obtain ⟨rfl, rfl⟩ : id' = id ∧ c' = c₁ := by simpa using hc₁
    obtain ⟨p, hp⟩ := hk.call id' c rfl
    obtain ⟨q, e, hrun, hpools⟩ := Arena.step_eq hp hr
    obtain rfl : q = p' := by simpa [Arena.pool?_set hp hpools] using hp'
    rw [Call.step_strategy id' granted hrun]
    exact hstep _ _ _ _ _ _ _ _ _ hrun (hm id' c p rfl hp)
  · exact hbegin _ _ (hbegun id c₁ hc₁)

end Client

namespace World

/-- What holds of calls that begin, and what steps of a call keep, holds of all calls. -/
theorem Reachable.calls {I : Strategy ε → Call → Prop}
    (hbegin : ∀ s c, c.isBeginning = true → I s c)
    (hstep : ∀ id granted (m m' : Memory ε) p p' e c c', c.step id granted m p = (m', p', e, c') →
      I p.strategy c → I p.strategy c')
    {w : World ε} (h : w.Reachable) : ∀ k ∈ w.clients, k.Meets I w.arena := by
  induction h with
  | start => simp
  | step hr hs ih =>
    have hw := whole_of_reachable hr
    cases hs with
    | client a a' clients rest k k' losses new hc hk =>
      have hknown : ∀ k₁ ∈ k :: rest, k₁.Known a := fun k₁ hm => hw.known k₁ (hc.mem_iff.2 hm)
      obtain ⟨hmeets, hrest⟩ := forall_of_perm hc ih
      refine List.forall_mem_cons.2
        ⟨Client.step_meets hbegin hstep hmeets (hknown k (by simp)) hk, fun k₁ hm => ?_⟩
      exact (hrest k₁ hm).samePools (hknown k₁ (by simp [hm]))
        (Client.step_samePools (hknown k (by simp)) hk)
    | addPool a clients losses strategy policy backoffMicros =>
      exact fun k hm => (ih k hm).samePools (hw.known k hm)
        fun id p hp => ⟨p, Arena.pool?_addPool hp _, rfl⟩
    | join a clients losses => exact List.forall_mem_cons.2 ⟨by simp [Client.Meets], ih⟩
    | handOver a clients rest giver taker kept h losses hc hh =>
      obtain ⟨hgiver, hmore⟩ := forall_of_perm hc ih
      obtain ⟨htaker, hrest⟩ := List.forall_mem_cons.1 hmore
      exact List.forall_mem_cons.2 ⟨hgiver, List.forall_mem_cons.2 ⟨htaker, hrest⟩⟩

theorem within_of_reachable {w : World ε} (h : w.Reachable) {k : Client} (hk : k ∈ w.clients)
    {id : PoolId} {c : Call} {p : Pool ε} (hc : k.call = some (id, c))
    (hp : w.arena.pool? id = some p) (hw : p.strategy.Weighs) : c.Within p.strategy := by
  refine h.calls (I := fun s c => s.Weighs → c.Within s) (fun s c hbegun _ => ?_)
    (fun id granted m m' p p' e c c' hstep hc hw => (hc hw).step hstep hw) k hk id c p hc hp hw
  apply Call.within_of_growth
  cases c <;> first | rfl | simp [Call.isBeginning] at hbegun

theorem fits_of_reachable {w : World ε} (h : w.Reachable) {k : Client} (hk : k ∈ w.clients)
    {id : PoolId} {c : Call} {p : Pool ε} (hc : k.call = some (id, c))
    (hp : w.arena.pool? id = some p) (hw : p.strategy.Weighs) {g : Growth}
    (hg : c.growth? = some g) : p.strategy.Fits g.blocks := by
  obtain ⟨hpos, hfits⟩ := within_of_reachable h hk hc hp hw g hg
  exact Strategy.fits_of_not_exceeds hw hpos hfits

/-! ## What pools stay -/

theorem step_sameSetup {w w' : World ε} (hw : w.Whole) (hs : w.Step w') {id : PoolId} {p : Pool ε}
    (hp : w.arena.pool? id = some p) :
    ∃ p', w'.arena.pool? id = some p' ∧ p.SameSetup p' := by
  cases hs with
  | client a a' clients rest k k' losses new hc hk =>
    obtain ⟨held, id', granted, c, c', rfl, rfl, -, hr⟩ | ⟨hpools, -, -⟩ :=
      Client.step_run_or_begin hk
    · obtain ⟨q, hq⟩ := (hw.known _ (hc.mem_iff.2 List.mem_cons_self)).call id' c rfl
      obtain ⟨q', e, hstep, hpools⟩ := Arena.step_eq hq hr
      refine ⟨if id = id' then q' else p, ?_, ?_⟩
      · show a'.pool? id = _
        rw [Arena.pool?_set hq hpools, hp]
        split <;> rfl
      · split
        · rename_i he
          subst he
          obtain rfl : q = p := Option.some.inj (hq.symm.trans hp)
          exact Call.step_sameSetup hstep
        · exact .refl p
    · refine ⟨p, ?_, .refl p⟩
      show a'.pool? id = _
      rw [Arena.pool?, hpools]
      exact hp
  | addPool a clients losses strategy policy backoffMicros =>
    exact ⟨p, Arena.pool?_addPool hp _, .refl p⟩
  | _ => exact ⟨p, hp, .refl p⟩

theorem blocks_of_exceeds {w : World ε} (h : w.Reachable) {id : PoolId} {p : Pool ε}
    (hp : w.arena.pool? id = some p) (hw : p.strategy.Weighs) (hover : p.strategy.Exceeds 1) :
    p.blocks.length = 0 := by
  induction h generalizing p with
  | start => simp [Arena.pool?] at hp
  | step hr hs ih =>
    cases hs with
    | client a a' clients rest k k' losses new hc hk =>
      obtain ⟨held, id', granted, c, c', rfl, rfl, -, hrun⟩ | ⟨hpools, -, -⟩ :=
        Client.step_run_or_begin hk
      · have hmem := hc.mem_iff.2 List.mem_cons_self
        obtain ⟨q, hq⟩ := ((whole_of_reachable hr).known _ hmem).call id' c rfl
        obtain ⟨q', e, hstep, hpools⟩ := Arena.step_eq hq hrun
        have hp' : a'.pool? id = some p := hp
        rw [Arena.pool?_set hq hpools] at hp'
        split at hp'
        · rename_i he
          subst he
          obtain rfl := Option.some.inj hp'
          rw [Call.step_strategy id granted hstep] at hw hover
          rw [Call.step_blocks hstep fun g hg => ?_]
          · exact ih hq hw hover
          -- A block is built only where it can be addressed.
          · obtain ⟨hpos, hfits⟩ := within_of_reachable hr hmem rfl hq hw g (by rw [hg]; rfl)
            exact hfits (hover.mono hpos)
        · exact ih hp' hw hover
      · refine ih ?_ hw hover
        show a.pool? id = _
        rw [Arena.pool?, ← hpools]
        exact hp
    | addPool a clients losses strategy policy backoffMicros =>
      obtain hp | rfl := Arena.of_pool?_addPool hp
      · exact ih hp hw hover
      · rfl
    | _ => exact ih hp hw hover

theorem available_of_exceeds {w : World ε} (h : w.Reachable) {id : PoolId} {p : Pool ε}
    (hp : w.arena.pool? id = some p) (hw : p.strategy.Weighs) (hover : p.strategy.Exceeds 1) :
    p.available = 0 := by
  have hslots := ((audited_of_reachable h).balanced id p hp).slots
  rw [owned_slots (tended_of_reachable h) (whole_of_reachable h) hp,
    blocks_of_exceeds h hp hw hover] at hslots
  omega

end World

end SlotPool
