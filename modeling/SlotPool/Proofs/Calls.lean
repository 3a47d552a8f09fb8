import SlotPool.Proofs.World

/-!
# What one step of a call does to slots

`Call.step_shifts`: whatever a call does, the free stack of its pool and the call have the slots
that they had before, but for those of a new block and those of a call that breaks a rule.
-/

namespace SlotPool.Call

open Memory

variable {ε : Type}

/-! ## How growth goes on -/

/-- What a call that grows a pool may go on with, in one step that makes no new slots. -/
inductive Continues (g : Growth) : Call → Prop where
  | reserve (granted : Nat) : Continues g (.reserve { g with granted })
  | build (granted : Nat) : Continues g (.build { g with granted })
  | countSlots (fault : Option PoolError) (hf : g.fresh.isEmpty = false)
      (hb : fault = none → g.blocks = 0) : Continues g (.countSlots g fault)
  | afterGrowth (fault : Option PoolError) (hf : g.fresh.isEmpty = true)
      (hb : fault = none → g.blocks = 0) : Continues g (.afterGrowth g fault)

theorem continues_afterBlocks (g : Growth) (fault : Option PoolError)
    (hb : fault = none → g.blocks = 0) : Continues g (afterBlocks g fault) := by
  unfold afterBlocks
  split
  · rename_i hf
    exact .afterGrowth fault hf hb
  · rename_i hf
    exact .countSlots fault (by simpa using hf) hb

theorem continues_nextBlock (g : Growth) : Continues g (nextBlock g) := by
  unfold nextBlock
  split
  · rename_i hb
    exact continues_afterBlocks g none fun _ => hb
  · exact .reserve g.granted

theorem continues_startGrowth (strategy : Strategy ε) (origin : Origin) (blocks : Nat) :
    Continues { origin, blocks } (startGrowth strategy origin blocks) := by
  unfold startGrowth
  split
  · exact continues_nextBlock _
  · exact continues_afterBlocks _ _ (by simp)

theorem continues_afterReservation (strategy : Strategy ε) (g : Growth) (granted : Bool) :
    Continues g (afterReservation strategy g granted) := by
  unfold afterReservation
  cases strategy.reservations[g.granted]? with
  | none => exact .build g.granted
  | some r =>
    cases granted with
    | false => exact continues_afterBlocks g _ (by simp)
    | true =>
      simp only [if_true]
      split
      · exact .reserve (g.granted + 1)
      · exact .build (g.granted + 1)

theorem deficit_le_of_blocksFor {policy : GrowthPolicy} {deficit blockSize blocks : Nat}
    (hpos : 0 < blockSize) (h : policy.blocksFor deficit blockSize = some blocks) :
    deficit ≤ blocks * blockSize := by
  cases policy with
  | headroom =>
    obtain ⟨-, rfl⟩ := Word.add?_eq_some.1 h
    exact Nat.le_of_lt (Nat.lt_mul_of_div_lt (Nat.lt_succ_self _) hpos)
  | exactFit =>
    obtain rfl : max ((deficit + (blockSize - 1)) / blockSize) 1 = blocks := by
      simpa [GrowthPolicy.blocksFor] using h
    have hceil : deficit ≤ (deficit + (blockSize - 1)) / blockSize * blockSize := by
      have := Nat.div_add_mod' (deficit + (blockSize - 1)) blockSize
      have := Nat.mod_lt (deficit + (blockSize - 1)) hpos
      omega
    exact Nat.le_trans hceil (Nat.mul_le_mul_right _ (Nat.le_max_left _ _))

theorem popMany_short {id : PoolId} {granted : Bool} {m m' : Memory ε} {p p' : Pool ε} {c' : Call}
    {e : Option Event} {count : Nat} (hc : ¬ count ≤ p.free.length)
    (h : (popMany count).step id granted m p = (m', p', e, c')) :
    m' = m ∧ p' = { p with free := {} } ∧
      ∃ blocks, count - p.free.length ≤ blocks * p.blockSize ∧
        Continues { origin := .bulk count (count - p.free.length) p.free, blocks } c' := by
  simp only [step, hc, if_false, Prod.mk.injEq] at h
  obtain ⟨rfl, rfl, -, rfl⟩ := h
  refine ⟨rfl, rfl, ?_⟩
  have hpos : 0 < p.blockSize := p.strategy.blockSize_pos
  cases hb : p.policy.blocksFor (count - p.free.length) p.blockSize with
  | some blocks =>
    exact ⟨blocks, deficit_le_of_blocksFor hpos hb, continues_startGrowth _ _ _⟩
  | none =>
    -- No block is made, so that any number of blocks will do.
    refine ⟨count - p.free.length, Nat.le_mul_of_pos_right _ hpos, ?_⟩
    exact .afterGrowth (some (.capacityOverflow (Word.limit - 1) p.blockSize)) rfl (by simp)

@[simp]
theorem pieces_afterGrowth (g : Growth) (fault : Option PoolError) :
    (afterGrowth g fault).pieces = g.pieces := by
  obtain ⟨origin, blocks, granted, fresh⟩ := g
  cases origin <;> cases fault <;> rfl

@[simp]
theorem outcome?_afterGrowth (g : Growth) (fault : Option PoolError) :
    (afterGrowth g fault).outcome? = none := by
  obtain ⟨origin, blocks, granted, fresh⟩ := g
  cases origin <;> cases fault <;> rfl

theorem Continues.pieces_eq {g : Growth} {c : Call} (h : Continues g c) : c.pieces = g.pieces := by
  cases h with
  | afterGrowth fault hf hb => exact pieces_afterGrowth g fault
  | _ => rfl

theorem Continues.outcome?_eq {g : Growth} {c : Call} (h : Continues g c) :
    c.outcome? = none := by
  cases h with
  | afterGrowth fault hf hb => exact outcome?_afterGrowth g fault
  | _ => rfl

/-! ## What is forfeited -/

theorem forfeited_of_unbroken (m : Memory ε) (c c' : Call) (h : ∀ v, c' ≠ finished (.broken v)) :
    c.forfeited m c' = [] := by
  unfold forfeited
  split
  · rename_i v
    exact absurd rfl (h v)
  · rfl

theorem forfeited_of_alive (m : Memory ε) (c c' : Call) (h : c'.outcome? = none) :
    c.forfeited m c' = [] := by
  apply forfeited_of_unbroken m c c'
  rintro v rfl
  simp [outcome?] at h

/-! ## Cleaning -/

theorem cells_cleanAll (id : PoolId) (v : ε) (m : Memory ε) (l : List Slot) :
    (cleanAll id v m l).1.cells = m.cells := by
  induction l generalizing m with
  | nil => rfl
  | cons s l ih =>
    unfold cleanAll
    cases m.owner? s with
    | none => exact ih m
    | some owner =>
      dsimp only
      split
      · rw [ih, cells_fill]
      · rfl

section

variable {id : PoolId} {granted : Bool} {m m' : Memory ε} {p p' : Pool ε} {c' : Call}
  {e : Option Event}

/-- What follows when slots are cleaned: `next`, or the end if one is not from the pool. -/
def AfterCleaning (found : Option Violation) (next c' : Call) : Prop :=
  match found with
  | none => c' = next
  | some v => c' = finished (.broken v)

theorem AfterCleaning.eq_or_broken {found : Option Violation} {next : Call}
    (h : AfterCleaning found next c') : c' = next ∨ ∃ v, c' = finished (.broken v) := by
  cases found with
  | none => exact Or.inl h
  | some v => exact Or.inr ⟨v, h⟩

theorem cleanOne_step {s : Slot}
    (h : (cleanOne s).step id granted m p = (m', p', e, c')) :
    m' = (cleanAll id p.strategy.pristine m [s]).1 ∧ p' = p ∧
      AfterCleaning (cleanAll id p.strategy.pristine m [s]).2 (pushOne s) c' := by
  simp only [step] at h
  rcases hs : cleanAll id p.strategy.pristine m [s] with ⟨m₁, _ | v⟩
  all_goals
    simp only [hs] at h
    obtain ⟨rfl, rfl, -, rfl⟩ := h
    exact ⟨rfl, rfl, rfl⟩

theorem cleanMany_step {st : Stack}
    (h : (cleanMany st).step id granted m p = (m', p', e, c')) :
    p' = p ∧
      if st.isEmpty then m' = m ∧ c' = finished .returned
      else m' = (cleanAll id p.strategy.pristine m (st.slots m)).1 ∧
        AfterCleaning (cleanAll id p.strategy.pristine m (st.slots m)).2 (appendMany st) c' := by
  simp only [step] at h
  split at h
  · obtain ⟨rfl, rfl, -, rfl⟩ := h
    simp_all
  · rcases hs : cleanAll id p.strategy.pristine m (st.slots m) with ⟨m₁, _ | v⟩
    all_goals
      simp only [hs] at h
      obtain ⟨rfl, rfl, -, rfl⟩ := h
      simp_all [AfterCleaning]

end

/-! ## One step -/

theorem shifts_of_alive {m m' : Memory ε} {c c' : Call} {ps : List Piece} {st : Stack}
    (h : Shifts m m' ps (.chain st :: c'.pieces)) (hc : c'.outcome? = none) :
    Shifts m m' ps (.chain st :: (c'.pieces ++ (c.forfeited m' c').map .single)) := by
  rw [forfeited_of_alive m' c c' hc]
  simpa using h

theorem shifts_still {m : Memory ε} {p p' : Pool ε} {c c' : Call} (hf : p'.free = p.free)
    (hs : c'.pieces = c.pieces) (hl : c.forfeited m c' = []) :
    Shifts m m (.chain p.free :: c.pieces)
      (.chain p'.free :: (c'.pieces ++ (c.forfeited m c').map .single)) := by
  rw [hf, hs, hl, List.map_nil, List.append_nil]
  exact Shifts.refl m _

section

variable (id : PoolId) (strategy : Strategy ε) (m : Memory ε) (g : Growth)

theorem buildBlock_pushes :
    Shifts (m.addBlock id strategy.blockSize strategy.shape.width strategy.pristine)
      (buildBlock id strategy m g).1
      (g.pieces ++ (sideBySide m.size strategy.blockSize).map .single)
      (buildBlock id strategy m g).2.pieces := by
  have hpush := Shifts.pushRange (m.addBlock id strategy.blockSize strategy.shape.width
    strategy.pristine) g.fresh m.size strategy.blockSize
  apply (hpush.append_right g.origin.pieces).perm_left
  exact List.perm_append_comm.cons _

theorem buildBlock_shifts :
    Shifts m (buildBlock id strategy m g).1 g.pieces (buildBlock id strategy m g).2.pieces := by
  have hnew := (Shifts.addBlock m id strategy.blockSize strategy.shape.width
    strategy.pristine).append_left g.pieces
  rw [List.append_nil] at hnew
  exact hnew.trans (buildBlock_pushes id strategy m g)

end

theorem step_shifts (id : PoolId) (granted : Bool) {m m' : Memory ε} {p p' : Pool ε} {c c' : Call}
    {e : Option Event} (h : c.step id granted m p = (m', p', e, c')) :
    Shifts m m' (.chain p.free :: c.pieces)
      (.chain p'.free :: (c'.pieces ++ (c.forfeited m' c').map .single)) := by
  cases c with
  | popOne =>
    simp only [step] at h
    rcases hp : p.free.pop m with ⟨m₁, free, s⟩
    cases s with
    | none =>
      obtain ⟨rfl, rfl, -, rfl⟩ : m₁ = m' ∧ p = p' ∧ none = e ∧ claimGrowth = c' := by
        simpa [hp] using h
      have hm : m₁ = m := by
        unfold Stack.pop at hp
        split at hp <;> simp_all
      rw [hm]
      exact shifts_still rfl rfl rfl
    | some s =>
      obtain ⟨rfl, rfl, -, rfl⟩ : m₁ = m' ∧ { p with free } = p' ∧ none = e ∧
          countAcquired 1 (.one s) = c' := by
        simpa [hp] using h
      exact Shifts.pop m p.free hp
  | claimGrowth =>
    simp only [step] at h
    split at h
    · obtain ⟨rfl, rfl, -, rfl⟩ := h
      exact shifts_still rfl rfl rfl
    · simp only [Prod.mk.injEq] at h
      obtain ⟨rfl, rfl, -, rfl⟩ := h
      have hnext := continues_startGrowth p.strategy .single 1
      refine shifts_of_alive ?_ hnext.outcome?_eq
      rw [hnext.pieces_eq]
      exact (Shifts.empty m).append_left [.chain p.free]
  | countBackoff =>
    obtain ⟨rfl, rfl, -, rfl⟩ := h
    exact shifts_still rfl rfl rfl
  | noteBackoff =>
    obtain ⟨rfl, rfl, -, rfl⟩ := h
    exact shifts_still rfl rfl rfl
  | popMany count =>
    by_cases hcount : count ≤ p.free.length
    · simp only [step, hcount, if_true] at h
      rcases hs : p.free.split m count with ⟨m₁, v | ⟨front, rest⟩⟩
      · -- The free stack can be split, as it is sound.
        apply Shifts.of_sound
        intro hsound
        obtain ⟨_, _, _, hs', -⟩ := Stack.split_spec (hsound (.chain p.free) (by simp)) count
        simp [hs] at hs'
      · obtain ⟨rfl, rfl, -, rfl⟩ : m₁ = m' ∧ { p with free := rest } = p' ∧ none = e ∧
            countAcquired count (.many front) = c' := by
          simpa [hs] using h
        exact (Shifts.split m p.free hs).perm_right (List.Perm.swap _ _ _)
    · obtain ⟨rfl, rfl, blocks, -, hnext⟩ := popMany_short hcount h
      refine shifts_of_alive ?_ hnext.outcome?_eq
      rw [hnext.pieces_eq]
      exact ((Shifts.empty m').append_right [.chain p.free]).trans
        ((Shifts.empty m').append_right [.chain .empty, .chain p.free])
  | reserve g =>
    obtain ⟨rfl, rfl, -, rfl⟩ := h
    have hnext := continues_afterReservation p.strategy g granted
    exact shifts_still rfl hnext.pieces_eq (forfeited_of_alive _ _ _ hnext.outcome?_eq)
  | build g =>
    simp only [step, Prod.mk.injEq] at h
    obtain ⟨rfl, rfl, -, rfl⟩ := h
    have hnext := continues_nextBlock (buildBlock id p.strategy m g).2
    refine shifts_of_alive ?_ hnext.outcome?_eq
    rw [hnext.pieces_eq]
    exact (buildBlock_shifts id p.strategy m g).cons (.chain p.free)
  | countSlots g fault =>
    obtain ⟨rfl, rfl, -, rfl⟩ := h
    exact shifts_still rfl rfl rfl
  | countGrowth g fault allocated =>
    obtain ⟨rfl, rfl, -, rfl⟩ := h
    exact shifts_still rfl rfl rfl
  | countBlocks g fault allocated =>
    obtain ⟨rfl, rfl, -, rfl⟩ := h
    exact shifts_still rfl rfl rfl
  | noteGrowth g fault allocated =>
    obtain ⟨rfl, rfl, -, rfl⟩ := h
    exact shifts_still rfl (pieces_afterGrowth g fault)
      (forfeited_of_alive _ _ _ (outcome?_afterGrowth g fault))
  | publish fresh fault =>
    obtain ⟨rfl, rfl, -, rfl⟩ := h
    exact Shifts.append m p.free fresh
  | unclaim fault =>
    obtain ⟨rfl, rfl, -, rfl⟩ := h
    cases fault with
    | none => exact shifts_still rfl rfl rfl
    | some error => exact shifts_still rfl rfl rfl
  | carve count deficit taken fresh =>
    simp only [step] at h
    rcases hs : fresh.split m deficit with ⟨m₁, v | ⟨needed, surplus⟩⟩
    · -- The new slots can be split, as their stack is sound.
      apply Shifts.of_sound
      intro hsound
      obtain ⟨_, _, _, hs', -⟩ :=
        Stack.split_spec (hsound (.chain fresh) (by simp [pieces])) deficit
      simp [hs] at hs'
    · simp only [hs, Prod.mk.injEq] at h
      obtain ⟨rfl, rfl, -, hc'⟩ := h
      have hneeded := (Shifts.split m fresh hs).append_right [.chain taken]
      have htaken := (Shifts.append m₁ taken needed).append_left [.chain surplus]
      have hcarve : Shifts m (taken.append m₁ needed).1 [.chain fresh, .chain taken]
          [.chain surplus, .chain (taken.append m₁ needed).2] := by
        refine hneeded.trans (htaken.perm_left ?_)
        exact (List.Perm.swap _ _ _).trans ((List.Perm.swap _ _ _).cons _)
      split at hc'
      · rename_i hempty
        subst hc'
        have hdiscard := (Shifts.discard (taken.append m₁ needed).1 surplus hempty).append_right
          [.chain (taken.append m₁ needed).2]
        exact (hcarve.trans hdiscard).cons (.chain p.free)
      · subst hc'
        exact hcarve.cons (.chain p.free)
  | surrender count taken surplus =>
    obtain ⟨rfl, rfl, -, rfl⟩ := h
    exact (Shifts.append m p.free surplus).append_right [.chain taken]
  | noteFailure count taken fresh error =>
    obtain ⟨rfl, rfl, -, rfl⟩ := h
    exact shifts_still rfl rfl rfl
  | restore taken fresh error =>
    obtain ⟨rfl, rfl, -, rfl⟩ := h
    have htaken := (Shifts.append m p.free taken).append_right [.chain fresh]
    apply (htaken.trans (Shifts.append _ _ fresh)).perm_left
    exact (List.Perm.swap _ _ _).cons _
  | countAcquired count slots =>
    obtain ⟨rfl, rfl, -, rfl⟩ := h
    exact shifts_still rfl rfl rfl
  | cleanOne s =>
    obtain ⟨rfl, rfl, hc'⟩ := cleanOne_step h
    have hcells := cells_cleanAll id p'.strategy.pristine m [s]
    cases hv : (cleanAll id p'.strategy.pristine m [s]).2 with
    | none =>
      rw [hv] at hc'
      obtain rfl : c' = pushOne s := hc'
      exact Shifts.of_cells hcells _
    | some v =>
      rw [hv] at hc'
      obtain rfl : c' = finished (.broken v) := hc'
      exact Shifts.of_cells hcells _
  | pushOne s =>
    obtain ⟨rfl, rfl, -, rfl⟩ := h
    exact Shifts.push m p.free s
  | cleanMany st =>
    obtain ⟨rfl, hst⟩ := cleanMany_step h
    split at hst
    · rename_i hempty
      obtain ⟨rfl, rfl⟩ := hst
      exact (Shifts.discard m' st hempty).cons (.chain p'.free)
    obtain ⟨rfl, hc'⟩ := hst
    have hcells := cells_cleanAll id p'.strategy.pristine m (st.slots m)
    cases hv : (cleanAll id p'.strategy.pristine m (st.slots m)).2 with
    | none =>
      rw [hv] at hc'
      obtain rfl : c' = appendMany st := hc'
      exact Shifts.of_cells hcells _
    | some v =>
      rw [hv] at hc'
      obtain rfl : c' = finished (.broken v) := hc'
      exact (Shifts.of_cells hcells _).trans
        ((Shifts.scatter _ [.chain st]).append_left [.chain p'.free])
  | appendMany st =>
    obtain ⟨rfl, rfl, -, rfl⟩ := h
    exact Shifts.append m p.free st
  | countReleased count =>
    obtain ⟨rfl, rfl, -, rfl⟩ := h
    exact shifts_still rfl rfl rfl
  | observe left seen =>
    cases left with
    | nil =>
      obtain ⟨rfl, rfl, -, rfl⟩ := h
      exact shifts_still rfl rfl rfl
    | cons gauge left =>
      obtain ⟨rfl, rfl, -, rfl⟩ := h
      exact shifts_still rfl rfl rfl
  | finished o =>
    obtain ⟨rfl, rfl, -, rfl⟩ := h
    cases o <;> exact shifts_still rfl rfl rfl

end SlotPool.Call
