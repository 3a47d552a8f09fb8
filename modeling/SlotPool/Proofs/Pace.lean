import SlotPool.Proofs.Guard
import SlotPool.Proofs.Stresses

/-!
# Steps that are left to a thread

With each step a call comes nearer to its end, except that one that looks for a slot and finds none
tries again. So what a thread has left to do is counted as if a slot was found in one step: then it
is less after each step, but for those of a call that looks for a slot in vain.
-/

namespace SlotPool

variable {ε : Type}

theorem Stack.isEmpty_append {m : Memory ε} {st other : Stack} {k : List Slot}
    (h : other.Spans m k) (hlength : 0 < other.length) :
    (st.append m other).2.isEmpty = false := by
  rcases k.eq_nil_or_concat' with rfl | ⟨k, s, rfl⟩
  · rw [h.length] at hlength
    exact absurd hlength (Nat.lt_irrefl 0)
  · rw [append_of_last st other h]
    cases k <;> rfl

/-! ## Steps of a call -/

namespace Call

/-- No fewer steps than the call takes to its end, if it does not have to look for a slot again. -/
def toGo : Call → Nat
  | finished _ => 0
  | countAcquired .. | countReleased _ | restore .. => 1
  | popOne | surrender .. | pushOne _ | appendMany _ | noteFailure .. => 2
  | noteBackoff | unclaim _ | carve .. | cleanOne _ | cleanMany _ => 3
  | countBackoff | publish .. => 4
  | noteGrowth .. => 5
  | countBlocks .. => 6
  | countGrowth .. => 7
  | countSlots .. => 8
  | build g => 10 + 4 * g.blocks
  | reserve g => 11 + 4 * g.blocks + (2 - g.granted)
  | claimGrowth => 18
  | popMany count => 18 + 4 * count
  | observe left _ => left.length + 1

theorem toGo_afterGrowth_le (g : Growth) (fault : Option PoolError) :
    (afterGrowth g fault).toGo ≤ 4 := by
  obtain ⟨origin, blocks, granted, fresh⟩ := g
  cases origin <;> cases fault <;> simp [afterGrowth, toGo]

theorem toGo_afterBlocks_le (g : Growth) (fault : Option PoolError) :
    (afterBlocks g fault).toGo ≤ 8 := by
  unfold afterBlocks
  split
  · exact Nat.le_trans (toGo_afterGrowth_le g fault) (by decide)
  · exact Nat.le_refl 8

theorem toGo_nextBlock_le (g : Growth) : (nextBlock g).toGo ≤ 13 + 4 * g.blocks := by
  unfold nextBlock
  split
  · have := toGo_afterBlocks_le g none
    omega
  · simp only [toGo]
    omega

theorem toGo_startGrowth_le (strategy : Strategy ε) (origin : Origin) (blocks : Nat) :
    (startGrowth strategy origin blocks).toGo ≤ 13 + 4 * blocks := by
  unfold startGrowth
  split
  · exact toGo_nextBlock_le _
  · exact Nat.le_trans (toGo_afterBlocks_le _ _) (by omega)

theorem toGo_afterReservation_lt (strategy : Strategy ε) (g : Growth) (granted : Bool) :
    (afterReservation strategy g granted).toGo < (reserve g).toGo := by
  have hlength : strategy.reservations.length ≤ 2 := by
    unfold Strategy.reservations
    split <;> simp
  unfold afterReservation
  split
  · simp only [toGo]
    omega
  · split
    · dsimp only
      split
      · simp only [toGo]
        omega
      · simp only [toGo]
        omega
    · exact Nat.lt_of_le_of_lt (toGo_afterBlocks_le _ _) (by simp only [toGo]; omega)

section

variable {id : PoolId} {granted : Bool} {m m' : Memory ε} {p p' : Pool ε} {c c' : Call}
  {e : Option Event}

/-- With each step a call comes nearer to its end, but where it looks for a slot and finds none. -/
theorem step_toGo (h : c.step id granted m p = (m', p', e, c')) (hc : c.outcome? = none) :
    c'.toGo < c.toGo ∨ (c = popOne ∧ c' = claimGrowth ∧ p.free.isEmpty = true ∧ p' = p) := by
  cases c with
  | popOne =>
    simp only [step, Stack.pop] at h
    cases hhead : p.free.head with
    | none =>
      simp only [hhead] at h
      obtain ⟨-, rfl, -, rfl⟩ := h
      exact .inr ⟨rfl, rfl, by simp [Stack.isEmpty, hhead], rfl⟩
    | some s =>
      simp only [hhead] at h
      obtain ⟨-, -, -, rfl⟩ := h
      exact .inl (by simp [toGo])
  | claimGrowth =>
    refine .inl ?_
    simp only [step] at h
    split at h
    · obtain ⟨-, -, -, rfl⟩ := h
      decide
    · obtain ⟨-, -, -, rfl⟩ := h
      exact Nat.lt_of_le_of_lt (toGo_startGrowth_le _ _ _) (by decide)
  | popMany count =>
    refine .inl ?_
    by_cases hcount : count ≤ p.free.length
    · simp only [step, hcount, if_true] at h
      split at h
      all_goals
        obtain ⟨-, -, -, rfl⟩ := h
        simp only [toGo]
        omega
    · simp only [step, hcount, if_false] at h
      obtain ⟨-, -, -, rfl⟩ := h
      split
      · rename_i blocks hblocks
        have hle := GrowthPolicy.blocksFor_le p.strategy.blockSize_pos hblocks
        have hdiv := Nat.div_le_self (count - p.free.length) p.strategy.blockSize
        refine Nat.lt_of_le_of_lt (toGo_startGrowth_le _ _ _) ?_
        simp only [toGo]
        omega
      · exact Nat.lt_of_le_of_lt (toGo_afterBlocks_le _ _) (by simp only [toGo]; omega)
  | reserve g =>
    obtain ⟨-, -, -, rfl⟩ := h
    exact .inl (toGo_afterReservation_lt p.strategy g granted)
  | build g =>
    obtain ⟨-, -, -, rfl⟩ := h
    refine .inl ?_
    simp only [nextBlock]
    split
    · exact Nat.lt_of_le_of_lt (toGo_afterBlocks_le _ _) (by simp only [toGo]; omega)
    · simp only [toGo]
      omega
  | noteGrowth g fault allocated =>
    obtain ⟨-, -, -, rfl⟩ := h
    exact .inl (Nat.lt_succ_of_le (toGo_afterGrowth_le g fault))
  | unclaim fault =>
    obtain ⟨-, -, -, rfl⟩ := h
    cases fault <;> exact .inl (by simp [toGo])
  | carve count deficit taken fresh =>
    simp only [step] at h
    split at h
    · obtain ⟨-, -, -, rfl⟩ := h
      split <;> exact .inl (by simp [toGo])
    · obtain ⟨-, -, -, rfl⟩ := h
      exact .inl (by simp [toGo])
  | cleanOne s =>
    simp only [step] at h
    split at h <;>
      obtain ⟨-, -, -, rfl⟩ := h <;> exact .inl (by simp [toGo])
  | cleanMany st =>
    simp only [step] at h
    split at h
    · obtain ⟨-, -, -, rfl⟩ := h
      exact .inl (by simp [toGo])
    · split at h <;>
        obtain ⟨-, -, -, rfl⟩ := h <;> exact .inl (by simp [toGo])
  | observe left seen =>
    refine .inl ?_
    cases left <;>
      obtain ⟨-, -, -, rfl⟩ := h
    · exact Nat.one_pos
    · simp [toGo]
  | finished o => simp [outcome?] at hc
  | _ =>
    obtain ⟨-, -, -, rfl⟩ := h
    exact .inl (by simp [toGo])

/-! ## Looking for a slot -/

/-- The call looks for one slot and has not found it. -/
structure Seeks (c : Call) : Prop where
  want : c.want? = some .one
  toGo : 2 ≤ c.toGo

/-- A step of a call that looks for a slot and has still not found it. -/
inductive SeekStep (p p' : Pool ε) : Call → Call → Prop where
  | miss (hempty : p.free.isEmpty = true) (hp : p' = p) : SeekStep p p' popOne claimGrowth
  | yield (hraised : p.growing = true) (hp : p' = p) : SeekStep p p' claimGrowth countBackoff
  | back (hfree : p'.free = p.free) (hflag : p'.growing = p.growing) :
      SeekStep p p' countBackoff noteBackoff
  | retry (hp : p' = p) : SeekStep p p' noteBackoff popOne
  | claim {c' : Call} (hlow : p.growing = false) (hhigh : p'.growing = true)
      (hfree : p'.free = p.free) (hguards : c'.guards = true) (hahead : 4 ≤ c'.toGo) :
      SeekStep p p' claimGrowth c'
  | grow {c c' : Call} (hguards : c.guards = true) (hguards' : c'.guards = true)
      (hahead : 4 ≤ c'.toGo) (hfree : p'.free = p.free) (hflag : p'.growing = p.growing) :
      SeekStep p p' c c'
  | publish (fresh : Stack) (hfree : p'.free.isEmpty = false) (hflag : p'.growing = p.growing) :
      SeekStep p p' (publish fresh none) (unclaim none)
  | lower (hfree : p'.free = p.free) (hlow : p'.growing = false) :
      SeekStep p p' (unclaim none) popOne

theorem Continues.ahead {g : Growth} (h : Continues g c) (hg : g.origin.isSingle = true) :
    c.guards = true ∧ 4 ≤ c.toGo := by
  refine ⟨h.guards_eq.trans hg, ?_⟩
  obtain ⟨origin, blocks, granted, fresh⟩ := g
  cases origin with
  | bulk => cases hg
  | single =>
    cases h with
    | afterGrowth fault => exact Nat.le_refl 4
    | _ =>
      simp only [toGo]
      omega

theorem isSingle_of_want {origin : Origin} (h : some origin.want = some .one) :
    origin.isSingle = true := by
  cases origin with
  | single => rfl
  | bulk => cases h

theorem step_seek (h : c.step id granted m p = (m', p', e, c')) (hc : c.Seeks) (hc' : c'.Seeks)
    (hlone : c.guards = true → c.Lone p.blockSize) (hsound : ∀ q ∈ c.pieces, q.Sound m) :
    SeekStep p p' c c' := by
  obtain ⟨hwant, htoGo⟩ := hc
  cases c with
  | popOne =>
    obtain hless | ⟨-, rfl, hempty, rfl⟩ := step_toGo h rfl
    · exact absurd hc'.toGo (Nat.not_le_of_lt hless)
    · exact .miss hempty rfl
  | claimGrowth =>
    simp only [step] at h
    split at h
    · rename_i hraised
      obtain ⟨-, rfl, -, rfl⟩ := h
      exact .yield hraised rfl
    · rename_i hlow
      obtain ⟨-, rfl, -, rfl⟩ := h
      obtain ⟨hguards, hahead⟩ := (continues_startGrowth p.strategy .single 1).ahead rfl
      exact .claim (by simpa using hlow) rfl rfl hguards hahead
  | countBackoff =>
    obtain ⟨-, rfl, -, rfl⟩ := h
    exact .back rfl rfl
  | noteBackoff =>
    obtain ⟨-, rfl, -, rfl⟩ := h
    exact .retry rfl
  | reserve g =>
    obtain ⟨-, rfl, -, rfl⟩ := h
    have hg := isSingle_of_want hwant
    obtain ⟨hguards, hahead⟩ := (continues_afterReservation p.strategy g granted).ahead hg
    exact .grow hg hguards hahead rfl rfl
  | build g =>
    obtain ⟨-, rfl, -, rfl⟩ := h
    have hg := isSingle_of_want hwant
    obtain ⟨hguards, hahead⟩ := (continues_nextBlock (buildBlock id p.strategy m g).2).ahead hg
    exact .grow hg hguards hahead rfl rfl
  | countSlots g fault | countGrowth g fault _ | countBlocks g fault _ =>
    obtain ⟨-, rfl, -, rfl⟩ := h
    cases fault with
    | none => exact .grow (isSingle_of_want hwant) (isSingle_of_want hwant) (by simp [toGo]) rfl rfl
    | some error => cases hwant
  | noteGrowth g fault allocated =>
    obtain ⟨-, rfl, -, rfl⟩ := h
    cases fault with
    | none =>
      have hg := isSingle_of_want hwant
      obtain ⟨origin, blocks, made, fresh⟩ := g
      cases origin with
      | single => exact .grow hg rfl (Nat.le_refl 4) rfl rfl
      | bulk => cases hg
    | some error => cases hwant
  | publish fresh fault =>
    obtain ⟨-, rfl, -, rfl⟩ := h
    cases fault with
    | none =>
      have hspans : fresh.Spans m (fresh.slots m) := hsound (.chain fresh) List.mem_cons_self
      have hlength : fresh.length = p.blockSize := hlone rfl
      exact .publish fresh (Stack.isEmpty_append hspans (hlength ▸ p.strategy.blockSize_pos)) rfl
    | some error => cases hwant
  | unclaim fault =>
    obtain ⟨-, rfl, -, rfl⟩ := h
    cases fault with
    | none => exact .lower rfl rfl
    | some error => cases hwant
  | finished o => exact absurd htoGo (by simp [toGo])
  | countAcquired => exact absurd htoGo (by simp [toGo])
  | _ => cases hwant

/-! ## What is left to do -/

/-- Steps that a call has to take, where all that it takes to find a slot are one. -/
def budget (c : Call) : Nat := (if c.want? = some .one then min c.toGo 2 else c.toGo) + 1

theorem Seeks.outcome?_eq (h : c.Seeks) : c.outcome? = none := by
  cases c with
  | finished o => exact absurd h.toGo (Nat.not_succ_le_zero 1)
  | _ => rfl

theorem Lone.toGo_le {blockSize : Nat} (h : c.Lone blockSize) : c.toGo ≤ 17 := by
  cases c with
  | reserve g =>
    obtain ⟨-, hblocks, -⟩ := h
    simp only [toGo, hblocks]
    omega
  | build g =>
    obtain ⟨-, hblocks, -⟩ := h
    simp only [toGo, hblocks]
    omega
  | popMany => exact h.elim
  | claimGrowth => exact h.elim
  | observe => exact h.elim
  | _ => simp [toGo]

theorem Seeks.toGo_le {blockSize : Nat} (h : c.Seeks)
    (hlone : c.guards = true → c.Lone blockSize) : c.toGo ≤ 18 := by
  cases hguards : c.guards with
  | true => exact Nat.le_succ_of_le (hlone hguards).toGo_le
  | false =>
    have hwant := h.want
    cases c with
    | reserve g => exact absurd (isSingle_of_want hwant) (by simpa [guards] using hguards)
    | build g => exact absurd (isSingle_of_want hwant) (by simpa [guards] using hguards)
    | popMany count => cases hwant
    | observe left seen => cases hwant
    | _ => simp [Call.toGo]

theorem Seeks.budget_eq (h : c.Seeks) : c.budget = 3 := by
  rw [budget, if_pos h.want, Nat.min_eq_right h.toGo]

theorem Returns.want?_eq {n : Nat} (hn : c.Returns n) : c.want? = none := by
  cases hn <;> rfl

theorem budget_step (hwant : c'.want? = some .one ↔ c.want? = some .one)
    (h : c'.toGo < c.toGo ∨ c = popOne ∧ c' = claimGrowth) :
    c'.budget < c.budget ∨ c.Seeks ∧ c'.Seeks := by
  obtain hless | ⟨rfl, rfl⟩ := h
  · by_cases hone : c.want? = some .one
    · by_cases hahead : 2 ≤ c'.toGo
      · exact .inr ⟨⟨hone, by omega⟩, hwant.2 hone, hahead⟩
      · refine .inl ?_
        simp only [budget, if_pos hone, if_pos (hwant.2 hone)]
        omega
    · refine .inl ?_
      simp only [budget, if_neg hone, if_neg (mt hwant.1 hone)]
      omega
  · exact .inr ⟨⟨rfl, by decide⟩, rfl, by decide⟩

end

end Call

/-- Steps that a thread takes for a command at most, where all that it takes to find a slot are
one. -/
def Command.cost : Command ε → Nat
  | .acquire .. => 5
  | .acquireStack _ count _ _ => 4 * count.getD 0 + 21
  | .release .. => 6
  | _ => 2

/-- Steps that a thread has still to take, where all that it takes to find a slot are one. -/
def Thread.budget (t : Thread ε) : Nat :=
  t.due Command.cost Call.budget + t.current.isSome.toNat + (t.work.rounds - t.begun)

namespace Cli.Stress

section

variable {batch : Nat} {v : Int} {rest : List Client} {d : Duty Int} {s s₀ : Stage}
  {item : ItemType Int} {a : Arena Int} {rs : Registers} {p : Pool Int} {t : Thread Int}
  {granted : Bool}

theorem Leads.start_due (hd : Leads batch v s₀ d s) (hh : s₀.Holds batch v a.memory rs)
    (hp : a.pool? ⟨0⟩ = some p) (hitem : item.buffered = false) :
    (Session.start ⟨item, a, rs⟩ d.command).2.due Call.budget + 2 ≤ d.command.cost := by
  cases hd with
  | acquire =>
    rw [start_acquire hp hitem]
    exact Nat.le_refl 5
  | look =>
    obtain ⟨sl, rfl, -⟩ := hh
    exact Nat.le_refl 2
  | release =>
    obtain ⟨sl, rfl, -⟩ := hh
    rw [start_release hp]
    exact Nat.le_refl 6
  | acquireStack =>
    rw [start_acquireStack hp]
    simp [Execution.call, Execution.due, Call.budget, Call.want?, Call.toGo, Command.cost]
    omega
  | write =>
    obtain ⟨st, rfl, -⟩ := hh
    exact Nat.le_refl 2
  | count =>
    obtain ⟨st, rfl, -⟩ := hh
    exact Nat.le_refl 2
  | releaseStack =>
    obtain ⟨st, rfl, -⟩ := hh
    rw [start_releaseStack hp]
    exact Nat.le_refl 6

/-- The step from the call `e` to the call `e'` leaves a thread looking for a slot. -/
structure Lingers (a a' : Arena Int) (granted : Bool) (e e' : Option (PoolId × Call))
    (c c' : Call) : Prop where
  before : e = some (⟨0⟩, c)
  after : e' = some (⟨0⟩, c')
  seeks : c.Seeks
  seeks' : c'.Seeks
  step : a.step ⟨0⟩ granted c = (a', c')

theorem due_calling {c : Call} {made : Nat} {sequel : Sequel Int} (hp : a.pool? ⟨0⟩ = some p)
    (hc : c.outcome? = none)
    (hwant : (a.step ⟨0⟩ granted c).2.want? = some .one ↔ c.want? = some .one) :
    (Session.advance ⟨item, a, rs⟩ granted (.calling ⟨0⟩ ⟨c, made⟩ sequel)).2.due Call.budget <
        c.budget ∨
      ∃ c', Lingers a (Session.advance ⟨item, a, rs⟩ granted
          (.calling ⟨0⟩ ⟨c, made⟩ sequel)).1.arena granted (some (⟨0⟩, c))
        (Session.advance ⟨item, a, rs⟩ granted (.calling ⟨0⟩ ⟨c, made⟩ sequel)).2.call? c c' := by
  obtain ⟨p', e, hstep, -⟩ := Arena.exists_pool_of_step hp granted c
  simp only [Session.advance, hc]
  obtain hless | ⟨hseeks, hseeks'⟩ := Call.budget_step hwant
    ((Call.step_toGo hstep hc).imp id fun h => ⟨h.1, h.2.1⟩)
  · exact .inl hless
  · exact .inr ⟨_, rfl, rfl, hseeks, hseeks', rfl⟩

theorem Errand.advance_due {e : Execution Int} (he : Errand batch v a.memory rs d s e)
    (hp : a.pool? ⟨0⟩ = some p) (hcurrent : ∀ answer, e ≠ .finished answer)
    (he' : Errand batch v (Session.advance ⟨item, a, rs⟩ granted e).1.arena.memory
      (Session.advance ⟨item, a, rs⟩ granted e).1.registers d s
      (Session.advance ⟨item, a, rs⟩ granted e).2) :
    (Session.advance ⟨item, a, rs⟩ granted e).2.due Call.budget < e.due Call.budget ∨
      ∃ c c', Lingers a (Session.advance ⟨item, a, rs⟩ granted e).1.arena granted e.call?
        (Session.advance ⟨item, a, rs⟩ granted e).2.call? c c' := by
  cases he with
  | answered hh hj => exact absurd rfl (hcurrent _)
  | @one c made hr hw =>
    cases ho : c.outcome? with
    | none =>
      refine (due_calling hp ho ?_).imp id (Exists.intro c)
      -- What the call wants is known from the errand, before the step and after it.
      simp only [Session.advance, ho] at he'
      cases he' with
      | one made hr' hw' => exact ⟨fun _ => hw, fun _ => hw'⟩
    | some o =>
      obtain rfl := Session.eq_finished ho
      obtain ⟨sl, rfl⟩ := Call.acquired_one hw
      subst hr
      exact .inl Nat.one_pos
  | @many c made hr hw =>
    cases ho : c.outcome? with
    | none =>
      refine (due_calling hp ho ?_).imp id (Exists.intro c)
      simp only [Session.advance, ho] at he'
      cases he' with
      | many made hr' hw' => simp [hw, hw']
    | some o =>
      obtain rfl := Session.eq_finished ho
      obtain ⟨st, rfl, -⟩ := Call.acquired_many hw
      subst hr
      exact .inl (Nat.succ_pos _)
  | @giving c made n hr hn =>
    cases ho : c.outcome? with
    | none =>
      refine (due_calling hp ho ?_).imp id (Exists.intro c)
      simp only [Session.advance, ho] at he'
      cases he' with
      | giving made n' hr' hn' => simp [hn.want?_eq, hn'.want?_eq]
    | some o =>
      obtain rfl := Session.eq_finished ho
      cases hn
      exact .inl (Nat.succ_pos _)

theorem Lingers.due_eq {a' : Arena Int} {e e' : Execution Int} {c c' : Call}
    (h : Lingers a a' granted e.call? e'.call? c c') : e'.due Call.budget = e.due Call.budget := by
  have hdue : ∀ {e : Execution Int} {c : Call}, e.call? = some (⟨0⟩, c) → c.Seeks →
      e.due Call.budget = 3 := by
    intro e c he hc
    cases e with
    | finished answer => cases he
    | calling id progress sequel =>
      obtain ⟨-, rfl⟩ : id = ⟨0⟩ ∧ progress.call = c := by simpa [Execution.call?] using he
      exact hc.budget_eq
  rw [hdue h.before h.seeks, hdue h.after h.seeks']

theorem OnCourse.pace (h : OnCourse batch a.memory t)
    (hhas : World.Has rest a t.registers.things t.call?) (hsize : a.pools.size ≤ 1)
    (hp : a.pool? ⟨0⟩ = some p) (hwidth : p.strategy.shape.width = 1)
    (hitem : item.buffered = false) (hserved : t.Served a granted) (hdone : t.isDone = false) :
    (t.step item granted a).2.budget < t.budget ∨
      (t.step item granted a).2.budget = t.budget ∧
        ∃ c c', Lingers a (t.step item granted a).1 granted t.call?
          (t.step item granted a).2.call? c c' := by
  obtain ⟨work, registers, begun, left, current, complaint⟩ := t
  obtain ⟨hrounds, hcontent, hcourse⟩ := h
  obtain rfl : complaint = none := hcontent
  unfold Thread.step
  rw [if_neg (by simp [hdone])]
  cases hcourse with
  | between v s hh hl =>
    refine .inl ?_
    cases left with
    | nil =>
      have hmore : begun < work.rounds := by simpa [Thread.isDone] using hdone
      simp only [Thread.budget, Thread.due, Thread.later_succ Command.cost hmore]
      simp
      omega
    | cons d left =>
      obtain ⟨s', hd, -⟩ := hl
      have hdue : (Session.start ⟨item, a, registers⟩ d.command).2.due Call.budget + 2 ≤
          d.command.cost := hd.start_due hh hp hitem
      simp only [Thread.budget, Thread.due, Thread.later_cons, Option.elim_some, Option.elim_none,
        Option.isSome_some, Option.isSome_none, Bool.toNat_true, Bool.toNat_false]
      omega
  | about v s₀ s d e hd he hl =>
    have hgoes := he.advance hhas hsize hp hwidth hd.complaint_done (hserved.of_call rfl hp) item
    cases e with
    | finished answer =>
      refine .inl ?_
      simp only [Thread.budget, Thread.due, Option.elim_some, Option.elim_none, Execution.due,
        Option.isSome_some, Option.isSome_none, Bool.toNat_true, Bool.toNat_false]
      omega
    | calling id progress sequel =>
      obtain hless | ⟨c, c', hlingers⟩ := he.advance_due hp (by simp) hgoes.errand
      · refine .inl ?_
        simp only [Thread.budget, Thread.due, Option.elim_some]
        exact Nat.add_lt_add_right (Nat.add_lt_add_right (Nat.add_lt_add_right hless _) _) _
      · refine .inr ⟨?_, c, c', hlingers⟩
        have hdue := hlingers.due_eq
        simp only [Thread.budget, Thread.due, Option.elim_some]
        rw [hdue]
        rfl

end

end Cli.Stress

end SlotPool
