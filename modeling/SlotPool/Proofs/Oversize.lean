import SlotPool.Proofs.Faults
import SlotPool.Proofs.Setbacks

/-!
# Requests for more than can be addressed

A request for more than an object may span is turned down as that, before anything is reserved or
built; a request for less never is, and the allocator is asked for nothing that cannot be addressed.
So it is only where the allocator refuses that a call reports to be out of memory.
-/

namespace SlotPool

open Memory

variable {ε : Type}

/-! ## From step to step -/

namespace World

theorem Reachable.asks {w : World ε} (h : w.Reachable) {id : PoolId} {p : Pool ε}
    (hp : w.arena.pool? id = some p) {c : Call} (hc : c.IsRequest) :
    Underway id c [] w [] c := by
  obtain ⟨a, clients, losses⟩ := w
  have hasked := (h.step (.join a clients losses)).step (.client a a _ clients {} _ losses {}
    (List.Perm.refl _) (.ask a [] id p c hp hc))
  simp only [List.append_nil] at hasked
  exact .start hasked (List.Perm.refl _)

namespace Underway

variable {id : PoolId} {c₀ c : Call} {strides : List (Stride ε)} {w w' : World ε}
  {held : List Held} {p : Pool ε}

theorem others_sameSetup (h : Underway id c₀ strides w held c) (hs : w.Step w')
    (hp : w.arena.pool? id = some p) :
    ∃ p', w'.arena.pool? id = some p' ∧ p.SameSetup p' := by
  obtain ⟨clients, hr, hperm⟩ := h.exists_reachable
  obtain ⟨clients', hs', -⟩ := hs.beside _ hperm
  exact step_sameSetup (whole_of_reachable hr) hs' hp

/-- What holds when the call begins, what its own steps keep, and what is kept as long as its pool
is set up as it was, holds all along. -/
theorem keeps {P : List (Stride ε) → Pool ε → Call → Prop} (hstart : ∀ q, P [] q c₀)
    (hown : ∀ strides (a a' : Arena ε) rest losses losses' held c c' q q' granted e,
      Underway id c₀ strides ⟨a, rest, losses⟩ held c →
      Underway id c₀ (strides ++ [⟨a.memory, q, a'.memory, q'⟩]) ⟨a', rest, losses'⟩ held c' →
      a.pool? id = some q → c.step id granted a.memory q = (a'.memory, q', e, c') →
      P strides q c → P (strides ++ [⟨a.memory, q, a'.memory, q'⟩]) q' c')
    (hsetup : ∀ strides q q' c, q.SameSetup q' → P strides q c → P strides q' c)
    (h : Underway id c₀ strides w held c) (hp : w.arena.pool? id = some p) : P strides p c := by
  induction h generalizing p with
  | start h hc => exact hstart p
  | @own strides a a' rest losses held c c' q q' granted h hc hq hs hq' ih =>
    obtain rfl : q' = p := Option.some.inj (hq'.symm.trans hp)
    obtain ⟨q₁, e, hstep, hpools⟩ := Arena.step_eq hq hs
    obtain rfl : q₁ = q' := by simpa [Arena.pool?_set hq hpools] using hq'
    exact hown _ _ _ _ _ _ _ _ _ _ _ _ _ h (h.own granted hc hq hs hq') hq hstep (ih hq)
  | @others strides w w' held c h hs ih =>
    obtain ⟨q, hq⟩ := h.has.exists_pool
    obtain ⟨q', hq', hsame⟩ := h.others_sameSetup hs hq
    obtain rfl : q' = p := Option.some.inj (hq'.symm.trans hp)
    exact hsetup _ _ _ _ hsame (ih hq)
  | gives x taker h hh hc ih => exact ih hp
  | takes x giver h hc hh ih => exact ih hp

theorem eq_of_nil (h : Underway id c₀ strides w held c) (hnil : strides = []) : c = c₀ := by
  induction h with
  | start h hc => rfl
  | own granted h hc hp hs hp' ih => simp at hnil
  | others h hs ih => exact ih hnil
  | gives x taker h hh hc ih => exact ih hnil
  | takes x giver h hc hh ih => exact ih hnil

theorem growth_fits (h : Underway id c₀ strides w held c) (hp : w.arena.pool? id = some p)
    (hw : p.strategy.Weighs) {g : Growth} (hg : c.growth? = some g) :
    p.strategy.Fits g.blocks := by
  obtain ⟨clients, hr, hperm⟩ := h.exists_reachable
  exact fits_of_reachable hr (hperm.mem_iff.2 List.mem_cons_self) rfl hp hw hg

end Underway

end World

/-! ## A call for many slots -/

/-- What has come up in a call for `count` slots, whose first step found `found` of them free, when
it has done these steps. -/
structure Call.ManyJudged (p : Pool ε) (count found : Nat) (strides : List (Stride ε)) (c : Call) :
    Prop where
  exceeded : found < count → p.Exceeded (count - found) →
    c.fault? = some (p.overflow (count - found)) ∧ c.growth? = none ∧
      Measure.blocks.gain strides = 0
  fits : ¬ (found < count ∧ p.Exceeded (count - found)) →
    ∀ blocks size, c.fault? ≠ some (.capacityOverflow blocks size)

theorem Pool.exceeded_sameSetup {p p' : Pool ε} (h : p.SameSetup p') {deficit : Nat} :
    p'.Exceeded deficit ↔ p.Exceeded deficit := by
  rw [Exceeded, Exceeded, blockSize, blockSize, h.strategy, h.policy]

theorem Pool.overflow_sameSetup {p p' : Pool ε} (h : p.SameSetup p') (deficit : Nat) :
    p'.overflow deficit = p.overflow deficit := by
  rw [overflow, overflow, blockSize, blockSize, h.strategy, h.policy]

namespace Call

variable {id : PoolId} {granted : Bool} {m m' : Memory ε} {p p' : Pool ε} {c c' : Call}
  {e : Option Event} {count found : Nat} {strides : List (Stride ε)}

theorem ManyJudged.sameSetup (h : c.ManyJudged p count found strides) (hs : p.SameSetup p') :
    c.ManyJudged p' count found strides := by
  constructor
  · intro hshort hover
    rw [Pool.overflow_sameSetup hs]
    exact h.exceeded hshort ((Pool.exceeded_sameSetup hs).1 hover)
  · intro hfits
    rw [Pool.exceeded_sameSetup hs] at hfits
    exact h.fits hfits

theorem ManyJudged.outcome_iff (h : c.ManyJudged p count found strides) {o : Outcome}
    (hc : c.outcome? = some o) :
    (∃ blocks size, o = .failed (.capacityOverflow blocks size)) ↔
      found < count ∧ p.Exceeded (count - found) := by
  constructor
  · rintro ⟨blocks, size, rfl⟩
    by_contra hnot
    exact h.fits hnot blocks size (fault?_of_outcome hc)
  · rintro ⟨hshort, hover⟩
    exact ⟨_, _, outcome_of_fault (h.exceeded hshort hover).1 hc⟩

theorem popMany_judged (h : (popMany count).step id granted m p = (m', p', e, c'))
    (hw : p.strategy.Weighs) :
    c'.ManyJudged p count p.available [⟨m, p, m', p'⟩] := by
  obtain ⟨hover, hfits⟩ := popMany_fault h hw
  constructor
  · intro hshort hexceeded
    have herror := hover ⟨hshort, hexceeded⟩
    refine ⟨herror, growth?_of_fault herror, ?_⟩
    simp [Measure.gain, Measure.read, step_blocks h fun g => Call.noConfusion]
  · intro hnot blocks size
    rw [hfits hnot]
    simp

theorem ManyJudged.step (hj : c.ManyJudged p count found strides)
    (h : c.step id granted m p = (m', p', e, c')) (hclaim : c ≠ claimGrowth)
    (hmany : ∀ n, c ≠ popMany n) :
    c'.ManyJudged p count found (strides ++ [⟨m, p, m', p'⟩]) := by
  have hfault := step_fault h hclaim hmany
  constructor
  · intro hshort hexceeded
    obtain ⟨herror, hgrowth, hgain⟩ := hj.exceeded hshort hexceeded
    have herror' : c'.fault? = some (p.overflow (count - found)) := by
      obtain hsame | ⟨error, -, ⟨g, r, hr⟩⟩ := hfault
      · exact hsame.trans herror
      · simp [growth?] at hgrowth
    refine ⟨herror', growth?_of_fault herror', ?_⟩
    have hblocks := step_blocks h fun g hg => by simp [hg, growth?] at hgrowth
    simp [Measure.gain_concat, hgain, Measure.read, hblocks]
  · intro hnot blocks size hc'
    obtain hsame | ⟨error, hnew, ⟨g, r, hr⟩⟩ := hfault
    · exact hj.fits hnot blocks size (hsame.symm.trans hc')
    · simp [hnew, Reservation.error] at hc'

end Call

namespace World.Underway

variable {id : PoolId} {strides : List (Stride ε)} {w : World ε} {held : List Held} {c : Call}
  {p : Pool ε}

theorem many_judged {count : Nat} (h : Underway id (.popMany count) strides w held c)
    (hp : w.arena.pool? id = some p) (hw : p.strategy.Weighs) (hbegun : strides ≠ []) :
    c.ManyJudged p count (Stride.found strides).length strides := by
  refine h.keeps (P := fun strides q c => q.strategy.Weighs → strides ≠ [] →
    c.ManyJudged q count (Stride.found strides).length strides) (fun q _ hne => absurd rfl hne)
    (fun strides a a' rest losses losses' held c c' q q' granted e h h' hq hstep ih hw _ => ?_)
    (fun strides q q' c hs ih hw hne => (ih (hs.strategy ▸ hw) hne).sameSetup hs) hp hw hbegun
  have hsetup := Call.step_sameSetup hstep
  rw [hsetup.strategy] at hw
  refine Call.ManyJudged.sameSetup ?_ hsetup
  by_cases hnil : strides = []
  · obtain rfl := h.eq_of_nil hnil
    subst hnil
    obtain ⟨clients, hr, -⟩ := h.exists_reachable
    have hfound : (Stride.found [⟨a.memory, q, a'.memory, q'⟩]).length = q.available :=
      (free_spans hr hq).length.symm
    rw [List.nil_append, hfound]
    exact Call.popMany_judged hstep hw
  · rw [Stride.found_concat hnil]
    have hbulk := h.bulk hq
    refine (ih hw hnil).step hstep ?_ ?_
    · rintro rfl
      exact hbulk
    · rintro n rfl
      exact hnil hbulk.2

end World.Underway

/-! ## A call for one slot -/

namespace Call

/-- A call for one slot on its way, where no block can be addressed. -/
inductive Unserved (size : Nat) : Call → Prop where
  | popOne : Unserved size .popOne
  | claimGrowth : Unserved size .claimGrowth
  | countBackoff : Unserved size .countBackoff
  | noteBackoff : Unserved size .noteBackoff
  | failing {c : Call} (h : c.fault? = some (.capacityOverflow 1 size)) : Unserved size c

variable {id : PoolId} {granted : Bool} {m m' : Memory ε} {p p' : Pool ε} {c c' : Call}
  {e : Option Event}

theorem Unserved.growth?_eq {size : Nat} (h : c.Unserved size) : c.growth? = none := by
  cases h with
  | failing h => exact growth?_of_fault h
  | _ => rfl

theorem Unserved.outcome {size : Nat} (h : c.Unserved size) {o : Outcome}
    (hc : c.outcome? = some o) : o = .failed (.capacityOverflow 1 size) := by
  cases h with
  | failing h => exact outcome_of_fault h hc
  | _ => simp [outcome?] at hc

theorem Unserved.step (hu : c.Unserved p.blockSize) (h : c.step id granted m p = (m', p', e, c'))
    (hfree : p.free.Spans m []) (hw : p.strategy.Weighs) (hover : p.strategy.Exceeds 1) :
    c'.Unserved p.blockSize := by
  cases hu with
  | popOne =>
    simp only [Call.step, Stack.pop_of_nil hfree, Prod.mk.injEq] at h
    obtain ⟨-, -, -, rfl⟩ := h
    exact .claimGrowth
  | claimGrowth =>
    obtain ⟨hraised, hlow, -⟩ := claimGrowth_fault h hw
    cases hgrowing : p.growing with
    | true =>
      rw [hraised hgrowing]
      exact .countBackoff
    | false => exact .failing (hlow hgrowing hover)
  | countBackoff =>
    obtain ⟨-, -, -, rfl⟩ := h
    exact .noteBackoff
  | noteBackoff =>
    obtain ⟨-, -, -, rfl⟩ := h
    exact .popOne
  | failing hc =>
    have hclaim : c ≠ Call.claimGrowth := by
      rintro rfl
      simp [fault?] at hc
    have hmany : ∀ n, c ≠ popMany n := by
      rintro n rfl
      simp [fault?] at hc
    have hgrowth := growth?_of_fault hc
    obtain hsame | ⟨error, -, ⟨g, r, hr⟩⟩ := step_fault h hclaim hmany
    · exact .failing (hsame.trans hc)
    · simp [growth?] at hgrowth

/-- What has come up in a call for one slot when it has done these steps. -/
structure OneJudged (p : Pool ε) (strides : List (Stride ε)) (c : Call) : Prop where
  exceeded : p.strategy.Exceeds 1 → c.Unserved p.blockSize ∧ Measure.blocks.gain strides = 0
  fits : ¬ p.strategy.Exceeds 1 → (∀ count, c ≠ .popMany count) ∧
    ∀ blocks size, c.fault? ≠ some (.capacityOverflow blocks size)

theorem OneJudged.sameSetup {strides : List (Stride ε)} (h : c.OneJudged p strides)
    (hs : p.SameSetup p') : c.OneJudged p' strides := by
  constructor
  · rw [hs.strategy, Pool.blockSize, hs.strategy]
    exact h.exceeded
  · rw [hs.strategy]
    exact h.fits

theorem OneJudged.step {strides : List (Stride ε)} (hj : c.OneJudged p strides)
    (h : c.step id granted m p = (m', p', e, c')) (hw : p.strategy.Weighs)
    (hfree : p.strategy.Exceeds 1 → p.free.Spans m []) :
    c'.OneJudged p (strides ++ [⟨m, p, m', p'⟩]) := by
  constructor
  · intro hover
    obtain ⟨hunserved, hgain⟩ := hj.exceeded hover
    have hgrowth := hunserved.growth?_eq
    have hblocks := step_blocks h fun g hg => by simp [hg, growth?] at hgrowth
    refine ⟨hunserved.step h (hfree hover) hw hover, ?_⟩
    simp [Measure.gain_concat, hgain, Measure.read, hblocks]
  · intro hfits
    obtain ⟨hmany, hfault⟩ := hj.fits hfits
    refine ⟨step_ne_popMany h, fun blocks size hc' => ?_⟩
    by_cases hclaim : c = Call.claimGrowth
    · subst hclaim
      rw [(claimGrowth_fault h hw).2.2 hfits] at hc'
      simp at hc'
    · obtain hsame | ⟨error, hnew, ⟨g, r, hr⟩⟩ := step_fault h hclaim hmany
      · exact hfault blocks size (hsame.symm.trans hc')
      · simp [hnew, Reservation.error] at hc'

end Call

namespace World

theorem free_of_exceeds {w : World ε} (h : w.Reachable) {id : PoolId} {p : Pool ε}
    (hp : w.arena.pool? id = some p) (hw : p.strategy.Weighs) (hover : p.strategy.Exceeds 1) :
    p.free.Spans w.memory [] := by
  have hs := free_spans h hp
  have hnone := available_of_exceeds h hp hw hover
  rwa [List.eq_nil_of_length_eq_zero (hs.length.symm.trans hnone)] at hs

theorem Underway.one_judged {id : PoolId} {strides : List (Stride ε)} {w : World ε}
    {held : List Held} {c : Call} {p : Pool ε} (h : Underway id .popOne strides w held c)
    (hp : w.arena.pool? id = some p) (hw : p.strategy.Weighs) : c.OneJudged p strides := by
  refine h.keeps (P := fun strides q c => q.strategy.Weighs → c.OneJudged q strides)
    (fun q _ => ⟨fun _ => ⟨.popOne, rfl⟩, fun _ => ⟨by simp, by simp [Call.fault?]⟩⟩)
    (fun strides a a' rest losses losses' held c c' q q' granted e h h' hq hstep ih hw => ?_)
    (fun strides q q' c hs ih hw => (ih (hs.strategy ▸ hw)).sameSetup hs) hp hw
  have hsetup := Call.step_sameSetup hstep
  rw [hsetup.strategy] at hw
  obtain ⟨clients, hr, -⟩ := h.exists_reachable
  exact ((ih hw).step hstep hw (free_of_exceeds hr hq hw)).sameSetup hsetup

end World

/-! ## Calls that nothing interrupts -/

namespace Call

/-- So many steps, none of which makes a reservation, lead a call from `c` to `c'`. -/
inductive Unasked (id : PoolId) (m' : Memory ε) (p' : Pool ε) (c' : Call) :
    Nat → Memory ε → Pool ε → Call → Prop where
  | done : Unasked id m' p' c' 0 m' p' c'
  | step {n : Nat} {m m₁ : Memory ε} {p p₁ : Pool ε} {e : Option Event} {c c₁ : Call}
      (hc : c.outcome? = none) (hr : c.growth? = none)
      (hs : c.step id true m p = (m₁, p₁, e, c₁)) (h : Unasked id m' p' c' n m₁ p₁ c₁) :
      Unasked id m' p' c' (n + 1) m p c

theorem Unasked.proceed {id : PoolId} {m m' : Memory ε} {p p' : Pool ε} {c : Call} {o : Outcome}
    {n : Nat} (h : Unasked id m' p' (.finished o) n m p c) {a : Arena ε}
    (hp : a.pool? id = some p) (hm : a.memory = m) (allocator : Allocator) {fuel : Nat}
    (hfuel : n ≤ fuel) (made : Nat) :
    ∃ a', a.proceed allocator id (fun _ => false) fuel ⟨c, made⟩ = (a', ⟨.finished o, made⟩) ∧
      a'.memory = m' ∧ ∀ other, a'.pool? other = if other = id then some p' else a.pool? other := by
  induction h generalizing a fuel with
  | done =>
    refine ⟨a, by cases fuel <;> rfl, hm, fun other => ?_⟩
    split
    · rename_i he
      rw [he, hp]
    · rfl
  | @step n m m₁ p p₁ e c c₁ hc hr hs h ih =>
    obtain ⟨k, rfl⟩ : ∃ k, fuel = k + 1 := ⟨fuel - 1, by omega⟩
    obtain ⟨a₁, ha₁, hm₁, hpools₁⟩ := Arena.exists_step hp (hm.symm ▸ hs)
    have hp₁ : a₁.pool? id = some p₁ := by rw [hpools₁, if_pos rfl]
    obtain ⟨a', hend, hm', hpools'⟩ := ih hp₁ hm₁ (Nat.le_of_succ_le_succ hfuel)
    refine ⟨a', ?_, hm', fun other => ?_⟩
    · rw [Arena.proceed_step hp hc (reservation?_of_growth hr _) ha₁]
      exact hend
    · rw [hpools', hpools₁]
      split <;> rfl

end Call

/-- By itself the call comes to this error. No reservation is made for it, and memory and pools stay
as they are. -/
def Arena.TurnsDown (a : Arena ε) (allocator : Allocator) (id : PoolId) (c : Call)
    (error : PoolError) : Prop :=
  ∃ a', a.complete allocator id ⟨c, 0⟩ = (a', ⟨.finished (.failed error), 0⟩) ∧
    a'.memory = a.memory ∧ a'.pools = a.pools

section

variable {a : Arena ε} {id : PoolId} {p : Pool ε} {allocator : Allocator} {c : Call}
  {error : PoolError}

theorem Call.Unasked.turnsDown {n : Nat}
    (h : Unasked id a.memory p (.finished (.failed error)) n a.memory p c)
    (hp : a.pool? id = some p) (allocator : Allocator) (hn : n ≤ 32) :
    a.TurnsDown allocator id c error := by
  have hfuel : n ≤ a.patience id c := Nat.le_trans hn (Nat.le_add_left _ _)
  obtain ⟨a', hend, hm, hpools⟩ := h.proceed hp rfl allocator hfuel 0
  refine ⟨a', hend, hm, Array.ext_getElem? fun i => ?_⟩
  have hpool := hpools ⟨i⟩
  split at hpool
  · rename_i he
    subst he
    exact hpool.trans hp.symm
  · exact hpool

theorem Arena.TurnsDown.completes (h : a.TurnsDown allocator id c error)
    (hp : a.pool? id = some p) :
    ∃ a', a.Completes allocator id c a' p (.failed error) := by
  obtain ⟨a', hend, -, hpools⟩ := h
  have hsame : ∀ other, a'.pool? other = a.pool? other := fun other => by
    rw [Arena.pool?, hpools, Arena.pool?]
  exact ⟨a', ⟨0, hend⟩, (hsame id).trans hp, fun other _ => hsame other⟩

theorem Arena.proceed_sameSetup (hp : a.pool? id = some p) (allocator : Allocator)
    (pause : Call → Bool) (fuel made : Nat) :
    ∃ q, (a.proceed allocator id pause fuel ⟨c, made⟩).1.pool? id = some q ∧ p.SameSetup q := by
  refine Arena.proceed_keeps (P := fun a _ => ∃ q, a.pool? id = some q ∧ p.SameSetup q)
    (fun a c granted _ ⟨q, hq, hsame⟩ => ?_) allocator pause fuel ⟨p, hp, .refl p⟩
  obtain ⟨q', e, -, hq', -, hsame'⟩ := Arena.exists_pool_of_step hq granted c
  exact ⟨q', hq', hsame'.strategy.trans hsame.strategy, hsame'.policy.trans hsame.policy⟩

end

namespace Call

variable {id : PoolId} {m : Memory ε} {p : Pool ε}

theorem noteFailure_unasked (id : PoolId) (hs : p.free.Spans m (p.free.slots m)) (count : Nat)
    (error : PoolError) :
    Unasked id m p (.finished (.failed error)) 2 m { p with free := {} }
      (.noteFailure count p.free {} error) := by
  have hback : Stack.append m {} p.free = (m, p.free) := Stack.append_to_empty hs
  have hrestore : (restore p.free {} error).step id true m { p with free := {} } =
      (m, p, none, .finished (.failed error)) := by
    simp only [step, hback]
    rfl
  exact .step rfl rfl rfl (.step rfl rfl hrestore .done)

theorem popMany_unasked {count : Nat} (hs : p.free.Spans m (p.free.slots m))
    (hw : p.strategy.Weighs) (hshort : p.available < count)
    (hover : p.Exceeded (count - p.available)) :
    Unasked id m p (.finished (.failed (p.overflow (count - p.available)))) 3 m p
      (.popMany count) := by
  have hcount : ¬ count ≤ p.free.length := Nat.not_le_of_lt hshort
  have hfails := noteFailure_unasked id hs count (p.overflow (count - p.available))
  obtain hfor | ⟨blocks, hfor, ha⟩ := hover.found_out hw
  · rw [Pool.overflow_of_none hfor] at hfails ⊢
    exact .step rfl rfl (popMany_step_none id true m hcount hfor) hfails
  · rw [Pool.overflow_of_some hfor] at hfails ⊢
    refine .step rfl rfl (popMany_step_some id true m hcount hfor) ?_
    rw [startGrowth, if_neg (by simp [ha])]
    exact hfails

theorem popOne_unasked (hlow : p.growing = false) (hfree : p.free.Spans m [])
    (hw : p.strategy.Weighs) (hover : p.strategy.Exceeds 1) :
    Unasked id m p (.finished (.failed (.capacityOverflow 1 p.blockSize))) 4 m p .popOne := by
  have hpop : popOne.step id true m p = (m, p, none, claimGrowth) := by
    simp only [step, Stack.pop_of_nil hfree]
  have hnot : ¬ p.strategy.addressable 1 = true := fun ha =>
    (Strategy.addressable_iff hw Nat.one_pos).1 ha hover
  have hclaim : claimGrowth.step id true m p = (m, { p with growing := true }, none,
      .publish {} (some (.capacityOverflow 1 p.blockSize))) := by
    simp only [step, hlow, startGrowth, if_neg hnot]
    rfl
  have hlower : (unclaim (some (.capacityOverflow 1 p.blockSize))).step id true m
      { p with growing := true } =
        (m, p, none, .finished (.failed (.capacityOverflow 1 p.blockSize))) := by
    obtain ⟨strategy, policy, backoffMicros, free, allocated, growing, blocks, counters⟩ := p
    obtain rfl : growing = false := hlow
    rfl
  exact .step rfl rfl hpop (.step rfl rfl hclaim (.step rfl rfl rfl (.step rfl rfl hlower .done)))

end Call

namespace World

variable {w : World ε} {id : PoolId} {p p' : Pool ε} {allocator : Allocator} {a' : Arena ε}
  {blocks size : Nat}

theorem turnsDown_many (h : w.Reachable) (hp : w.arena.pool? id = some p) (hw : p.strategy.Weighs)
    (allocator : Allocator) {count : Nat} (hshort : p.available < count)
    (hover : p.Exceeded (count - p.available)) :
    w.arena.TurnsDown allocator id (.popMany count) (p.overflow (count - p.available)) :=
  (Call.popMany_unasked (free_spans h hp) hw hshort hover).turnsDown hp allocator (by omega)

theorem exceeded_of_overflow (h : w.Reachable) (hp : w.arena.pool? id = some p)
    (hw : p.strategy.Weighs) {count : Nat}
    (hover : w.arena.Completes allocator id (.popMany count) a' p'
      (.failed (.capacityOverflow blocks size))) :
    p.available < count ∧ p.Exceeded (count - p.available) := by
  obtain ⟨hshort, done, hdenied, -⟩ := denied_of_failed h hp hover
  refine ⟨hshort, ?_⟩
  by_contra hfits
  obtain ⟨enough, hfor, ha⟩ := Pool.exists_addressable hfits hw
  generalize herror : PoolError.capacityOverflow blocks size = error at hdenied
  cases hdenied with
  | uncountable hnone => simp [hfor] at hnone
  | unaddressable hsome hnot =>
    rw [hfor] at hsome
    simp [← Option.some.inj hsome, ha] at hnot
  | refused => simp [Reservation.error] at herror

theorem turnsDown_one (h : w.Reachable) (hp : w.arena.pool? id = some p) (hw : p.strategy.Weighs)
    (allocator : Allocator) (hlow : p.growing = false) (hover : p.strategy.Exceeds 1) :
    w.arena.TurnsDown allocator id .popOne (.capacityOverflow 1 p.blockSize) :=
  (Call.popOne_unasked hlow (free_of_exceeds h hp hw hover) hw hover).turnsDown hp allocator
    (by omega)

theorem exceeds_of_overflow (h : w.Reachable) (hp : w.arena.pool? id = some p)
    (hw : p.strategy.Weighs)
    (hover : w.arena.Completes allocator id .popOne a' p'
      (.failed (.capacityOverflow blocks size))) :
    p.strategy.Exceeds 1 := by
  obtain ⟨made, hend⟩ := hover.ended
  obtain ⟨more, losses, hw'⟩ := (h.asks hp .popOne).proceed allocator (fun _ => false)
    (w.arena.patience id .popOne) 0
  obtain ⟨q, hq, hsame⟩ := Arena.proceed_sameSetup (c := .popOne) hp allocator (fun _ => false)
    (w.arena.patience id .popOne) 0
  have hproceed : w.arena.proceed allocator id (fun _ => false) (w.arena.patience id .popOne)
      ⟨.popOne, 0⟩ = (a', ⟨.finished (.failed (.capacityOverflow blocks size)), made⟩) := hend
  rw [hproceed] at hw' hq
  by_contra hfits
  rw [← hsame.strategy] at hw hfits
  exact ((hw'.one_judged hq hw).fits hfits).2 blocks size rfl

end World

end SlotPool
