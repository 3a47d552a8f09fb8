import SlotPool.Proofs.Calls

/-!
# Calls that go on by themselves

`Arena.proceed` takes steps of one call while nothing else happens. That is one of the ways in which
a world can go on, so that what it leads to is a reachable world.
-/

namespace SlotPool

variable {ε : Type}

theorem Arena.proceed_keeps_answered {id : PoolId} {P : Arena ε → Call → Prop}
    {pause : Call → Bool} {allocator : Allocator}
    (hstep : ∀ a c granted, pause c = false → c.outcome? = none →
      (∀ r, a.reservation? id c = some r → ∃ made, granted = allocator made r) → P a c →
      P (a.step id granted c).1 (a.step id granted c).2)
    (fuel : Nat) {a : Arena ε} {c : Call} {made : Nat}
    (h : P a c) : P (a.proceed allocator id pause fuel ⟨c, made⟩).1
      (a.proceed allocator id pause fuel ⟨c, made⟩).2.call := by
  induction fuel generalizing a c made with
  | zero => exact h
  | succ fuel ih =>
    unfold proceed
    split
    · exact h
    · rename_i hstop
      obtain ⟨hpause, hc⟩ : pause c = false ∧ c.outcome? = none := by simpa using hstop
      cases hr : a.reservation? id c with
      | none => exact ih (hstep a c true hpause hc (by simp [hr]) h)
      | some r =>
        refine ih (hstep a c (allocator made r) hpause hc (fun r' hr' => ⟨made, ?_⟩) h)
        rw [Option.some.inj (hr.symm.trans hr')]

theorem Arena.proceed_keeps_to {id : PoolId} {P : Arena ε → Call → Prop} {pause : Call → Bool}
    (hstep : ∀ a c granted, pause c = false → c.outcome? = none → P a c →
      P (a.step id granted c).1 (a.step id granted c).2)
    (allocator : Allocator) (fuel : Nat) {a : Arena ε} {c : Call} {made : Nat}
    (h : P a c) : P (a.proceed allocator id pause fuel ⟨c, made⟩).1
      (a.proceed allocator id pause fuel ⟨c, made⟩).2.call :=
  proceed_keeps_answered (fun a c granted hpause hc _ h => hstep a c granted hpause hc h) fuel h

theorem Arena.proceed_keeps {id : PoolId} {P : Arena ε → Call → Prop}
    (hstep : ∀ a c granted, c.outcome? = none → P a c →
      P (a.step id granted c).1 (a.step id granted c).2)
    (allocator : Allocator) (pause : Call → Bool) (fuel : Nat) {a : Arena ε} {c : Call} {made : Nat}
    (h : P a c) : P (a.proceed allocator id pause fuel ⟨c, made⟩).1
      (a.proceed allocator id pause fuel ⟨c, made⟩).2.call :=
  proceed_keeps_to (fun a c granted _ hc h => hstep a c granted hc h) allocator fuel h

namespace World

/-- A reachable world with such clients, where only a call that breaks a rule has lost anything. -/
def ReachableBy (rest : List Client) (losses : Losses) (held : List Held) (id : PoolId)
    (a : Arena ε) (c : Call) : Prop :=
  ∃ losses', Reachable ⟨a, ⟨held, some (id, c)⟩ :: rest, losses'⟩ ∧
    ((∀ v, c ≠ .finished (.broken v)) → losses' = losses)

theorem ReachableBy.step {rest : List Client} {losses : Losses} {held : List Held} {id : PoolId}
    {a : Arena ε} {c : Call} (granted : Bool) (hc : c.outcome? = none)
    (h : ReachableBy rest losses held id a c) :
    ReachableBy rest losses held id (a.step id granted c).1 (a.step id granted c).2 := by
  obtain ⟨losses', hr, hl⟩ := h
  refine ⟨_, hr.step (.client _ _ _ rest _ _ losses' _ (List.Perm.refl _)
    (.run a _ held id granted c _ hc rfl)), fun hv => ?_⟩
  have halive : ∀ v, c ≠ .finished (.broken v) := by
    rintro v rfl
    simp [Call.outcome?] at hc
  rw [Call.forfeited_of_unbroken _ _ _ hv, List.append_nil, List.append_nil]
  exact hl halive

theorem ReachableBy.proceed {rest : List Client} {losses : Losses} {held : List Held} {id : PoolId}
    {a : Arena ε} {c : Call} (h : ReachableBy rest losses held id a c) (allocator : Allocator)
    (pause : Call → Bool) (fuel made : Nat) :
    ReachableBy rest losses held id (a.proceed allocator id pause fuel ⟨c, made⟩).1
      (a.proceed allocator id pause fuel ⟨c, made⟩).2.call :=
  Arena.proceed_keeps (fun _ _ granted hc h => h.step granted hc) allocator pause fuel h

section

variable {a : Arena ε} {rest : List Client} {losses : Losses} {held : List Held} {id : PoolId}
  {c : Call} {x : Arena ε × Arena.Progress} {allocator : Allocator} {pause : Call → Bool}
  {fuel made : Nat}

theorem Reachable.proceed (h : Reachable ⟨a, ⟨held, some (id, c)⟩ :: rest, losses⟩)
    (hx : x = a.proceed allocator id pause fuel ⟨c, made⟩)
    (hv : ∀ v, x.2.call ≠ .finished (.broken v)) :
    Reachable ⟨x.1, ⟨held, some (id, x.2.call)⟩ :: rest, losses⟩ := by
  have hby : ReachableBy rest losses held id a c := ⟨losses, h, fun _ => rfl⟩
  obtain ⟨losses', hr, hl⟩ := hby.proceed allocator pause fuel made
  rw [← hx] at hr hl
  obtain rfl : losses' = losses := hl hv
  exact hr

theorem Reachable.finish {o : Outcome} (h : Reachable ⟨a, ⟨held, some (id, c)⟩ :: rest, losses⟩)
    (hx : x = a.proceed allocator id pause fuel ⟨c, made⟩) (hcall : x.2.call = .finished o)
    (ho : ∀ v, o ≠ .broken v) :
    Reachable ⟨x.1, ⟨held, some (id, .finished o)⟩ :: rest, losses⟩ := by
  rw [← hcall]
  exact h.proceed hx (by simp [hcall, ho])

end

/-! ## A pool of pairs -/

def pairs : Strategy Nat := .objects ⟨7, 24, 32, 8⟩ 2 (by decide)

def pairArena : Arena Nat := ({} : Arena Nat).addPool (.fresh pairs .headroom 100)

def taken : Arena Nat × Arena.Progress :=
  pairArena.proceed (fun _ _ => true) ⟨0⟩ (fun _ => false) 20 ⟨.popOne, 0⟩

def grown : Arena Nat × Arena.Progress :=
  taken.1.proceed (fun _ _ => true) ⟨0⟩ (fun c => c matches .countSlots ..) 20 ⟨.popMany 3, 0⟩

/-- Two clients, of which one holds a slot. -/
def resting : World Nat := ⟨taken.1, [⟨[.slot ⟨1⟩], none⟩, {}], {}⟩

/-- The other one is growing the pool for three more. -/
def growing : World Nat := ⟨grown.1, [⟨[], some (⟨0⟩, grown.2.call)⟩, ⟨[.slot ⟨1⟩], none⟩], {}⟩

theorem resting_reachable : resting.Reachable := by
  have h₁ : Reachable ⟨pairArena, [⟨[], some (⟨0⟩, .popOne)⟩, {}], {}⟩ :=
    (fleet_reachable 2 pairs .headroom 100).act (.ask _ [] ⟨0⟩ _ _ rfl .popOne)
  have hcall : taken.2.call = .finished (.acquired (.one ⟨1⟩)) := by decide +kernel
  exact (h₁.finish rfl hcall (by simp)).act (.receive _ [] ⟨0⟩ _ false _ rfl)

theorem growing_reachable : growing.Reachable := by
  have hpool : (taken.1.pool? ⟨0⟩).isSome = true := by decide +kernel
  obtain ⟨p, hp⟩ := Option.isSome_iff_exists.1 hpool
  have h₁ : Reachable ⟨taken.1, [⟨[], some (⟨0⟩, .popMany 3)⟩, ⟨[.slot ⟨1⟩], none⟩], {}⟩ :=
    resting_reachable.step (.client _ _ _ _ _ _ _ _ (List.Perm.swap _ _ [])
      (.ask _ [] ⟨0⟩ p _ hp (.popMany 3)))
  have hcall : grown.2.call.outcome? = none := by decide +kernel
  refine h₁.proceed rfl fun v hv => ?_
  simp [hv, Call.outcome?] at hcall

/-! ## A pool of eights -/

def eights : Strategy Nat := .objects ⟨7, 24, 32, 8⟩ 8 (by decide)

def eightArena : Arena Nat := ({} : Arena Nat).addPool (.fresh eights .headroom 100)

def drawnThree : Arena Nat × Arena.Progress :=
  eightArena.proceed (fun _ _ => true) ⟨0⟩ (fun _ => false) 20 ⟨.popMany 3, 0⟩

def drawnFour : Arena Nat × Arena.Progress :=
  drawnThree.1.proceed (fun _ _ => true) ⟨0⟩ (fun _ => false) 20 ⟨.popOne, 0⟩

def threes : Stack := ⟨some ⟨7⟩, some ⟨5⟩, 3⟩

/-- A client holds a stack of three slots and another slot, and four are free. -/
def stacking : World Nat := ⟨drawnFour.1, [⟨[.slot ⟨4⟩, .stack threes], none⟩], {}⟩

theorem stacking_reachable : stacking.Reachable := by
  have hthree : drawnThree.2.call = .finished (.acquired (.many threes)) := by decide +kernel
  have hfour : drawnFour.2.call = .finished (.acquired (.one ⟨4⟩)) := by decide +kernel
  have hpool : (drawnThree.1.pool? ⟨0⟩).isSome = true := by decide +kernel
  obtain ⟨p, hp⟩ := Option.isSome_iff_exists.1 hpool
  have h₁ : Reachable ⟨eightArena, [⟨[], some (⟨0⟩, .popMany 3)⟩], {}⟩ :=
    (fleet_reachable 1 eights .headroom 100).act (.ask _ [] ⟨0⟩ _ _ rfl (.popMany 3))
  have h₂ : Reachable ⟨drawnThree.1, [⟨[.stack threes], none⟩], {}⟩ :=
    (h₁.finish rfl hthree (by simp)).act (.receive _ [] ⟨0⟩ _ false _ rfl)
  have h₃ : Reachable ⟨drawnThree.1, [⟨[.stack threes], some (⟨0⟩, .popOne)⟩], {}⟩ :=
    h₂.act (.ask _ _ ⟨0⟩ p _ hp .popOne)
  exact (h₃.finish rfl hfour (by simp)).act (.receive _ _ ⟨0⟩ _ false _ rfl)

end World

end SlotPool
