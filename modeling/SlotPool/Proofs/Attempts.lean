import SlotPool.Proofs.Guard
import SlotPool.Proofs.Runs
import Mathlib.Algebra.Ring.Int.Defs
import Mathlib.Logic.Relation

/-!
# Growth for one slot from its beginning to its end

`World.Attempt` follows one call from where it tries to raise the growth flag until it is out of the
growth, while all others do what they like, and records what each step of its own does. If another
call has raised the flag it backs off and has changed nothing else; if it raises the flag itself it
adds a block, or none, and lowers the flag.
-/

namespace SlotPool

open Memory

variable {ε : Type}

/-! ## What the steps of one growth do -/

/-- What one step of a call does to the memory and to its pool. -/
structure Stride (ε : Type) where
  memory : Memory ε
  pool : Pool ε
  memory' : Memory ε
  pool' : Pool ε

def Pool.backedOff (p : Pool ε) : Pool ε :=
  { p with counters := { p.counters with backoffs := p.counters.backoffs + 1 } }

/-- What is counted more after these steps than before, whatever others do in between. -/
def Measure.gain (μ : Measure) (strides : List (Stride ε)) : Int :=
  (strides.map fun s => (μ.read s.memory' s.pool' : Int) - μ.read s.memory s.pool).sum

theorem Measure.gain_concat (μ : Measure) (strides : List (Stride ε)) (s : Stride ε) :
    μ.gain (strides ++ [s]) =
      μ.gain strides + ((μ.read s.memory' s.pool' : Int) - μ.read s.memory s.pool) := by
  simp [gain]

/-- The first of the steps finds the flag lowered, and raises it. -/
def Raises (strides : List (Stride ε)) : Prop :=
  ∃ s ∈ strides.head?, s.pool.growing = false ∧ s.pool'.growing = true

theorem Raises.append {strides : List (Stride ε)} (h : Raises strides)
    (more : List (Stride ε)) : Raises (strides ++ more) := by
  obtain ⟨first, hfirst, hraise⟩ := h
  refine ⟨first, ?_, hraise⟩
  rw [Option.mem_def] at hfirst ⊢
  rw [List.head?_append, hfirst, Option.some_or]

/-- The flag was raised already. Nothing is changed but that the pool counts a backoff. -/
def Lost (strides : List (Stride ε)) : Prop :=
  ∃ m₁ p₁ m₂ p₂ m₃ p₃, p₁.growing = true ∧
    strides = [⟨m₁, p₁, m₁, p₁⟩, ⟨m₂, p₂, m₂, p₂.backedOff⟩, ⟨m₃, p₃, m₃, p₃⟩]

theorem Raises.not_lost {strides : List (Stride ε)} (h : Raises strides) : ¬ Lost strides := by
  rintro ⟨m₁, p₁, m₂, p₂, m₃, p₃, hraised, rfl⟩
  obtain ⟨first, hfirst, hlow, -⟩ := h
  obtain rfl : _ = first := Option.some.inj hfirst
  simp [hraised] at hlow

/-- The flag was raised and is lowered again. In between `blocks` blocks were added to the pool,
with all that is counted of them, and nothing else. -/
structure Won (blockSize blocks : Nat) (strides : List (Stride ε)) : Prop where
  raised : Raises strides
  lowered : ∃ s ∈ strides.getLast?, s.pool'.growing = false
  gain : ∀ μ : Measure, μ.gain strides = blocks * μ.ofBlock blockSize

/-- How far a call has come in the growth, and what its steps have done. -/
inductive Course (blockSize : Nat) : Call → List (Stride ε) → Prop where
  | claiming : Course blockSize .claimGrowth []
  | losing (m₁ : Memory ε) (p₁ : Pool ε) (h : p₁.growing = true) :
      Course blockSize .countBackoff [⟨m₁, p₁, m₁, p₁⟩]
  | backing (m₁ m₂ : Memory ε) (p₁ p₂ : Pool ε) (h : p₁.growing = true) :
      Course blockSize .noteBackoff [⟨m₁, p₁, m₁, p₁⟩, ⟨m₂, p₂, m₂, p₂.backedOff⟩]
  | lost (strides : List (Stride ε)) (h : Lost strides) : Course blockSize .popOne strides
  | winning (c : Call) (strides : List (Stride ε)) (hc : c.Lone blockSize) (hr : Raises strides)
      (hg : ∀ μ : Measure, μ.gain strides = c.added blockSize μ) : Course blockSize c strides
  | won (strides : List (Stride ε)) (h : Won blockSize 1 strides) : Course blockSize .popOne strides
  | failed (error : PoolError) (strides : List (Stride ε)) (h : Won blockSize 0 strides) :
      Course blockSize (.finished (.failed error)) strides

theorem Course.guards_iff {blockSize : Nat} {c : Call} {strides : List (Stride ε)}
    (h : Course blockSize c strides) :
    c.guards = true ↔ c.attempts = true ∧ Raises strides := by
  cases h with
  | winning c strides hc hr hg =>
    have hguards := hc.guards
    have hattempts : c.attempts = true := by
      unfold Call.attempts
      split <;> first | rfl | exact hguards
    simp [hguards, hattempts, hr]
  | _ => simp_all [Call.guards, Call.attempts, Raises]

section

variable {id : PoolId} {granted : Bool} {m m' : Memory ε} {p p' : Pool ε} {c c' : Call}
  {e : Option Event} {frame : List Piece} {strides : List (Stride ε)}

theorem won_of_lowered (hr : Raises strides) (fault : Option PoolError)
    (hg : ∀ μ : Measure, μ.gain strides = (Call.unclaim fault).added p.blockSize μ) :
    Won p.blockSize (if fault = none then 1 else 0)
      (strides ++ [⟨m, p, m, { p with growing := false }⟩]) := by
  refine ⟨hr.append _, ⟨_, List.getLast?_concat, rfl⟩, fun μ => ?_⟩
  have hsame : μ.read m { p with growing := false } = μ.read m p := by cases μ <;> rfl
  rw [Measure.gain_concat, hg, hsame]
  cases fault with
  | none => cases μ <;> simp [Call.added, Call.stage, Measure.stage, Measure.ofBlock]
  | some error => simp [Call.added_of_stage (c := .unclaim (some error)) rfl]

theorem Course.step (hcourse : Course p.blockSize c strides) (hc : c.attempts = true)
    (hp : Partition m ((.chain p.free :: c.pieces) ++ frame))
    (h : c.step id granted m p = (m', p', e, c')) :
    Course p.blockSize c' (strides ++ [⟨m, p, m', p'⟩]) := by
  cases hcourse with
  | claiming =>
    simp only [Call.step] at h
    split at h
    · rename_i hgrowing
      obtain ⟨rfl, rfl, -, rfl⟩ := h
      exact .losing m p hgrowing
    · rename_i hgrowing
      simp only [Prod.mk.injEq] at h
      obtain ⟨rfl, rfl, -, rfl⟩ := h
      obtain ⟨hlone, hstage⟩ := Call.startGrowth_lone p.strategy p.blockSize
      refine .winning _ _ hlone ⟨_, rfl, by simpa using hgrowing, rfl⟩ fun μ => ?_
      rw [Call.added_of_stage hstage]
      cases μ <;> simp [Measure.gain, Measure.read, Pool.available]
  | losing m₁ p₁ hgrowing =>
    obtain ⟨rfl, rfl, -, rfl⟩ := h
    exact .backing m₁ m p₁ p hgrowing
  | backing m₁ m₂ p₁ p₂ hgrowing =>
    obtain ⟨rfl, rfl, -, rfl⟩ := h
    exact .lost _ ⟨m₁, p₁, m₂, p₂, m, p, hgrowing, rfl⟩
  | winning c strides hlone hr hg =>
    obtain ⟨hlone', hadds⟩ | ⟨fault, rfl, rfl, rfl, rfl⟩ := hlone.step h hp
    · refine .winning c' _ hlone' (hr.append _) fun μ => ?_
      have := hadds μ
      have := hg μ
      rw [Measure.gain_concat]
      dsimp only
      omega
    · have hwon := won_of_lowered (m := m') hr fault hg
      cases fault with
      | none => exact .won _ hwon
      | some error => exact .failed error _ hwon
  | _ => simp [Call.attempts, Call.guards] at hc

end

/-! ## Growth in a world -/

theorem Call.outcome?_of_attempts {c : Call} (h : c.attempts = true) : c.outcome? = none := by
  cases c <;> first | rfl | simp [attempts, guards] at h

theorem Client.step_of_call {a a' : Arena ε} {held : List Held} {id : PoolId} {c : Call}
    {k' : Client} {new : Losses} (h : Step a ⟨held, some (id, c)⟩ a' k' new)
    (hc : c.outcome? = none) :
    ∃ granted c', k' = ⟨held, some (id, c')⟩ ∧ a.step id granted c = (a', c') := by
  cases h with
  | run a' held id granted c c' hc hr => exact ⟨granted, c', rfl, hr⟩
  | _ => simp [Call.outcome?] at hc

namespace World

theorem step_samePools {w w' : World ε} (hw : w.Whole) (hs : w.Step w') :
    w.arena.SamePools w'.arena := by
  cases hs with
  | client a a' clients rest k k' losses new hc hk =>
    exact Client.step_samePools (hw.known k (hc.mem_iff.2 (by simp))) hk
  | addPool a clients losses strategy policy backoffMicros =>
    exact fun id p hp => ⟨p, Arena.pool?_addPool hp _, rfl⟩
  | _ => exact fun id p hp => ⟨p, hp, rfl⟩

/-- A call in the growth, from where it tries to raise the flag. Its own steps are recorded; between
them anything happens after which there is still a client in that call. -/
inductive Attempt (id : PoolId) (w : World ε) : List (Stride ε) → World ε → Call → Prop where
  | start (k : Client) (hk : k ∈ w.clients) (hc : k.call = some (id, .claimGrowth)) :
      Attempt id w [] w .claimGrowth
  | own {strides : List (Stride ε)} {a a' : Arena ε} {clients rest : List Client} {k k' : Client}
      {losses new : Losses} {c c' : Call} {p p' : Pool ε}
      (h : Attempt id w strides ⟨a, clients, losses⟩ c) (hin : c.attempts = true)
      (hp : a.pool? id = some p) (hp' : a'.pool? id = some p') (hperm : clients.Perm (k :: rest))
      (hk : Client.Step a k a' k' new) (hc : k.call = some (id, c))
      (hc' : k'.call = some (id, c')) :
      Attempt id w (strides ++ [⟨a.memory, p, a'.memory, p'⟩]) ⟨a', k' :: rest,
        ⟨losses.leaked ++ new.leaked, losses.forfeited ++ new.forfeited⟩⟩ c'
  | other {strides : List (Stride ε)} {w₁ w₂ : World ε} {c : Call} (k : Client)
      (h : Attempt id w strides w₁ c) (hs : w₁.Step w₂) (hk : k ∈ w₂.clients)
      (hc : k.call = some (id, c)) : Attempt id w strides w₂ c

theorem Attempt.reachable {id : PoolId} {w w' : World ε} {strides : List (Stride ε)} {c : Call}
    (h : Attempt id w strides w' c) (hw : w.Reachable) : w'.Reachable := by
  induction h with
  | start k hk hc => exact hw
  | own h hin hp hp' hperm hk hc hc' ih =>
    exact ih.step (.client _ _ _ _ _ _ _ _ hperm hk)
  | other k h hs hk hc ih => exact ih.step hs

theorem Attempt.course {id : PoolId} {w w' : World ε} {strides : List (Stride ε)} {c : Call}
    {p : Pool ε} (h : Attempt id w strides w' c) (hw : w.Reachable)
    (hp : w.arena.pool? id = some p) :
    Course p.blockSize c strides ∧
      ∃ p', w'.arena.pool? id = some p' ∧ p'.strategy = p.strategy := by
  induction h with
  | start k hk hc => exact ⟨.claiming, p, hp, rfl⟩
  | @own strides a a' clients rest k k' losses new c c' q q' h hin hq hq' hperm hk hc hc' ih =>
    obtain ⟨hcourse, q₁, hq₁, hstrategy⟩ := ih
    obtain rfl : q₁ = q := Option.some.inj (hq₁.symm.trans hq)
    have hwhole := whole_of_reachable (h.reachable hw)
    obtain ⟨held, call⟩ := k
    obtain rfl : call = some (id, c) := hc
    obtain ⟨granted, c₁, rfl, hr⟩ := Client.step_of_call hk (Call.outcome?_of_attempts hin)
    obtain rfl : c₁ = c' := by simpa using hc'
    obtain ⟨q₂, e, hstep, hpools⟩ := Arena.step_eq hq hr
    obtain rfl : q₂ = q' := by simpa [Arena.pool?_set hq hpools] using hq'
    obtain ⟨others, hfree, -⟩ := Arena.free_perm hq
    have hpart : Partition a.memory _ := hwhole.partition.of_perm (pieces_perm hperm)
    have hlocal := Arena.local_partition hfree (Client.call_partition hpart)
    have hsize : p.blockSize = q₁.blockSize := by rw [Pool.blockSize, ← hstrategy, Pool.blockSize]
    rw [hsize] at hcourse ⊢
    exact ⟨hcourse.step hin hlocal hstep, q₂, hq',
      (Call.step_strategy id granted hstep).trans hstrategy⟩
  | other k h hs hk hc ih =>
    obtain ⟨hcourse, q, hq, hstrategy⟩ := ih
    obtain ⟨q', hq', hstrategy'⟩ :=
      step_samePools (whole_of_reachable (h.reachable hw)) hs id q hq
    exact ⟨hcourse, q', hq', hstrategy'.trans hstrategy⟩

theorem exists_raise {w : World ε} (h : w.Reachable) {id : PoolId} {p : Pool ε}
    (hp : w.arena.pool? id = some p) (hlow : p.growing = false) (hnone : p.available = 0)
    {k : Client} (hk : k ∈ w.clients) (hidle : k.call = none) :
    ∃ w' k', Relation.ReflTransGen World.Step w w' ∧ k' ∈ w'.clients ∧ k'.held = k.held ∧
      k'.guards id = true := by
  obtain ⟨a, clients, losses⟩ := w
  obtain ⟨held, call⟩ := k
  obtain rfl : call = none := hidle
  obtain ⟨front, back, rfl⟩ := List.append_of_mem hk
  have hfree : p.free.Spans a.memory (p.free.slots a.memory) := free_spans h hp
  have hnil : p.free.slots a.memory = [] := List.eq_nil_of_length_eq_zero (hfree.length ▸ hnone)
  rw [hnil] at hfree
  -- The free stack is found empty.
  have hask := Client.Step.ask a held id p .popOne hp .popOne
  rcases hr₁ : a.step id true .popOne with ⟨a₁, c₁⟩
  obtain ⟨p₁, e₁, hstep₁, hpools₁⟩ := Arena.step_eq hp hr₁
  simp only [Call.step, Stack.pop_of_nil hfree, Prod.mk.injEq] at hstep₁
  obtain ⟨-, rfl, -, rfl⟩ := hstep₁
  have hpop := Client.Step.run a a₁ held id true .popOne .claimGrowth rfl hr₁
  -- The flag is found lowered.
  have hp₁ : a₁.pool? id = some p := by rw [Arena.pool?_set hp hpools₁, if_pos rfl]
  rcases hr₂ : a₁.step id true .claimGrowth with ⟨a₂, c₂⟩
  obtain ⟨p₂, e₂, hstep₂, -⟩ := Arena.step_eq hp₁ hr₂
  have hguards : c₂.guards = true := by
    simp only [Call.step, hlow, Bool.false_eq_true, if_false, Prod.mk.injEq] at hstep₂
    obtain ⟨-, -, -, rfl⟩ := hstep₂
    exact (Call.continues_startGrowth _ _ _).guards_eq
  have hclaim := Client.Step.run a₁ a₂ held id true .claimGrowth c₂ rfl hr₂
  have hasked : World.Step ⟨a, front ++ ⟨held, none⟩ :: back, losses⟩ _ :=
    .client _ _ _ (front ++ back) _ _ losses _ List.perm_middle hask
  have hpopped := fun l =>
    World.Step.client _ _ _ (front ++ back) _ _ l _ (List.Perm.refl _) hpop
  have hclaimed := fun l =>
    World.Step.client _ _ _ (front ++ back) _ _ l _ (List.Perm.refl _) hclaim
  refine ⟨_, _, ((Relation.ReflTransGen.single hasked).tail (hpopped _)).tail (hclaimed _),
    List.mem_cons_self, rfl, ?_⟩
  simp [Client.guards, hguards]

/-- The growth flag of a pool is raised exactly while one client is between raising it and the end
of its growth for one slot. Who finds it raised changes nothing but the count of backoffs. Who
raises it adds one block, or none if the growth fails, and lowers it either way, so that the next
one who finds no slot can raise it again. -/
theorem growth_guarded {w : World ε} (h : w.Reachable) (id : PoolId) (p : Pool ε)
    (hp : w.arena.pool? id = some p) :
    w.clients.countP (·.guards id) = p.growing.toNat ∧
      (∀ strides w' c, Attempt id w strides w' c →
        (c.guards = true ↔ c.attempts = true ∧ Raises strides) ∧
        (c.attempts = false →
          (c = .popOne ∧ Lost strides) ∨
          (c = .popOne ∧ Won p.blockSize 1 strides) ∨
          ∃ error, c = .finished (.failed error) ∧ Won p.blockSize 0 strides)) ∧
      (p.growing = false → p.available = 0 → ∀ k ∈ w.clients, k.call = none →
        ∃ w' k', Relation.ReflTransGen World.Step w w' ∧ k' ∈ w'.clients ∧ k'.held = k.held ∧
          k'.guards id = true) := by
  refine ⟨guarded_of_reachable h id p hp, fun strides w' c hattempt => ?_,
    fun hlow hnone k hk hidle => exists_raise h hp hlow hnone hk hidle⟩
  obtain ⟨hcourse, -⟩ := hattempt.course h hp
  refine ⟨hcourse.guards_iff, fun hout => ?_⟩
  cases hcourse with
  | lost strides hlost => exact Or.inl ⟨rfl, hlost⟩
  | won strides hwon => exact Or.inr (Or.inl ⟨rfl, hwon⟩)
  | failed error strides hwon => exact Or.inr (Or.inr ⟨error, rfl, hwon⟩)
  | winning c strides hlone hr hg =>
    have hin := (Course.guards_iff (.winning c strides hlone hr hg)).1 hlone.guards
    simp [hout] at hin
  | _ => simp [Call.attempts] at hout

/-! ## Two growths of a pool of pairs -/

theorem Attempt.proceed {id : PoolId} {w : World ε} {rest : List Client} {held : List Held}
    {losses : Losses} {strides : List (Stride ε)} {a : Arena ε} {c : Call}
    (h : Attempt id w strides ⟨a, ⟨held, some (id, c)⟩ :: rest, losses⟩ c)
    (hp : a.HasPool id) (allocator : Allocator) (fuel : Nat) :
    let last := a.proceed allocator id (fun c => !c.attempts) fuel ⟨c, 0⟩
    last.1.HasPool id ∧ ∃ more losses', Attempt id w (strides ++ more)
      ⟨last.1, ⟨held, some (id, last.2.call)⟩ :: rest, losses'⟩ last.2.call := by
  let P (a : Arena ε) (c : Call) : Prop := a.HasPool id ∧ ∃ more losses,
    Attempt id w (strides ++ more) ⟨a, ⟨held, some (id, c)⟩ :: rest, losses⟩ c
  have hstep : ∀ a c granted, (!c.attempts) = false → c.outcome? = none → P a c →
      P (a.step id granted c).1 (a.step id granted c).2 := by
    rintro a c granted hin hc ⟨⟨p, hp⟩, more, losses, h⟩
    rcases hr : a.step id granted c with ⟨a', c'⟩
    obtain ⟨p', e, -, hpools⟩ := Arena.step_eq hp hr
    have hp' : a'.pool? id = some p' := by rw [Arena.pool?_set hp hpools, if_pos rfl]
    have hrun := Client.Step.run a a' held id granted c c' hc hr
    have hown := h.own (by simpa using hin) hp hp' (List.Perm.refl _) hrun rfl rfl
    rw [List.append_assoc] at hown
    exact ⟨⟨p', hp'⟩, _, _, hown⟩
  have hstart : P a c := ⟨hp, [], losses, by rwa [List.append_nil]⟩
  exact Arena.proceed_keeps_to hstep allocator fuel hstart

def askedPairs : Arena Nat × Call := pairArena.step ⟨0⟩ true .popOne

def raisedPairs : Arena Nat × Arena.Progress :=
  askedPairs.1.proceed (fun _ _ => true) ⟨0⟩ (fun c => !c.attempts) 1 ⟨askedPairs.2, 0⟩

def grownPairs : Arena Nat × Arena.Progress :=
  raisedPairs.1.proceed (fun _ _ => true) ⟨0⟩ (fun c => !c.attempts) 20 ⟨raisedPairs.2.call, 0⟩

def refusedPairs : Arena Nat × Arena.Progress :=
  askedPairs.1.proceed (fun _ _ => false) ⟨0⟩ (fun c => !c.attempts) 20 ⟨askedPairs.2, 0⟩

/-- A client that has found no slot free. -/
def claiming : World Nat := ⟨askedPairs.1, [⟨[], some (⟨0⟩, askedPairs.2)⟩], {}⟩

theorem claiming_reachable : claiming.Reachable := by
  have h₁ : Reachable ⟨pairArena, [⟨[], some (⟨0⟩, .popOne)⟩], {}⟩ :=
    (fleet_reachable 1 pairs .headroom 100).act (.ask _ [] ⟨0⟩ _ _ rfl .popOne)
  exact h₁.act (.run _ _ [] ⟨0⟩ true _ _ rfl rfl)

theorem growth_guarded_claiming :
    ∃ p, claiming.Reachable ∧ claiming.arena.pool? ⟨0⟩ = some p ∧ p.growing = false ∧
      claiming.clients.countP (·.guards ⟨0⟩) = 0 ∧
      (∃ strides w', Attempt ⟨0⟩ claiming strides w' .popOne ∧ Won p.blockSize 1 strides) ∧
      ∃ strides w' error, Attempt ⟨0⟩ claiming strides w' (.finished (.failed error)) ∧
        Won p.blockSize 0 strides := by
  have hpool : (claiming.arena.pool? ⟨0⟩).map (·.growing) = some false := by decide +kernel
  obtain ⟨p, hp, hlow⟩ := Option.map_eq_some_iff.1 hpool
  obtain ⟨hcount, hattempts, -⟩ := growth_guarded claiming_reachable ⟨0⟩ p hp
  have hasked : askedPairs.2 = .claimGrowth := by decide +kernel
  have hraised : raisedPairs.2.call.guards = true := by decide +kernel
  have hgrown : grownPairs.2.call = .popOne := by decide +kernel
  have hrefused : refusedPairs.2.call = .finished (.failed (.outOfMemory 2 24)) := by decide +kernel
  have hstart : Attempt ⟨0⟩ claiming [] claiming askedPairs.2 := by
    rw [hasked]
    exact .start ⟨[], some (⟨0⟩, askedPairs.2)⟩ List.mem_cons_self (by rw [hasked])
  refine ⟨p, claiming_reachable, hp, hlow, by rw [hcount, hlow]; rfl, ?_, ?_⟩
  · obtain ⟨hpool₁, more₁, losses₁, h₁⟩ := hstart.proceed ⟨p, hp⟩ (fun _ _ => true) 1
    obtain ⟨-, hraises⟩ := (hattempts _ _ raisedPairs.2.call h₁).1.1 hraised
    obtain ⟨-, more₂, losses₂, h₂⟩ := h₁.proceed hpool₁ (fun _ _ => true) 20
    change Attempt _ _ _ _ grownPairs.2.call at h₂
    rw [hgrown] at h₂
    obtain ⟨-, hlost⟩ | ⟨-, hwon⟩ | ⟨error, hc, -⟩ := (hattempts _ _ _ h₂).2 rfl
    · exact absurd hlost (hraises.append more₂).not_lost
    · exact ⟨_, _, h₂, hwon⟩
    · simp at hc
  · obtain ⟨-, more, losses, h⟩ := hstart.proceed ⟨p, hp⟩ (fun _ _ => false) 20
    change Attempt _ _ _ _ refusedPairs.2.call at h
    rw [hrefused] at h
    obtain ⟨hc, -⟩ | ⟨hc, -⟩ | ⟨error, hc, hwon⟩ := (hattempts _ _ _ h).2 rfl
    · simp at hc
    · simp at hc
    · exact ⟨_, _, _, h, hwon⟩

end World

end SlotPool
