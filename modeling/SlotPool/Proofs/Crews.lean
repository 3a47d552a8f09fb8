import SlotPool.Crew
import SlotPool.Proofs.Contracts

/-!
# Threads of a crew are clients of a world

A thread takes steps of its commands, and each of them is nothing but steps of a client. So whatever
the threads of a crew do, in whatever order, its arena is one of a reachable world.
-/

namespace SlotPool

open Memory

variable {ε : Type} {rest : List Client} {a : Arena ε} {held : List Held} {s : Session ε}
  {x : Held}

/-! ## Threads -/

namespace Thread

def call? (t : Thread ε) : Option (PoolId × Call) := t.current.bind fun d => d.2.call?

/-- What a thread has is what the client holds. -/
structure Matches (t : Thread ε) (k : Client) : Prop where
  distinct : t.registers.Distinct
  held : k.held.Perm t.registers.things
  call : k.call = t.call?

theorem step_has {t : Thread ε} (item : ItemType ε) (granted : Bool) (hd : t.registers.Distinct)
    (h : World.Has rest a t.registers.things t.call?) :
    (t.step item granted a).2.registers.Distinct ∧
      World.Has rest (t.step item granted a).1 (t.step item granted a).2.registers.things
        (t.step item granted a).2.call? := by
  obtain ⟨work, registers, begun, left, current, complaint⟩ := t
  unfold step
  split
  · exact ⟨hd, h⟩
  · rcases current with _ | ⟨d, e⟩
    · cases left with
      | nil => exact ⟨hd, h⟩
      | cons d left =>
        have hholds : Session.Holds rest ⟨item, a, registers⟩ [] := ⟨hd, h⟩
        obtain ⟨hd', h', -⟩ := hholds.start d.command fun _ _ => trivial
        exact ⟨hd', h'⟩
    · cases e with
      | finished answer => exact ⟨hd, h⟩
      | calling id progress sequel =>
        have hclient : Session.IsClient (fun _ => True) rest
            (⟨item, a, registers⟩, .calling id progress sequel) := ⟨hd, h, fun _ _ => trivial⟩
        obtain ⟨hd', h', -⟩ := hclient.advance granted
        exact ⟨hd', h'⟩

end Thread

/-! ## Crews -/

namespace Crew

/-- The threads of a crew are the clients of a reachable world. -/
def IsWorld (c : Crew ε) : Prop :=
  ∃ clients losses ks, World.Reachable ⟨c.arena, clients, losses⟩ ∧ clients.Perm ks ∧
    List.Forall₂ Thread.Matches c.threads.toList ks

theorem forall₂_set {α β : Type} {R : α → β → Prop} {l : List α} {k : List β} {i : Nat} {x : α}
    (h : List.Forall₂ R l k) (hx : l[i]? = some x) :
    ∃ y, k[i]? = some y ∧ R x y ∧ ∀ x' y', R x' y' → List.Forall₂ R (l.set i x') (k.set i y') := by
  induction h generalizing i with
  | nil => simp at hx
  | cons hr h ih =>
    cases i with
    | zero =>
      obtain rfl := Option.some.inj hx
      exact ⟨_, rfl, hr, fun x' y' hr' => .cons hr' h⟩
    | succ i =>
      obtain ⟨y, hy, hxy, hset⟩ := ih (i := i) hx
      exact ⟨y, hy, hxy, fun x' y' hr' => .cons hr (hset x' y' hr')⟩

theorem has_of_matches {clients ks : List Client} {losses : Losses} {i : Nat} {k : Client}
    {t : Thread ε} (hr : World.Reachable ⟨a, clients, losses⟩) (hc : clients.Perm ks)
    (hk : ks[i]? = some k) (hm : t.Matches k) :
    World.Has (ks.eraseIdx i) a t.registers.things t.call? := by
  obtain ⟨hlt, rfl⟩ := List.getElem?_eq_some_iff.1 hk
  refine ⟨ks[i].held, clients, losses, hr, hc.trans ?_, hm.held⟩
  rw [← hm.call]
  exact (List.getElem_cons_eraseIdx_perm hlt).symm

theorem IsWorld.advance {c : Crew ε} (h : c.IsWorld) (granted : Bool) (i : Nat) :
    (c.advance granted i).IsWorld := by
  obtain ⟨clients, losses, ks, hr, hc, hm⟩ := h
  obtain ⟨item, arena, threads⟩ := c
  cases ht : threads[i]? with
  | none =>
    simp only [Crew.advance, ht]
    exact ⟨clients, losses, ks, hr, hc, hm⟩
  | some t =>
    simp only [Crew.advance, ht]
    obtain ⟨k, hk, hmatches, hset⟩ := forall₂_set hm (by simpa using ht)
    have hlt : i < ks.length := (List.getElem?_eq_some_iff.1 hk).1
    have hhas := has_of_matches hr hc hk hmatches
    obtain ⟨hd', l, clients', losses', hr', hc', hl⟩ := Thread.step_has item granted
      hmatches.distinct hhas
    refine ⟨clients', losses', ks.set i ⟨l, (t.step item granted arena).2.call?⟩, hr',
      hc'.trans ?_, ?_⟩
    · exact (List.set_perm_cons_eraseIdx hlt _).symm
    · rw [Array.toList_setIfInBounds]
      exact hset _ _ ⟨hd', hl, rfl⟩

theorem isWorld_ofWork (item : ItemType ε) {p : Pool ε} (hp : Session.IsFresh p)
    (work : List (Work ε)) : (ofWork item p work).IsWorld := by
  obtain ⟨strategy, policy, backoffMicros, rfl⟩ := hp
  refine ⟨_, _, _, World.fleet_reachable work.length strategy policy backoffMicros,
    List.Perm.refl _, ?_⟩
  simp only [ofWork]
  induction work with
  | nil => exact .nil
  | cons w work ih => exact .cons ⟨List.nodup_nil, List.Perm.refl _, rfl⟩ ih

/-- In whatever order the threads take their steps, their arena is that of a reachable world. -/
theorem isWorld_of_schedule (item : ItemType ε) {p : Pool ε} (hp : Session.IsFresh p)
    (work : List (Work ε)) (schedule : List (Bool × Nat)) :
    (schedule.foldl (fun c turn => c.advance turn.1 turn.2) (ofWork item p work)).IsWorld := by
  generalize hc : ofWork item p work = c
  have h : c.IsWorld := hc ▸ isWorld_ofWork item hp work
  clear hc
  induction schedule generalizing c with
  | nil => exact h
  | cons turn schedule ih => exact ih _ (h.advance turn.1 turn.2)

theorem IsWorld.sweep {c : Crew ε} (h : c.IsWorld) (limit count : Nat) :
    (c.sweep limit count).IsWorld := by
  induction count generalizing c with
  | zero => exact h
  | succ count ih => exact ih (h.advance _ count)

theorem IsWorld.sweeps {c : Crew ε} (h : c.IsWorld) (limit fuel : Nat) :
    (c.sweeps limit fuel).IsWorld := by
  induction fuel generalizing c with
  | zero => exact h
  | succ fuel ih =>
    unfold Crew.sweeps
    split
    · exact h
    · exact ih (h.sweep limit _)

end Crew

end SlotPool
