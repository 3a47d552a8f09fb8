import SlotPool.Proofs.Attempts
import SlotPool.Proofs.Requests

/-!
# One call among the steps of all others

`World.Underway` follows a call from its beginning, step by step, while all others do what they
like. What the call has in its hands stays as it is between its own steps.
-/

namespace SlotPool

open Memory

variable {ε : Type}

namespace World

theorem Step.beside {a a' : Arena ε} {clients rest rest' : List Client} {losses losses' : Losses}
    (hs : Step ⟨a, rest, losses⟩ ⟨a', rest', losses'⟩) (k : Client)
    (hc : clients.Perm (k :: rest)) :
    ∃ clients', Step ⟨a, clients, losses⟩ ⟨a', clients', losses'⟩ ∧
      clients'.Perm (k :: rest') := by
  cases hs with
  | client _ _ _ others k₁ k₁' _ new hc₁ hk =>
    have hperm := hc.trans ((hc₁.cons k).trans (List.Perm.swap k₁ k others))
    exact ⟨_, .client a a' clients (k :: others) k₁ k₁' losses new hperm hk,
      List.Perm.swap k k₁' others⟩
  | addPool _ _ _ strategy policy backoffMicros =>
    exact ⟨_, .addPool a clients losses strategy policy backoffMicros, hc⟩
  | join => exact ⟨_, .join a clients losses, (hc.cons _).trans (List.Perm.swap k _ rest)⟩
  | handOver _ _ others giver taker kept x _ hc₁ hh =>
    have hperm : clients.Perm (giver :: taker :: k :: others) := by
      apply hc.trans ((hc₁.cons k).trans ((List.Perm.swap giver k _).trans _))
      exact (List.Perm.swap taker k others).cons giver
    refine ⟨_, .handOver a clients (k :: others) giver taker kept x losses hperm hh, ?_⟩
    exact ((List.Perm.swap k _ others).cons _).trans (List.Perm.swap k _ _)

/-- A call that has begun as `c₀`, and has come to `c`. The world is that of all others, without the
client, which holds `held`. It is recorded what the steps of the call did. -/
inductive Underway (id : PoolId) (c₀ : Call) :
    List (Stride ε) → World ε → List Held → Call → Prop where
  | start {a : Arena ε} {clients rest : List Client} {losses : Losses} {held : List Held}
      (h : Reachable ⟨a, clients, losses⟩) (hc : clients.Perm (⟨held, some (id, c₀)⟩ :: rest)) :
      Underway id c₀ [] ⟨a, rest, losses⟩ held c₀
  | own {strides : List (Stride ε)} {a a' : Arena ε} {rest : List Client} {losses : Losses}
      {held : List Held} {c c' : Call} {p p' : Pool ε} (granted : Bool)
      (h : Underway id c₀ strides ⟨a, rest, losses⟩ held c) (hc : c.outcome? = none)
      (hp : a.pool? id = some p) (hs : a.step id granted c = (a', c'))
      (hp' : a'.pool? id = some p') :
      Underway id c₀ (strides ++ [⟨a.memory, p, a'.memory, p'⟩])
        ⟨a', rest, ⟨losses.leaked, losses.forfeited ++ c.forfeited a'.memory c'⟩⟩ held c'
  | others {strides : List (Stride ε)} {w w' : World ε} {held : List Held} {c : Call}
      (h : Underway id c₀ strides w held c) (hs : w.Step w') : Underway id c₀ strides w' held c
  /-- The client hands a thing to another one. -/
  | gives {strides : List (Stride ε)} {a : Arena ε} {rest others : List Client} {losses : Losses}
      {held kept : List Held} {c : Call} (x : Held) (taker : Client)
      (h : Underway id c₀ strides ⟨a, rest, losses⟩ held c) (hh : held.Perm (x :: kept))
      (hc : rest.Perm (taker :: others)) :
      Underway id c₀ strides ⟨a, { taker with held := x :: taker.held } :: others, losses⟩ kept c
  /-- Another client hands it a thing. -/
  | takes {strides : List (Stride ε)} {a : Arena ε} {rest others : List Client} {losses : Losses}
      {held kept : List Held} {c : Call} (x : Held) (giver : Client)
      (h : Underway id c₀ strides ⟨a, rest, losses⟩ held c) (hc : rest.Perm (giver :: others))
      (hh : giver.held.Perm (x :: kept)) :
      Underway id c₀ strides ⟨a, { giver with held := kept } :: others, losses⟩ (x :: held) c

namespace Underway

variable {id : PoolId} {c₀ c : Call} {strides : List (Stride ε)} {w w' : World ε}
  {held : List Held}

theorem exists_reachable (h : Underway id c₀ strides w held c) :
    ∃ clients, Reachable ⟨w.arena, clients, w.losses⟩ ∧
      clients.Perm (⟨held, some (id, c)⟩ :: w.clients) := by
  induction h with
  | start h hc => exact ⟨_, h, hc⟩
  | @own strides a a' rest losses held c c' p p' granted h hc hp hs hp' ih =>
    obtain ⟨clients, hr, hperm⟩ := ih
    have hrun := Client.Step.run a a' held id granted c c' hc hs
    have hstep := hr.step (.client a a' clients rest _ _ losses _ hperm hrun)
    rw [List.append_nil] at hstep
    exact ⟨_, hstep, List.Perm.refl _⟩
  | others h hs ih =>
    obtain ⟨clients, hr, hperm⟩ := ih
    obtain ⟨clients', hs', hperm'⟩ := hs.beside _ hperm
    exact ⟨clients', hr.step hs', hperm'⟩
  | @gives strides a rest others losses held kept c x taker h hh hc ih =>
    obtain ⟨clients, hr, hperm⟩ := ih
    exact ⟨_, hr.step (.handOver a clients others _ taker kept x losses
      (hperm.trans (hc.cons _)) hh), List.Perm.refl _⟩
  | @takes strides a rest others losses held kept c x giver h hc hh ih =>
    obtain ⟨clients, hr, hperm⟩ := ih
    have hpair := (hperm.trans (hc.cons _)).trans (List.Perm.swap giver _ others)
    exact ⟨_, hr.step (.handOver a clients others giver _ kept x losses hpair hh),
      List.Perm.swap _ _ others⟩

theorem has (h : Underway id c₀ strides w held c) :
    Has w.clients w.arena held (some (id, c)) := by
  obtain ⟨clients, hr, hperm⟩ := h.exists_reachable
  exact ⟨held, clients, w.losses, hr, hperm, List.Perm.refl _⟩

/-- What others do leaves the pools where they are, and what the call has in its hands as it is. -/
theorem others_keep (h : Underway id c₀ strides w held c) (hs : w.Step w') :
    w.arena.SamePools w'.arena ∧ ∀ q ∈ c.pieces, q.slots w'.memory = q.slots w.memory := by
  obtain ⟨clients, hr, hperm⟩ := h.exists_reachable
  have hwhole := whole_of_reachable hr
  obtain ⟨clients', hs', -⟩ := hs.beside _ hperm
  have hsame := step_samePools hwhole hs'
  refine ⟨hsame, fun q hq => ?_⟩
  cases hs with
  | client a a' rest others k k' losses new hc hk =>
    have hk₁ := hperm.trans ((hc.cons _).trans (List.Perm.swap k _ others))
    refine (hwhole.client hk₁ hk).2 q (List.mem_append_left _ ?_)
    exact List.mem_flatMap.2 ⟨_, List.mem_cons_self, List.mem_append_right _ hq⟩
  | _ => rfl

theorem proceed {a : Arena ε} {rest : List Client} {losses : Losses}
    (h : Underway id c₀ strides ⟨a, rest, losses⟩ held c) (allocator : Allocator)
    (pause : Call → Bool) (fuel made : Nat) :
    let last := a.proceed allocator id pause fuel ⟨c, made⟩
    ∃ more losses', Underway id c₀ (strides ++ more) ⟨last.1, rest, losses'⟩ held
      last.2.call := by
  let P (a : Arena ε) (c : Call) : Prop := ∃ more losses,
    Underway id c₀ (strides ++ more) ⟨a, rest, losses⟩ held c
  have hstep : ∀ a c granted, c.outcome? = none → P a c →
      P (a.step id granted c).1 (a.step id granted c).2 := by
    rintro a c granted hc ⟨more, losses, h⟩
    obtain ⟨p, hp⟩ := h.has.exists_pool
    rcases hs : a.step id granted c with ⟨a', c'⟩
    obtain ⟨p', e, -, hpools⟩ := Arena.step_eq hp hs
    have hp' : a'.pool? id = some p' := by rw [Arena.pool?_set hp hpools, if_pos rfl]
    have hown := h.own granted hc hp hs hp'
    rw [List.append_assoc] at hown
    exact ⟨_, _, hown⟩
  have hstart : P a c := ⟨[], losses, by rwa [List.append_nil]⟩
  exact Arena.proceed_keeps hstep allocator pause fuel hstart

theorem beside {a : Arena ε} {rest : List Client} {losses : Losses} {held' : List Held}
    {id' : PoolId} {c' : Call}
    (h : Underway id c₀ strides ⟨a, ⟨held', some (id', c')⟩ :: rest, losses⟩ held c)
    (allocator : Allocator) (pause : Call → Bool) (fuel made : Nat) :
    let last := a.proceed allocator id' pause fuel ⟨c', made⟩
    ∃ losses', Underway id c₀ strides
      ⟨last.1, ⟨held', some (id', last.2.call)⟩ :: rest, losses'⟩ held c := by
  let P (a : Arena ε) (c' : Call) : Prop := ∃ losses,
    Underway id c₀ strides ⟨a, ⟨held', some (id', c')⟩ :: rest, losses⟩ held c
  have hstep : ∀ a c' granted, c'.outcome? = none → P a c' →
      P (a.step id' granted c').1 (a.step id' granted c').2 := by
    rintro a c' granted hc ⟨losses, h⟩
    exact ⟨_, h.others (.client a _ _ rest _ _ losses _ (List.Perm.refl _)
      (.run a _ held' id' granted c' _ hc rfl))⟩
  have hstart : P a c' := ⟨losses, h⟩
  exact Arena.proceed_keeps hstep allocator pause fuel hstart

end Underway

/-! ## A call to a pool of pairs -/

theorem underway_asking : Underway ⟨0⟩ (.popMany 3) [] ⟨taken.1, [⟨[.slot ⟨1⟩], none⟩], {}⟩ []
    (.popMany 3) := by
  have hpool : (taken.1.pool? ⟨0⟩).isSome = true := by decide +kernel
  obtain ⟨p, hp⟩ := Option.isSome_iff_exists.1 hpool
  exact .start (resting_reachable.step (.client _ _ _ _ _ _ _ _ (List.Perm.swap _ _ [])
    (.ask _ [] ⟨0⟩ p _ hp (.popMany 3)))) (List.Perm.refl _)

def givenBack (a : Arena Nat) : Arena Nat × Arena.Progress :=
  a.proceed (fun _ _ => true) ⟨0⟩ (fun _ => false) 3 ⟨.cleanOne ⟨1⟩, 0⟩

def finishing (allocator : Allocator) (a : Arena Nat) (c : Call) : Arena Nat × Arena.Progress :=
  (givenBack a).1.proceed allocator ⟨0⟩ (fun _ => false) 20 ⟨c, 0⟩

theorem Underway.finishes {c₀ c : Call} {strides : List (Stride Nat)} {a : Arena Nat}
    {losses : Losses} {held : List Held}
    (h : Underway ⟨0⟩ c₀ strides ⟨a, [⟨[.slot ⟨1⟩], none⟩], losses⟩ held c)
    (allocator : Allocator) :
    ∃ (strides' : List (Stride Nat)) (w : World Nat),
      Underway ⟨0⟩ c₀ strides' w held (finishing allocator a c).2.call := by
  obtain ⟨p, hp⟩ := h.has.exists_pool
  have hgives := h.others (.client a a _ [] _ _ losses _ (List.Perm.refl _)
    (.give a _ [] (.slot ⟨1⟩) .slot ⟨0⟩ p _ (List.Perm.refl _) hp rfl))
  obtain ⟨losses', hgiven⟩ := hgives.beside (fun _ _ => true) (fun _ => false) 3 0
  obtain ⟨more, losses'', hover⟩ := hgiven.proceed allocator (fun _ => false) 20 0
  exact ⟨_, _, hover⟩

theorem underway_grown : ∃ (strides : List (Stride Nat)) (losses : Losses),
    Underway ⟨0⟩ (.popMany 3) strides ⟨grown.1, [⟨[.slot ⟨1⟩], none⟩], losses⟩ []
      grown.2.call := by
  have hgrown : ∀ pause : Call → Bool, ∃ (strides : List (Stride Nat)) (losses : Losses),
      let grown := taken.1.proceed (fun _ _ => true) ⟨0⟩ pause 20 ⟨.popMany 3, 0⟩
      Underway ⟨0⟩ (.popMany 3) strides ⟨grown.1, [⟨[.slot ⟨1⟩], none⟩], losses⟩ []
        grown.2.call := by
    intro pause
    obtain ⟨more, losses, h⟩ := underway_asking.proceed (fun _ _ => true) pause 20 0
    exact ⟨_, _, h⟩
  exact hgrown _

end World

end SlotPool
