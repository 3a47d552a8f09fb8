import SlotPool.Proofs.Runs
import SlotPool.Proofs.Sessions
import SlotPool.Session.Perform

/-!
# Leases keep to the rules

A session that does one command after the other is the only client of a world. Its leases hold
slots of their pools at every step, so that no rule is broken when a lease is dropped or its slots
are given back, nor when slots are acquired.
-/

namespace SlotPool

open Memory

variable {ε : Type} {rest : List Client} {a : Arena ε} {held : List Held} {s : Session ε}
  {x : Held} {V : Violation → Prop}

/-! ## Steps of a session -/

namespace Session

theorem has_heldOf {id : PoolId} {slots : Grant}
    (h : World.Has rest a held (some (id, .finished (.acquired slots)))) (leased : Bool) :
    ∃ x, heldOf a.memory id leased slots = .ok x := by
  obtain ⟨p, hp⟩ := h.exists_pool
  obtain ⟨l, clients, losses, hr, hc, hl⟩ := h
  have htended := (World.tended_of_reachable hr).clients _ (hc.mem_iff.2 List.mem_cons_self)
  exact heldOf_isOk (fun s hs => (htended.call id _ p rfl hp s hs).owner) leased

theorem heldOf_writeContent (m : Memory ε) (id : PoolId) (leased : Bool) (slots : Grant)
    (content : Option (Content ε)) :
    heldOf (writeContent m slots content) id leased slots = heldOf m id leased slots := by
  cases slots with
  | many st => rfl
  | one sl =>
    cases content with
    | none => rfl
    | some content =>
      have howner : (content.write m sl).owner? sl = m.owner? sl := by
        rw [owner?, owner?, cell?, cell?, cells_write]
      simp only [writeContent, heldOf, Lease.ofSlot, checkOwner, howner]

theorem Holds.writeContent {slots : Grant} {leased : Bool} {id : PoolId} (h : Holds rest s [x])
    (hx : heldOf s.arena.memory id leased slots = .ok x) (content : Option (Content ε)) :
    Holds rest (s.withMemory fun m => (Session.writeContent m slots content, ())).1 [x] := by
  obtain ⟨item, arena, registers⟩ := s
  cases slots with
  | many st => exact h
  | one sl =>
    cases content with
    | none => exact h
    | some content =>
      have hs : sl ∈ x.slots arena.memory := by
        simp [Held.slots, (heldOf_ok hx).1, Grant.pieces]
      exact ⟨h.distinct, h.has.move (.write arena.memory x sl content hs)⟩

theorem conclude_isClient {id : PoolId} {o : Outcome} (hd : s.registers.Distinct)
    (h : World.Has rest s.arena s.registers.things (some (id, .finished o))) (sequel : Sequel ε)
    (hV : ∀ v, o = .broken v ∨ sequel = .answer (.error (.violation v)) → V v) :
    IsClient V rest (s.conclude id o sequel) := by
  have hfinish : (∀ slots, o ≠ .acquired slots) → Holds rest s [] := fun ho => ⟨hd, h.finish ho⟩
  have hanswer : ∀ answer v, sequel = .answer answer → answer = .error (.violation v) → V v := by
    rintro answer v rfl rfl
    exact hV v (.inr rfl)
  cases o with
  | acquired slots =>
    -- Slots that no register is meant for are lost.
    have hlost : Holds rest s [] := by
      obtain ⟨x, hx⟩ := has_heldOf h false
      have hgot : Holds rest s [x] := ⟨hd, h.receive hx⟩
      apply hgot.lose
      intro id' c
      cases slots <;> simp only [heldOf, Bool.false_eq_true, if_false, Except.ok.injEq] at hx <;>
        subst hx <;> simp [Held.dropped]
    cases sequel with
    | keep dest leased content =>
      obtain ⟨x, hx⟩ := has_heldOf h leased
      have hgot : Holds rest s [x] := ⟨hd, h.receive hx⟩
      have hwritten := hgot.writeContent hx content
      obtain ⟨item, arena, registers⟩ := s
      have hx' := (heldOf_writeContent arena.memory id leased slots content).trans hx
      simp only [conclude, withMemory, hx']
      exact hwritten.store dest _ (by simp)
    | answer answer => exact hlost.finished _ fun v => hanswer answer v rfl
    | report => exact hlost.finished _ (by simp)
  | broken w =>
    have hbroken : IsClient V rest (s, .violated w) :=
      (hfinish (by simp)).finished _ fun v hv => hV v (.inl (by simpa using hv))
    cases sequel <;> exact hbroken
  | failed e => cases sequel <;> exact (hfinish (by simp)).finished _ (by simp)
  | _ =>
    cases sequel with
    | answer answer => exact (hfinish (by simp)).finished _ fun v => hanswer answer v rfl
    | _ => exact (hfinish (by simp)).finished _ (by simp)

theorem eq_finished {c : Call} {o : Outcome} (ho : c.outcome? = some o) : c = .finished o := by
  cases c <;> simp [Call.outcome?] at ho
  rw [ho]

theorem IsClient.advance {e : Execution ε} (h : IsClient V rest (s, e)) (granted : Bool) :
    IsClient V rest (s.advance granted e) := by
  cases e with
  | finished answer => exact h
  | calling id progress sequel =>
    obtain ⟨c, made⟩ := progress
    have hvoiced : ∀ v, c.Objects s.memory id v ∨ sequel = .answer (.error (.violation v)) → V v :=
      h.voiced
    cases ho : c.outcome? with
    | none =>
      obtain ⟨item, arena, registers⟩ := s
      have hhas : World.Has rest arena registers.things (some (id, c)) := h.has
      simp only [Session.advance, ho]
      refine ⟨h.distinct, hhas.run granted ho, fun v hv => hvoiced v ?_⟩
      exact hv.imp_left (hhas.objects_of_run granted ho)
    | some o =>
      obtain rfl := eq_finished ho
      simp only [Session.advance, Call.outcome?]
      exact conclude_isClient h.distinct h.has sequel hvoiced

end Session

/-! ## Giving back -/

/-- A call that gives slots back, and in how many steps at most. -/
inductive Call.Returns : Call → Nat → Prop where
  | cleanOne (s : Slot) : Returns (.cleanOne s) 3
  | cleanMany (st : Stack) : Returns (.cleanMany st) 3
  | pushOne (s : Slot) : Returns (.pushOne s) 2
  | appendMany (st : Stack) : Returns (.appendMany st) 2
  | countReleased (count : Nat) : Returns (.countReleased count) 1
  | returned : Returns (.finished .returned) 0

theorem Call.Returns.step {id : PoolId} {granted : Bool} {m m' : Memory ε} {p p' : Pool ε}
    {c c' : Call} {e : Option Event} {n : Nat} (hn : c.Returns n) (hc : c.outcome? = none)
    (h : c.step id granted m p = (m', p', e, c')) :
    (∃ n' < n, c'.Returns n') ∨ ∃ v, c' = .finished (.broken v) := by
  cases hn with
  | cleanOne s =>
    obtain ⟨-, -, hc'⟩ := cleanOne_step h
    rcases hc'.eq_or_broken with rfl | hv
    · exact .inl ⟨2, by omega, .pushOne s⟩
    · exact .inr hv
  | cleanMany st =>
    obtain ⟨-, hst⟩ := cleanMany_step h
    split at hst
    · obtain ⟨-, rfl⟩ := hst
      exact .inl ⟨0, by omega, .returned⟩
    · rcases hst.2.eq_or_broken with rfl | hv
      · exact .inl ⟨2, by omega, .appendMany st⟩
      · exact .inr hv
  | pushOne s =>
    obtain ⟨-, -, -, rfl⟩ := h
    exact .inl ⟨1, by omega, .countReleased 1⟩
  | appendMany st =>
    obtain ⟨-, -, -, rfl⟩ := h
    exact .inl ⟨1, by omega, .countReleased st.length⟩
  | countReleased count =>
    obtain ⟨-, -, -, rfl⟩ := h
    exact .inl ⟨0, by omega, .returned⟩
  | returned => simp [outcome?] at hc

theorem returns_of_dropped {id : PoolId} {c : Call} (hd : x.dropped = .call id c) :
    c.Returns 3 := by
  obtain ⟨hgiven, -, -⟩ := givenBy_of_dropped hd
  cases hgiven <;> constructor

theorem World.Has.returns {id : PoolId} {c : Call} {n fuel : Nat} (made : Nat)
    (h : Has rest a held (some (id, c))) (hn : c.Returns n)
    (hlawful : ∀ v, ¬ c.Objects a.memory id v) (hfuel : n ≤ fuel) (allocator : Allocator) :
    (a.proceed allocator id (fun _ => false) fuel ⟨c, made⟩).2.call = .finished .returned := by
  induction fuel generalizing a c n made with
  | zero =>
    obtain rfl : n = 0 := by omega
    cases hn
    rfl
  | succ fuel ih =>
    unfold Arena.proceed
    split
    · rename_i hstop
      cases hn <;> simp [Call.outcome?] at hstop
      rfl
    · rename_i hstop
      have hc : c.outcome? = none := by simpa using hstop
      obtain ⟨p, hp⟩ := h.exists_pool
      have hstep : ∀ granted made, ((a.step id granted c).1.proceed allocator id (fun _ => false)
          fuel ⟨(a.step id granted c).2, made⟩).2.call = .finished .returned := by
        intro granted made
        have hrun := h.run granted hc
        have hnext := fun v hv => hlawful v (h.objects_of_run granted hc hv)
        rcases hs : a.step id granted c with ⟨a', c'⟩
        rw [hs] at hrun hnext
        obtain ⟨p', e, heq, -⟩ := Arena.step_eq hp hs
        rcases hn.step hc heq with ⟨n', hlt, hn'⟩ | ⟨v, rfl⟩
        · exact ih made hrun hn' hnext (by omega)
        · exact absurd rfl (hnext v)
      cases a.reservation? id c with
      | none => exact hstep true made
      | some r => exact hstep (allocator made r) (made + 1)

/-- The arena when what is to be done is done while nothing else happens. -/
def Arena.disposed (allocator : Allocator) (a : Arena ε) : Disposal → Arena ε
  | .call id c => (a.complete allocator id ⟨c, 0⟩).1
  | _ => a

theorem World.Has.complete_dropped {id : PoolId} {c : Call}
    (h : Has rest a held (some (id, c))) (hd : x.dropped = .call id c)
    (hlawful : x.dropped.Lawful a.memory) (allocator : Allocator) :
    (a.complete allocator id ⟨c, 0⟩).2.call = .finished .returned := by
  rw [hd] at hlawful
  refine h.returns 0 (returns_of_dropped hd) hlawful ?_ allocator
  rw [Arena.patience]
  omega

namespace Session

theorem complete_returning {id : PoolId} {c : Call} (h : World.Has rest s.arena held (some (id, c)))
    (hn : c.Returns 3) (hlawful : ∀ v, ¬ c.Objects s.memory id v) (allocator : Allocator)
    (answer : Except Failure (Reply ε)) :
    s.complete allocator (.call id c (.answer answer)) =
      (⟨s.item, (s.arena.complete allocator id ⟨c, 0⟩).1, s.registers⟩, answer) := by
  obtain ⟨item, arena, registers⟩ := s
  have hfuel : 3 ≤ arena.patience id c := by
    rw [Arena.patience]
    omega
  have hret := h.returns 0 hn hlawful hfuel allocator
  simp only [complete, Execution.call, completeWithin, proceed, Arena.complete] at hret ⊢
  rcases hp : arena.proceed allocator id (fun _ => false) (arena.patience id c) ⟨c, 0⟩ with
    ⟨a', c', made'⟩
  rw [hp] at hret
  obtain rfl : c' = .finished .returned := hret
  rfl

theorem complete_dropped (h : World.Has rest s.arena held x.dropped.call?)
    (hlawful : x.dropped.Lawful s.memory) (allocator : Allocator)
    (answer : Except Failure (Reply ε)) :
    s.complete allocator (.disposing x.dropped answer) =
      (⟨s.item, s.arena.disposed allocator x.dropped, s.registers⟩, answer) := by
  cases hd : x.dropped with
  | nothing => rfl
  | violation v =>
    rw [hd] at hlawful
    exact absurd hlawful id
  | call id c =>
    rw [hd] at h hlawful
    exact complete_returning h (returns_of_dropped hd) hlawful allocator answer

theorem start_drop {name : String} (hg : s.registers.get? name = some x) :
    s.start (.drop (some name)) =
      ({ s with registers := s.registers.remove name }, .disposing x.dropped (.ok .done)) := by
  simp only [Session.start, Session.taking, find, hg]

theorem start_reset {name : String} (hg : s.registers.get? name = some x)
    (hb : x.isBare = false) : s.start (.reset (some name)) =
      (s.update name x.emptied, .disposing x.dropped (.ok .done)) := by
  simp only [Session.start, Session.reset, Session.viewing, find, hg]
  cases x with
  | slot sl => simp [Held.isBare] at hb
  | stack st => simp [Held.isBare] at hb
  | _ => rfl

theorem Holds.perform_drop (h : Holds rest s []) {name : String}
    (hg : s.registers.get? name = some x) (allocator : Allocator) :
    s.perform allocator (.drop (some name)) =
      (⟨s.item, s.arena.disposed allocator x.dropped, s.registers.remove name⟩, .ok .done) := by
  have hhas := h.out hg
  rw [perform, start_drop hg]
  exact complete_dropped (s := { s with registers := s.registers.remove name }) hhas.drop
    (hhas.lawful List.mem_cons_self) allocator _

theorem Holds.perform_reset (h : Holds rest s []) {name : String}
    (hg : s.registers.get? name = some x) (hb : x.isBare = false) (allocator : Allocator) :
    s.perform allocator (.reset (some name)) =
      (⟨s.item, s.arena.disposed allocator x.dropped, s.registers.store name x.emptied⟩,
        .ok .done) := by
  have hhas := h.out hg
  obtain ⟨item, arena, registers⟩ := s
  rw [perform, start_reset hg hb]
  exact complete_dropped (s := ⟨item, arena, registers.store name x.emptied⟩) (hhas.reset hb)
    (hhas.lawful List.mem_cons_self) allocator _

/-! ## One command after the other -/

/-- `x` is where a session comes to with the command `c`, which it starts in `s`. Before that it has
done other commands to their ends. The allocator answers as it likes. -/
inductive Doing (item : ItemType ε) :
    Session ε → Command ε → Session ε × Execution ε → Prop where
  | first (c : Command ε) : Doing item { item } c (start { item } c)
  | next {s₀ s : Session ε} {c₀ : Command ε} {answer : Except Failure (Reply ε)}
      (h : Doing item s₀ c₀ (s, .finished answer)) (c : Command ε) : Doing item s c (s.start c)
  | advance {s : Session ε} {c : Command ε} {x : Session ε × Execution ε} (h : Doing item s c x)
      (granted : Bool) : Doing item s c (x.1.advance granted x.2)

/-- Leases have slots of their pools only, and so have the free stacks. -/
structure Leased (s : Session ε) : Prop where
  lease : ∀ name l sl, s.registers.get? name = some (.lease l) → l.slot = some sl →
    ∃ id, l.pool = some id ∧ s.memory.owner? sl = some id
  leaseStack : ∀ name l, s.registers.get? name = some (.leaseStack l) → l.isEmpty = false →
    ∃ id, l.pool = some id ∧ ∀ sl ∈ l.stack.slots s.memory, s.memory.owner? sl = some id
  free : ∀ id p, s.arena.pool? id = some p → ∀ sl ∈ p.free.slots s.memory,
    s.memory.owner? sl = some id

variable {item : ItemType ε} {s' : Session ε} {c : Command ε} {y : Session ε × Execution ε}

theorem holds_start (item : ItemType ε) : Holds [] ({ item } : Session ε) [] :=
  ⟨List.nodup_nil, [], _, {}, World.Reachable.start.step (.join _ _ _), List.Perm.refl _,
    List.Perm.refl _⟩

theorem Doing.isClient (h : Doing item s c y) : IsClient (c.Breaks s) [] y := by
  induction h with
  | first c => exact (holds_start item).start c fun v hv => hv
  | next h c ih => exact Holds.start ⟨ih.distinct, ih.has⟩ c fun v hv => hv
  | advance h granted ih => exact ih.advance granted

theorem IsClient.leased (h : IsClient V rest y) : y.1.Leased := by
  obtain ⟨⟨item, arena, registers⟩, e⟩ := y
  have hmem : ∀ {name x}, registers.get? name = some x → x ∈ registers.things := fun hg =>
    (Registers.things_perm h.distinct hg).mem_iff.2 List.mem_cons_self
  have hhas : World.Has rest arena registers.things e.call? := h.has
  refine ⟨fun name l sl hg hl => ?_, fun name l hg hl => ?_, fun id p hp => ?_⟩
  · exact hhas.owned (hmem hg) rfl (by simp [Held.slots, Held.pieces, hl])
  · cases hp : l.pool with
    | none =>
      have hst : l.stack.isEmpty = false := hl
      have hlawful := hhas.lawful (hmem hg)
      simp [Held.dropped, LeaseStack.dropped, hst, hp, Disposal.Lawful] at hlawful
    | some id =>
      refine ⟨id, rfl, fun sl hs => ?_⟩
      have hmem' : sl ∈ (Held.leaseStack l).slots arena.memory := by
        rw [Held.slots, Held.pieces, slotsOf_cons, slotsOf_nil, List.append_nil]
        exact hs
      obtain ⟨other, hother, howner⟩ := hhas.owned (hmem hg) rfl hmem'
      exact howner.trans (hother.symm.trans hp)
  · obtain ⟨l, clients, losses, hr, -⟩ := hhas
    exact fun sl hs => ((World.tended_of_reachable hr).arena.free id p hp sl hs).owner

/-- A call that goes on takes steps of the session. How many reservations it has made does not
matter. -/
theorem Doing.proceed {id : PoolId} {call : Call} {made : Nat} {sequel : Sequel ε}
    (h : Doing item s c (s', .calling id ⟨call, made⟩ sequel)) (allocator : Allocator)
    (fuel : Nat) : ∃ made', Doing item s c
      ({ s' with arena :=
          (s'.arena.proceed allocator id (fun _ => false) fuel ⟨call, made⟩).1 },
        .calling id ⟨(s'.arena.proceed allocator id (fun _ => false) fuel ⟨call, made⟩).2.call,
          made'⟩ sequel) := by
  apply Arena.proceed_keeps (P := fun a call => ∃ made', Doing item s c
    ({ s' with arena := a }, .calling id ⟨call, made'⟩ sequel))
  · rintro a call granted hc ⟨made', h⟩
    refine ⟨made', ?_⟩
    have hstep := h.advance granted
    simp only [Session.advance, hc] at hstep
    exact hstep
  · exact ⟨made, h⟩

theorem Doing.completeWithin {e : Execution ε} (calls : Nat) (allocator : Allocator)
    (h : Doing item s c (s', e))
    (hw : (s'.completeWithin allocator e calls).2 ≠ .error .waiting) :
    Doing item s c ((s'.completeWithin allocator e calls).1,
      .finished (s'.completeWithin allocator e calls).2) := by
  induction calls generalizing s' e with
  | zero =>
    cases e with
    | finished answer => exact h
    | calling id progress sequel => exact absurd rfl hw
  | succ calls ih =>
    cases e with
    | finished answer => exact h
    | calling id progress sequel =>
      obtain ⟨item', arena, registers⟩ := s'
      obtain ⟨call, made⟩ := progress
      have hrun := h.proceed allocator (arena.patience id call)
      rcases hp : arena.proceed allocator id (fun _ => false) (arena.patience id call) ⟨call, made⟩
        with ⟨a', call', made'⟩
      rw [hp] at hrun
      obtain ⟨made'', hrun⟩ := hrun
      simp only [Session.completeWithin, Session.proceed, hp] at hw ⊢
      cases ho : call'.outcome? with
      | none => simp [ho] at hw
      | some o =>
        simp only [ho] at hw ⊢
        have hend := hrun.advance true
        simp only [Session.advance, ho] at hend
        exact ih hend hw

def Rests (item : ItemType ε) (s : Session ε) : Prop :=
  s = { item } ∨ ∃ s₀ c₀ answer, Doing item s₀ c₀ (s, .finished answer)

theorem Rests.start (h : Rests item s) (c : Command ε) : Doing item s c (s.start c) := by
  rcases h with rfl | ⟨s₀, c₀, answer, h⟩
  · exact .first c
  · exact h.next c

theorem Rests.perform (h : Rests item s) (allocator : Allocator) (c : Command ε)
    (hw : (s.perform allocator c).2 ≠ .error .waiting) :
    Doing item s c ((s.perform allocator c).1, .finished (s.perform allocator c).2) :=
  (h.start c).completeWithin 2 allocator hw

theorem Rests.performAll {allocator : Allocator} {work : List (Command ε)} (h : Rests item s)
    (hs : s.performAll allocator work = .ok s') : Rests item s' := by
  induction work generalizing s with
  | nil =>
    obtain rfl : s = s' := Except.ok.inj hs
    exact h
  | cons c work ih =>
    have hdone := h.perform allocator c
    simp only [Session.performAll] at hs
    rcases hc : s.perform allocator c with ⟨s₁, f | reply⟩
    · simp [hc] at hs
    · rw [hc] at hdone hs
      exact ih (.inr ⟨s, c, _, hdone (by simp)⟩) hs

theorem exists_rests {α : Type} (item : ItemType ε) (allocator : Allocator)
    (work : List (Command ε)) (f : Session ε → α) {v : α}
    (h : (performAll allocator { item } work).toOption.map f = some v) :
    ∃ s, Rests item s ∧ f s = v := by
  cases hp : performAll allocator { item } work with
  | error e => simp [hp, Except.toOption] at h
  | ok s =>
    refine ⟨s, Rests.performAll (.inl rfl) hp, ?_⟩
    simpa [hp, Except.toOption] using h

/-- At every step of every command leases have slots of their pools. So a rule is broken only where
a command makes a check of its own, whatever it drops then or before. No check is made when a lease
is dropped or its slots are given back, which is done to the end, or when slots are acquired. -/
theorem leases_owned (h : Doing item s c y) :
    y.1.Leased ∧ (∀ v, y.2 = .violated v → c.Breaks s v) ∧
      (∀ a v, c = .drop a ∨ c = .reset a → y.2 ≠ .violated v) ∧
      (∀ p leased content count dest v, c = .acquire p leased content dest ∨
        c = .acquireStack p count leased dest → y.2 ≠ .violated v) ∧
      ∀ answer name x allocator, y.2 = .finished answer → y.1.registers.get? name = some x →
        (y.1.perform allocator (.drop (some name))).2 = .ok .done ∧
          (x.isBare = false → (y.1.perform allocator (.reset (some name))).2 = .ok .done) := by
  have hclient := h.isClient
  have hbreaks : ∀ v, y.2 = .violated v → c.Breaks s v := by
    intro v hv
    apply hclient.voiced
    rw [hv]
    rfl
  refine ⟨hclient.leased, hbreaks, ?_, ?_, ?_⟩
  · rintro a v (rfl | rfl) hv <;> cases hbreaks v hv
  · rintro p leased content count dest v (rfl | rfl) hv <;> cases hbreaks v hv
  · intro answer name x allocator hy hg
    have hholds : Holds [] y.1 [] := ⟨hclient.distinct, by
      have hhas := hclient.has
      rw [hy] at hhas
      exact hhas⟩
    exact ⟨congrArg Prod.snd (hholds.perform_drop hg allocator),
      fun hb => congrArg Prod.snd (hholds.perform_reset hg hb allocator)⟩

def granting : Allocator := fun _ _ => true

/-- A lease of one pool, and a stack under a lease of another one. -/
def leasingWork : List (Command Int) := [
  .newPool (.sizes 2 none none), .newPool (.sizes 2 none none),
  .acquire 0 true none (some "a"), .acquireStack 1 (some 3) true (some "b")]

def crossing : Command Int := .push (some "b") (some "a")

def crossed? (s : Session Int) : Option Failure :=
  match (s.perform granting crossing).2 with
  | .error f => some f
  | .ok _ => none

theorem leases_owned_crossed :
    ∃ s y, Doing (.number 7) s crossing y ∧ y.2 = .violated (.crossMerge ⟨0⟩ ⟨1⟩) ∧
      y.1.Leased ∧ (y.1.perform granting (.drop (some "b"))).2 = .ok .done := by
  obtain ⟨s, hrests, hcrossed⟩ := exists_rests (.number 7) granting leasingWork
    (fun s => (crossed? s, ((s.perform granting crossing).1.registers.get? "b").isSome))
    (show _ = some (some (.violation (.crossMerge ⟨0⟩ ⟨1⟩)), true) by decide +kernel)
  obtain ⟨hcrossed, hb⟩ := Prod.mk.inj hcrossed
  obtain ⟨x, hx⟩ := Option.isSome_iff_exists.1 hb
  have hanswer : (s.perform granting crossing).2 = .error (.violation (.crossMerge ⟨0⟩ ⟨1⟩)) := by
    unfold crossed? at hcrossed
    split at hcrossed
    · rename_i f hf
      rw [hf, Option.some.inj hcrossed]
    · simp at hcrossed
  have hdoing := hrests.perform granting crossing (by simp [hanswer])
  rw [hanswer] at hdoing
  obtain ⟨hleased, -, -, -, hdrop⟩ := leases_owned hdoing
  exact ⟨s, _, hdoing, rfl, hleased, (hdrop _ "b" x granting rfl hx).1⟩

end Session

end SlotPool
