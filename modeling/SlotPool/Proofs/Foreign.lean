import SlotPool.Proofs.Returns

/-!
# Slots go to their own pools only

A slot that is given to a pool, or put under a lease of one, is taken if the pool provided it. If it
did not, the command breaks a rule, and all pools are as they were before it: a slot of another pool
never gets to a free stack, even where it is met behind slots of the pool's own.
-/

namespace SlotPool

open Memory

variable {ε : Type} {rest : List Client} {a : Arena ε} {held : List Held} {id : PoolId}
  {c : Call} {v : Violation}

theorem setIfInBounds_of_getElem? {α : Type} {xs : Array α} {i : Nat} {x : α}
    (h : xs[i]? = some x) : xs.setIfInBounds i x = xs := by
  apply Array.ext_getElem?
  intro j
  by_cases hj : i = j
  · subst hj
    obtain ⟨hlt, -⟩ := Array.getElem?_eq_some_iff.1 h
    exact (Array.getElem?_setIfInBounds_self_of_lt hlt).trans h.symm
  · exact Array.getElem?_setIfInBounds_ne hj

/-! ## Checks -/

theorem exists_error_iff {check : Except Violation Unit} :
    (∃ v, check = .error v) ↔ check ≠ .ok () := by
  cases check <;> simp

theorem checkOwner_error {m : Memory ε} {s : Slot} (hs : s.index < m.size) :
    (∃ v, checkOwner m id s = .error v) ↔ m.owner? s ≠ some id := by
  rw [exists_error_iff, ne_eq, checkOwner_ok hs]

theorem LeaseStack.checkAll_error {m : Memory ε} {l : List Slot}
    (hl : ∀ s ∈ l, s.index < m.size) :
    (∃ v, checkAll m id l = .error v) ↔ ∃ s ∈ l, m.owner? s ≠ some id := by
  rw [exists_error_iff, ne_eq, checkAll_ok hl]
  simp

namespace Call

theorem cleanAll_of_checkAll {pristine : ε} {m : Memory ε} {l : List Slot}
    (h : LeaseStack.checkAll m id l = .error v) : (cleanAll id pristine m l).2 = some v := by
  induction l generalizing m with
  | nil => simp [LeaseStack.checkAll] at h
  | cons s l ih =>
    have hfill : ∀ t, (m.fill s pristine).owner? t = m.owner? t := fun t => by
      rw [owner?, owner?, cell?, cell?, cells_fill]
    rw [LeaseStack.checkAll, checkOwner] at h
    unfold cleanAll
    cases ho : m.owner? s with
    | none =>
      simp only [ho] at h ⊢
      exact ih h
    | some owner =>
      simp only [ho] at h ⊢
      split at h
      · rename_i he
        rw [if_pos he]
        apply ih
        rw [LeaseStack.checkAll_congr hfill]
        exact h
      · rename_i hne
        rw [if_neg hne]
        obtain rfl : Violation.foreignSlot owner id = v := Except.error.inj h
        rfl

theorem step_of_objects {granted : Bool} {m m' : Memory ε} {p p' : Pool ε} {c' : Call}
    {e : Option Event} (hc : c.outcome? = none) (hv : c.Objects m id v)
    (h : c.step id granted m p = (m', p', e, c')) :
    p' = p ∧ c' = finished (.broken v) ∧ m'.cells = m.cells := by
  cases c with
  | cleanOne s =>
    obtain ⟨rfl, rfl, hc'⟩ := cleanOne_step h
    have hcheck : LeaseStack.checkAll m id [s] = .error v := by
      have hv : checkOwner m id s = .error v := hv
      rw [LeaseStack.checkAll, hv]
      rfl
    rw [cleanAll_of_checkAll hcheck] at hc'
    exact ⟨rfl, hc', cells_cleanAll _ _ _ _⟩
  | cleanMany st =>
    have hcheck : LeaseStack.checkAll m id (st.slots m) = .error v := hv
    obtain ⟨rfl, hst⟩ := cleanMany_step h
    split at hst
    · rename_i hempty
      have hhead : st.head = none := by simpa [Stack.isEmpty] using hempty
      simp [Stack.slots, hhead, chain_none, LeaseStack.checkAll] at hcheck
    · obtain ⟨rfl, hc'⟩ := hst
      rw [cleanAll_of_checkAll hcheck] at hc'
      exact ⟨rfl, hc', cells_cleanAll _ _ _ _⟩
  | finished o => simp [outcome?] at hc
  | _ => exact False.elim hv

end Call

/-! ## What a broken rule leaves -/

/-- All pools are as they were, and their free stacks have the same slots in the same order, with
the same values. -/
structure Arena.Spares (a a' : Arena ε) : Prop where
  pools : a'.pools = a.pools
  free : ∀ id p, a.pool? id = some p → p.free.slots a'.memory = p.free.slots a.memory ∧
    ∀ s ∈ p.free.slots a.memory, a'.memory.value s = a.memory.value s

theorem Arena.Spares.refl (a : Arena ε) : a.Spares a :=
  ⟨rfl, fun _ _ _ => ⟨rfl, fun _ _ => rfl⟩⟩

theorem World.Has.objection (h : Has rest a held (some (id, c))) (hc : c.outcome? = none)
    (hv : c.Objects a.memory id v) (granted : Bool) :
    ∃ a', a.step id granted c = (a', .finished (.broken v)) ∧ a.Spares a' ∧
      Has rest a' held none := by
  obtain ⟨p, hp⟩ := h.exists_pool
  obtain ⟨frame, hpart⟩ := h.exists_call_partition
  have hrun := h.run granted hc
  rcases hs : a.step id granted c with ⟨a', c'⟩
  obtain ⟨p', e, hstep, hpools⟩ := Arena.step_eq hp hs
  obtain ⟨rfl, rfl, hcells⟩ := Call.step_of_objects hc hv hstep
  rw [hs] at hrun
  refine ⟨a', rfl, ⟨hpools.trans (setIfInBounds_of_getElem? hp), fun other q hq =>
    ⟨?_, fun s hs' => ?_⟩⟩, hrun.finish (by simp)⟩
  · exact Piece.slots_of_cells hcells (.chain q.free)
  · -- The call may have cleaned some of its own slots by then, but none that is free.
    have hq : .chain q.free ∈ a.free := List.mem_map.2
      ⟨q, Array.mem_toList_iff.2 (Array.mem_of_getElem? hq), rfl⟩
    have hmem : s ∈ slotsOf a.memory a.free := List.mem_flatMap.2 ⟨_, hq, hs'⟩
    have hlt := hpart.lt_size s (by simp [hmem])
    rw [List.append_assoc] at hpart
    refine (Call.step_keeps hstep h.laid).value s hlt fun hcall => hpart.disjoint hmem ?_
    rw [slotsOf_append]
    exact List.mem_append_left _ hcall

/-! ## Commands -/

namespace Session

variable {s : Session ε} {name : String} {x : Held}

/-- The command breaks a rule if `foreign` holds and is done otherwise. If it breaks one, all pools
are as they were, and the session goes on. -/
structure Rejects (rest : List Client) (allocator : Allocator) (s : Session ε) (c : Command ε)
    (foreign : Prop) : Prop where
  done : ¬ foreign → (s.perform allocator c).2 = .ok .done
  broken : foreign → ∃ v, (s.perform allocator c).2 = .error (.violation v)
  spares : foreign → s.arena.Spares (s.perform allocator c).1.arena
  holds : foreign → Holds rest (s.perform allocator c).1 []

theorem Rejects.of_done {allocator : Allocator} {command : Command ε} {foreign : Prop}
    (hf : ¬ foreign) (h : (s.perform allocator command).2 = .ok .done) :
    Rejects rest allocator s command foreign :=
  ⟨fun _ => h, fun hf' => absurd hf' hf, fun hf' => absurd hf' hf, fun hf' => absurd hf' hf⟩

theorem Rejects.of_broken {allocator : Allocator} {command : Command ε} {foreign : Prop}
    {s' : Session ε} (hf : foreign)
    (h : s.perform allocator command = (s', .error (.violation v)))
    (hspares : s.arena.Spares s'.arena) (hholds : Holds rest s' []) :
    Rejects rest allocator s command foreign :=
  ⟨fun hf' => absurd hf hf', fun _ => ⟨v, by rw [h]⟩, fun _ => by rwa [h], fun _ => by rwa [h]⟩

theorem Rejects.of_violated {allocator : Allocator} {command : Command ε} {foreign : Prop}
    {s' : Session ε} (hf : foreign) (hstart : s.start command = (s', .violated v))
    (ha : s'.arena = s.arena) (hholds : Holds rest s' []) :
    Rejects rest allocator s command foreign := by
  have hdone : s.perform allocator command = (s', .error (.violation v)) := by
    rw [perform, hstart]
    rfl
  exact .of_broken hf hdone (ha ▸ .refl _) hholds

theorem Holds.taken (h : Holds rest s []) (hg : s.registers.get? name = some x) :
    Holds rest { s with registers := s.registers.remove name } [x] :=
  ⟨h.distinct.remove name, h.has.perm (Registers.things_perm h.distinct hg)⟩

theorem complete_broken {a' : Arena ε} (hn : c.Returns 3)
    (hstep : s.arena.step id true c = (a', .finished (.broken v))) (allocator : Allocator)
    (answer : Except Failure (Reply ε)) :
    s.complete allocator (.call id c (.answer answer)) =
      (⟨s.item, a', s.registers⟩, .error (.violation v)) := by
  obtain ⟨item, arena, registers⟩ := s
  have hc : c.outcome? = none := by cases hn <;> rfl
  have hnone : arena.reservation? id c = none := by
    cases hn <;> simp [Arena.reservation?, Call.reservation?]
  have hproceed : ∀ fuel, arena.proceed allocator id (fun _ => false) (fuel + 1) ⟨c, 0⟩ =
      (a', ⟨.finished (.broken v), 0⟩) := by
    intro fuel
    simp only [Arena.proceed, hc, hnone, hstep]
    cases fuel <;> rfl
  simp only [complete, completeWithin, proceed, Execution.call, Arena.patience]
  rw [hproceed]
  rfl

theorem start_release (hg : s.registers.get? name = some x) {p : Nat} {pool : Pool ε}
    (hp : s.arena.pool? ⟨p⟩ = some pool) {kind : HeldKind}
    (hr : returning kind x = some (some c)) :
    s.start (.release p kind (some name)) =
      ({ s with registers := s.registers.remove name }, .call ⟨p⟩ c (.answer (.ok .done))) := by
  have hp' : s.arena.pools[p]? = some pool := hp
  simp only [start, release, taking, find, hg, hr, pool?, hp']

theorem Holds.rejects_release (h : Holds rest s []) (hg : s.registers.get? name = some x)
    {p : Nat} {pool : Pool ε} (hp : s.arena.pool? ⟨p⟩ = some pool) {kind : HeldKind}
    (hr : returning kind x = some (some c)) (hn : c.Returns 3) (allocator : Allocator) :
    Rejects rest allocator s (.release p kind (some name)) (∃ v, c.Objects s.memory ⟨p⟩ v) := by
  have htaken := h.taken hg
  have hcall := htaken.has.give hp hr
  have hstart := start_release hg hp hr
  by_cases hv : ∃ v, c.Objects s.memory ⟨p⟩ v
  · obtain ⟨v, hv⟩ := hv
    have hc : c.outcome? = none := by cases hn <;> rfl
    obtain ⟨a', hstep, hspares, hhas⟩ := hcall.objection hc hv true
    have hdone := complete_broken (s := { s with registers := s.registers.remove name }) hn hstep
      allocator (.ok .done)
    have hholds : Holds rest ⟨s.item, a', s.registers.remove name⟩ [] := ⟨htaken.distinct, hhas⟩
    exact .of_broken ⟨v, hv⟩ (by rw [perform, hstart]; exact hdone) hspares hholds
  · have hdone := complete_returning (s := { s with registers := s.registers.remove name }) hcall hn
      (not_exists.1 hv) allocator (.ok .done)
    exact .of_done hv (by rw [perform, hstart]; exact congrArg Prod.snd hdone)

theorem Holds.complete_store (h : Holds rest s [x]) (dest : String) (allocator : Allocator) :
    ((s.store (some dest) x (.ok .done)).1.complete allocator
      (s.store (some dest) x (.ok .done)).2).2 = .ok .done := by
  obtain ⟨item, arena, registers⟩ := s
  cases hg : registers.get? dest with
  | none =>
    simp only [Session.store, hg]
    rfl
  | some old =>
    have hhas : World.Has rest arena (old :: x :: (registers.remove dest).things) none :=
      h.has.perm (((Registers.things_perm h.distinct hg).cons x).trans (List.Perm.swap old x _))
    simp only [Session.store, hg, update]
    exact congrArg Prod.snd (complete_dropped (s := ⟨item, arena, registers.store dest x⟩)
      hhas.drop (hhas.lawful List.mem_cons_self) allocator (.ok .done))

theorem Holds.rejects_leasing (h : Holds rest s []) (hg : s.registers.get? name = some x)
    {p : Nat} {pool : Pool ε} (hp : s.arena.pool? ⟨p⟩ = some pool) (hb : x.isBare = true)
    {dest : String} {r : Except Violation Held} (command : Command ε)
    (lease : Memory ε → PoolId → Held → Option (Except Violation Held))
    (hstart : s.start command = s.leasing p (some name) (some dest) lease)
    (hl : lease s.memory ⟨p⟩ x = some r)
    (hm : ∀ y, r = .ok y → Moves s.arena.HasPool s.memory [x] s.memory [y])
    (allocator : Allocator) : Rejects rest allocator s command (∃ v, r = .error v) := by
  have htaken := h.taken hg
  have hnone : ∀ id c, x.dropped ≠ .call id c := by
    cases x <;> simp [Held.isBare] at hb <;> simp [Held.dropped]
  have hp' : s.arena.pools[p]? = some pool := hp
  simp only [Session.leasing, Session.taking, find, hg, memory, pool?, hp'] at hstart hl
  cases r with
  | error v =>
    simp only [hl] at hstart
    exact .of_violated ⟨v, rfl⟩ hstart rfl (htaken.lose hnone)
  | ok y =>
    simp only [hl] at hstart
    refine .of_done (by simp) ?_
    rw [perform, hstart]
    exact Holds.complete_store ⟨htaken.distinct, htaken.has.move (hm y rfl)⟩ dest allocator

theorem Holds.rejects_push (h : Holds rest s []) {target source : String} {l : LeaseStack}
    {sl : Slot} (ha : s.registers.get? target = some (.leaseStack l))
    (hb : s.registers.get? source = some (.slot sl)) (allocator : Allocator) :
    Rejects rest allocator s (.push (some target) (some source))
      (∃ v, l.checkPush s.memory sl = .error v) := by
  have htaken := h.taken hb
  have hne : target ≠ source := by
    rintro rfl
    simp [ha] at hb
  have ha' : (s.registers.remove source).get? target = some (.leaseStack l) := by
    rw [Registers.get?_remove_of_ne hne, ha]
  cases hl : l.checkPush s.memory sl with
  | error v =>
    have hstart : s.start (.push (some target) (some source)) =
        ({ s with registers := s.registers.remove source }, .violated v) := by
      have hl' : l.checkPush s.arena.memory sl = .error v := hl
      simp only [Session.start, Session.push, Session.merging, Session.taking, find, hb, ha',
        memory, hl']
    exact .of_violated ⟨v, rfl⟩ hstart rfl (htaken.lose (by simp [Held.dropped]))
  | ok u =>
    refine .of_done (by simp) ?_
    have hl' : l.checkPush s.arena.memory sl = .ok u := hl
    simp only [perform, Session.start, Session.push, Session.merging, Session.taking, find, hb, ha',
      memory, hl', withMemory]
    rfl

/-! ## The rules -/

theorem Rejects.congr {allocator : Allocator} {command : Command ε} {foreign foreign' : Prop}
    (h : Rejects rest allocator s command foreign) (hf : foreign ↔ foreign') :
    Rejects rest allocator s command foreign' :=
  propext hf ▸ h

theorem ofSlot_error {m : Memory ε} {sl : Slot} :
    (∃ v, (Lease.ofSlot m id sl).map Held.lease = .error v) ↔
      ∃ v, checkOwner m id sl = .error v := by
  cases hc : checkOwner m id sl <;> simp [Lease.ofSlot, hc, bind, Except.bind, Except.map, pure,
    Except.pure]

theorem ofStack_error {m : Memory ε} {st : Stack} :
    (∃ v, (LeaseStack.ofStack m id st).map Held.leaseStack = .error v) ↔
      ∃ v, LeaseStack.checkAll m id (st.slots m) = .error v := by
  cases hc : LeaseStack.checkAll m id (st.slots m) <;> simp [LeaseStack.ofStack, hc, bind,
    Except.bind, Except.map, pure, Except.pure]

theorem checkPush_error {m : Memory ε} {l : LeaseStack} {sl : Slot} (hs : sl.index < m.size) :
    (∃ v, l.checkPush m sl = .error v) ↔ l.pool = none ∨ m.owner? sl ≠ l.pool := by
  unfold LeaseStack.checkPush
  cases l.pool with
  | none => simp
  | some pool =>
    rw [checkOwner_error hs]
    simp

/-- A slot is taken by the pool that provided it and by no other one, and it is put under a lease of
that pool only. The same holds of a stack if one pool provided all of its slots. What is refused
changes no pool, and nothing but their own slots is ever on their free stacks. -/
theorem foreign_rejected (h : Holds rest s []) (allocator : Allocator) :
    (∀ p pool name sl, s.arena.pool? ⟨p⟩ = some pool → s.registers.get? name = some (.slot sl) →
      Rejects rest allocator s (.release p .slot (some name)) (s.memory.owner? sl ≠ some ⟨p⟩) ∧
      ∀ dest, Rejects rest allocator s (.leaseSlot p (some name) (some dest))
        (s.memory.owner? sl ≠ some ⟨p⟩)) ∧
    (∀ p pool name st, s.arena.pool? ⟨p⟩ = some pool → s.registers.get? name = some (.stack st) →
      Rejects rest allocator s (.release p .stack (some name))
        (∃ sl ∈ st.slots s.memory, s.memory.owner? sl ≠ some ⟨p⟩) ∧
      ∀ dest, Rejects rest allocator s (.leaseStack p (some name) (some dest))
        (∃ sl ∈ st.slots s.memory, s.memory.owner? sl ≠ some ⟨p⟩)) ∧
    (∀ target source l sl, s.registers.get? target = some (.leaseStack l) →
      s.registers.get? source = some (.slot sl) →
      Rejects rest allocator s (.push (some target) (some source))
        (l.pool = none ∨ s.memory.owner? sl ≠ l.pool)) ∧
    ∀ id p, s.arena.pool? id = some p → ∀ sl ∈ p.free.slots s.memory,
      s.memory.owner? sl = some id := by
  have hlt : ∀ {name x}, s.registers.get? name = some x → ∀ sl ∈ x.slots s.memory,
      sl.index < s.memory.size := fun hg sl hs => (h.out hg).lt_size List.mem_cons_self hs
  refine ⟨fun p pool name sl hp hg => ?_, fun p pool name st hp hg => ?_,
    fun target source l sl ha hb => ?_, ?_⟩
  · have hcheck : (∃ v, checkOwner s.memory ⟨p⟩ sl = .error v) ↔ _ :=
      checkOwner_error (hlt hg sl (by simp [Held.slots, Held.pieces]))
    refine ⟨(h.rejects_release hg hp rfl (.cleanOne sl) allocator).congr hcheck, fun dest => ?_⟩
    have hleasing := h.rejects_leasing hg hp rfl (.leaseSlot p (some name) (some dest)) _
      (by rw [Session.start, Session.leaseSlot]) rfl (fun y hy => moves_ofSlot hy ⟨pool, hp⟩)
      allocator
    exact hleasing.congr (ofSlot_error.trans hcheck)
  · have hcheck : (∃ v, LeaseStack.checkAll s.memory ⟨p⟩ (st.slots s.memory) = .error v) ↔ _ :=
      LeaseStack.checkAll_error fun sl hs => hlt hg sl (by
        simpa [Held.slots, Held.pieces] using hs)
    refine ⟨(h.rejects_release hg hp rfl (.cleanMany st) allocator).congr hcheck, fun dest => ?_⟩
    have hleasing := h.rejects_leasing hg hp rfl (.leaseStack p (some name) (some dest)) _
      (by rw [Session.start, Session.leaseStack]) rfl (fun y hy => moves_ofStack hy ⟨pool, hp⟩)
      allocator
    exact hleasing.congr (ofStack_error.trans hcheck)
  · have hsize := hlt hb sl (by simp [Held.slots, Held.pieces])
    exact (h.rejects_push ha hb allocator).congr (checkPush_error hsize)
  · obtain ⟨l, clients, losses, hr, -⟩ := h.has
    exact fun id p hp sl hs => ((World.tended_of_reachable hr).arena.free id p hp sl hs).owner

/-- A stack of two slots, of which the first one is from pool 0 and the second one from pool 1. -/
def mixingWork : List (Command Int) := [
  .newPool (.sizes 2 none none), .newPool (.sizes 2 none none),
  .acquire 0 false (some (.all 5)) (some "a"), .acquire 1 false none (some "b"),
  .makeEmpty .stack (some "s"), .push (some "s") (some "b"), .push (some "s") (some "a")]

def mixed : Stack := ⟨some ⟨1⟩, some ⟨3⟩, 2⟩

theorem foreign_rejected_mixed :
    ∃ s, Rests (.number 7) s ∧ s.registers.get? "s" = some (.stack mixed) ∧
      (mixed.slots s.memory).map s.memory.owner? = [some ⟨0⟩, some ⟨1⟩] ∧
      (∃ v, (s.perform granting (.release 0 .stack (some "s"))).2 = .error (.violation v)) ∧
      s.arena.Spares (s.perform granting (.release 0 .stack (some "s"))).1.arena := by
  obtain ⟨s, hrests, hs⟩ := exists_rests (.number 7) granting mixingWork
    (fun s => (s.registers.get? "s", mixed.slots s.memory, s.memory.owner? ⟨1⟩,
      s.memory.owner? ⟨3⟩, (s.arena.pool? ⟨0⟩).isSome))
    (show _ = some (some (.stack mixed), [⟨1⟩, ⟨3⟩], some ⟨0⟩, some ⟨1⟩, true) by decide +kernel)
  simp only [Prod.mk.injEq] at hs
  obtain ⟨hg, hslots, hfirst, hsecond, hpool⟩ := hs
  obtain ⟨p, hp⟩ := Option.isSome_iff_exists.1 hpool
  obtain ⟨-, hstacks, -⟩ := foreign_rejected hrests.holds granting
  have hrejects := (hstacks 0 p "s" mixed hp hg).1
  have hforeign : ∃ sl ∈ mixed.slots s.memory, s.memory.owner? sl ≠ some ⟨0⟩ :=
    ⟨⟨3⟩, by simp [hslots], by simp [hsecond]⟩
  refine ⟨s, hrests, hg, ?_, hrejects.broken hforeign, hrejects.spares hforeign⟩
  simp [hslots, hfirst, hsecond]

end Session

end SlotPool
