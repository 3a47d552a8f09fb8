import SlotPool.Proofs.Foreign

/-!
# Leases that are given to the wrong pool

A pool takes the slots out of a lease before it looks whose they are. If they are not its own, they
are in nobody's hands by then, and no pool gets them back. A lease that is merged into a lease of
another pool is looked at first, and gives its slots back when it is refused.
-/

namespace SlotPool

open Memory

variable {ε : Type} {rest : List Client} {a : Arena ε} {held : List Held} {id own : PoolId}
  {c : Call} {x : Held}

/-! ## Calls -/

namespace Call

theorem cleanAll_foreign {m : Memory ε} {l : List Slot} (hl : l ≠ [])
    (hown : ∀ s ∈ l, m.owner? s = some own) (hne : own ≠ id) (pristine : ε) :
    cleanAll id pristine m l = (m, some (.foreignSlot own id)) := by
  cases l with
  | nil => exact absurd rfl hl
  | cons s l => simp [cleanAll, hown s (by simp), hne]

theorem step_foreign {m : Memory ε} {p : Pool ε} {granted : Bool} (hn : c.Returns 3)
    (hc : c.slots m ≠ []) (hown : ∀ s ∈ c.slots m, m.owner? s = some own) (hne : own ≠ id) :
    c.step id granted m p = (m, p, none, finished (.broken (.foreignSlot own id))) := by
  cases hn with
  | cleanOne s =>
    have hclean := cleanAll_foreign (l := [s]) (by simp) (by simpa [slots, pieces] using hown) hne
      p.strategy.pristine
    simp [step, hclean]
  | cleanMany st =>
    have hslots : (cleanMany st).slots m = st.slots m := by simp [slots, pieces]
    rw [hslots] at hc hown
    have hst : st.isEmpty = false := by
      cases hhead : st.head with
      | none => simp [Stack.slots, hhead, chain_none] at hc
      | some s => simp [Stack.isEmpty, hhead]
    simp [step, hst, cleanAll_foreign hc hown hne]

end Call

theorem Arena.step_foreign {p : Pool ε} (hp : a.pool? id = some p) (hn : c.Returns 3)
    (hc : c.slots a.memory ≠ []) (hown : ∀ s ∈ c.slots a.memory, a.memory.owner? s = some own)
    (hne : own ≠ id) (granted : Bool) :
    a.step id granted c = (a, .finished (.broken (.foreignSlot own id))) := by
  obtain ⟨memory, pools, journal⟩ := a
  have hp' : pools[id.index]? = some p := hp
  have hstep : c.step id granted memory p = _ := Call.step_foreign hn hc hown hne
  simp only [step, hp', hstep, note]
  rw [Array.setIfInBounds_setIfInBounds, setIfInBounds_of_getElem? hp']

/-! ## Slots that are gone -/

namespace World

/-- Whatever happens from here on, the slot is free in no pool and in nobody's hands. -/
def Gone (w : World ε) (s : Slot) : Prop :=
  ∀ w', Relation.ReflTransGen World.Step w w' →
    s ∉ w'.freeSlots ∧ s ∉ w'.heldSlots ∧ s ∉ w'.runningSlots

theorem forfeited_step {w w' : World ε} (h : w.Step w') :
    w.losses.forfeited ⊆ w'.losses.forfeited := by
  cases h with
  | client a a' clients rest k k' losses new hc hk => exact List.subset_append_left _ _
  | _ => exact List.Subset.refl _

theorem gone_of_forfeited {w : World ε} (hr : w.Reachable) {s : Slot}
    (hs : s ∈ w.losses.forfeited) : w.Gone s := by
  intro w' hrun
  -- What is forfeited stays so, and a slot is in one place only.
  obtain ⟨hr', hs'⟩ : w'.Reachable ∧ s ∈ w'.losses.forfeited := by
    induction hrun with
    | refl => exact ⟨hr, hs⟩
    | tail _ hstep ih => exact ⟨ih.1.step hstep, forfeited_step hstep ih.2⟩
  have hcount := List.nodup_iff_count_le_one.1 (places_nodup hr') s
  rw [← List.count_pos_iff] at hs'
  simp only [places, List.count_append] at hcount
  simp only [← List.count_pos_iff]
  omega

theorem Has.misplace (h : Has rest a (x :: held) none) {p : Pool ε} (hp : a.pool? id = some p)
    {kind : HeldKind} (hr : Session.returning kind x = some (some c)) (hn : c.Returns 3)
    (hx : c.slots a.memory ≠ []) (hown : ∀ s ∈ c.slots a.memory, a.memory.owner? s = some own)
    (hne : own ≠ id) :
    ∃ w : World ε, w.Reachable ∧ w.arena = a ∧ w.clients = ⟨held, none⟩ :: rest ∧
      ∀ s ∈ c.slots a.memory, w.Gone s := by
  obtain ⟨l, clients, losses, hreach, hc, hl⟩ := h
  have hgive := hreach.step (.client a a clients rest _ _ losses _ hc
    (.give a l held x kind id p c hl hp hr))
  have hlive : c.outcome? = none := by cases hn <;> rfl
  have hrun := hgive.step (.client a a _ rest _ _ _ _ (List.Perm.refl _)
    (.run a a held id true c _ hlive (Arena.step_foreign hp hn hx hown hne true)))
  have hfinish := hrun.step (.client a a _ rest _ _ _ _ (List.Perm.refl _)
    (.finish a held id _ (by simp)))
  refine ⟨_, hfinish, rfl, rfl, fun s hs => gone_of_forfeited hfinish ?_⟩
  simp [Call.forfeited, hs]

end World

/-! ## Commands -/

namespace Session

variable {s : Session ε} {name : String}

theorem returning_of_dropped (hd : x.dropped = .call id c) :
    returning (kindOf x) x = some (some c) := by
  cases x with
  | slot sl => simp [Held.dropped] at hd
  | stack st => simp [Held.dropped] at hd
  | lease l =>
    obtain ⟨slot, pool⟩ := l
    cases slot with
    | none => simp [Held.dropped, Lease.dropped] at hd
    | some sl =>
      cases pool with
      | none => simp [Held.dropped, Lease.dropped] at hd
      | some pool =>
        obtain ⟨-, rfl⟩ := Disposal.call.inj hd
        rfl
  | leaseStack l =>
    simp only [Held.dropped, LeaseStack.dropped] at hd
    split at hd
    · simp at hd
    · split at hd
      · simp at hd
      · obtain ⟨-, rfl⟩ := Disposal.call.inj hd
        rfl

theorem Holds.perform_push (h : Holds rest s []) (hg : s.registers.get? name = some x)
    (hb : x.isBare = false) {target : String} {l : LeaseStack} {other : PoolId}
    (ht : s.registers.get? target = some (.leaseStack l)) (hx : x.pool? = some own)
    (hl : l.pool = some other) (hne : other ≠ own) (allocator : Allocator) :
    s.perform allocator (.push (some target) (some name)) =
      (⟨s.item, s.arena.disposed allocator x.dropped, s.registers.remove name⟩,
        .error (.violation (.crossMerge own other))) := by
  have hhas := h.out hg
  have hother : target ≠ name := by
    rintro rfl
    obtain rfl : .leaseStack l = x := Option.some.inj (ht.symm.trans hg)
    exact hne (Option.some.inj (hl.symm.trans hx))
  have ht' : (s.registers.remove name).get? target = some (.leaseStack l) := by
    rw [Registers.get?_remove_of_ne hother, ht]
  have hadopt : l.adopt x.pool? = .error (.crossMerge own other) := by
    simp [LeaseStack.adopt, hx, hl, hne]
  have hstart : s.start (.push (some target) (some name)) =
      ({ s with registers := s.registers.remove name },
        .disposing x.dropped (.error (.violation (.crossMerge own other)))) := by
    simp only [Session.start, Session.push, Session.merging, Session.taking, find, hg, ht']
    cases x with
    | slot sl => simp [Held.isBare] at hb
    | stack st => simp [Held.isBare] at hb
    | lease one =>
      have hadopt' : l.adopt one.pool = _ := hadopt
      simp only [Session.mergeLease, hadopt']
      rfl
    | leaseStack more =>
      have hadopt' : l.adopt more.pool = _ := hadopt
      simp only [Session.mergeLease, hadopt']
      rfl
  rw [perform, hstart]
  exact complete_dropped (s := { s with registers := s.registers.remove name }) hhas.drop
    (hhas.lawful List.mem_cons_self) allocator _

/-- A lease that is given to another pool than its own is refused, and its slots are gone: no pool
is changed by it, and no pool ever has them again. Had the lease been merged into a lease of another
pool, it would have been refused too, but its slots would be free. -/
theorem misplaced_gone (h : Holds rest s []) (hg : s.registers.get? name = some x)
    (hb : x.isBare = false) (hx : x.pool? = some own) (hs : x.slots s.memory ≠ []) {p : Nat}
    {pool : Pool ε} (hp : s.arena.pool? ⟨p⟩ = some pool) (hne : own ≠ ⟨p⟩)
    (allocator : Allocator) :
    s.perform allocator (.release p (kindOf x) (some name)) =
        ({ s with registers := s.registers.remove name },
          .error (.violation (.foreignSlot own ⟨p⟩))) ∧
      (∃ w : World ε, w.Reachable ∧ w.arena = s.arena ∧
        w.clients = ⟨(s.registers.remove name).things, none⟩ :: rest ∧
        ∀ sl ∈ x.slots s.memory, w.Gone sl) ∧
      ∀ target l other, s.registers.get? target = some (.leaseStack l) → l.pool = some other →
        other ≠ own → ∃ s', s.perform allocator (.push (some target) (some name)) =
          (s', .error (.violation (.crossMerge own other))) ∧ s.GivesBack s' x := by
  have hhas := h.out hg
  obtain ⟨sl, hsl⟩ := List.exists_mem_of_ne_nil _ hs
  obtain ⟨c, hd⟩ := Held.dropped_of_mem hb hx hsl
  have hreturning := returning_of_dropped hd
  have hreturns := returns_of_dropped hd
  have hslots : c.slots s.arena.memory = x.slots s.memory := by
    rw [Call.slots, Held.slots, (givenBy_of_dropped hd).1.pieces_eq]
    rfl
  have howned : ∀ sl ∈ c.slots s.arena.memory, s.arena.memory.owner? sl = some own := by
    intro sl hsl
    rw [hslots] at hsl
    exact (hhas.vetted List.mem_cons_self hb sl hsl).trans hx
  have hsome : c.slots s.arena.memory ≠ [] := by rwa [hslots]
  refine ⟨?_, ?_, fun target l other ht hl hother => ?_⟩
  · rw [perform, start_release hg hp hreturning]
    exact complete_broken (s := { s with registers := s.registers.remove name }) hreturns
      (Arena.step_foreign hp hreturns hsome howned hne true) allocator _
  · rw [← hslots]
    exact hhas.misplace hp hreturning hreturns hsome howned hne
  · exact ⟨_, h.perform_push hg hb ht hx hl hother allocator, hhas.disposed hb allocator⟩

/-! ## Three slots that are gone -/

def misplacingWork : List (Command Int) := leasingWork ++ [.makeLeaseStack 0 (some "t")]

def misplacing : Command Int := .release 0 .leaseStack (some "b")

def three : Held := .leaseStack ⟨⟨some ⟨5⟩, some ⟨3⟩, 3⟩, some ⟨1⟩⟩

theorem misplaced_gone_three :
    ∃ s, Rests (.number 7) s ∧ s.registers.get? "b" = some three ∧
      three.slots s.memory = [⟨5⟩, ⟨4⟩, ⟨3⟩] ∧
      s.perform granting misplacing = ({ s with registers := s.registers.remove "b" },
        .error (.violation (.foreignSlot ⟨1⟩ ⟨0⟩))) ∧
      (∃ w : World Int, w.Reachable ∧ w.arena = s.arena ∧ w.Gone ⟨5⟩ ∧ w.Gone ⟨4⟩ ∧ w.Gone ⟨3⟩) ∧
      ∃ s', s.perform granting (.push (some "t") (some "b")) =
        (s', .error (.violation (.crossMerge ⟨1⟩ ⟨0⟩))) ∧ s.GivesBack s' three := by
  obtain ⟨s, hrests, hs⟩ := exists_rests (.number 7) granting misplacingWork
    (fun s => (s.registers.get? "b", s.registers.get? "t", three.slots s.memory,
      (s.arena.pool? ⟨0⟩).isSome))
    (show _ = some (some three, some (.leaseStack ⟨{}, some ⟨0⟩⟩), [⟨5⟩, ⟨4⟩, ⟨3⟩], true) by
      decide +kernel)
  simp only [Prod.mk.injEq] at hs
  obtain ⟨hb, ht, hslots, hpool⟩ := hs
  obtain ⟨p, hp⟩ := Option.isSome_iff_exists.1 hpool
  obtain ⟨hdone, ⟨w, hr, ha, -, hgone⟩, hmerge⟩ := misplaced_gone hrests.holds hb rfl rfl
    (by simp [hslots]) hp (by simp) granting
  rw [hslots] at hgone
  exact ⟨s, hrests, hb, hslots, hdone,
    ⟨w, hr, ha, hgone _ (by simp), hgone _ (by simp), hgone _ (by simp)⟩,
    hmerge "t" _ ⟨0⟩ ht rfl (by simp)⟩

/-- Slots of a lease that is given to another pool are not free afterwards. -/
theorem not_freed_of_misplaced :
    ¬ ∀ (s : Session Int) name x own p pool q, Rests (.number 7) s →
      s.registers.get? name = some x → x.isBare = false → x.pool? = some own → own ≠ ⟨p⟩ →
      s.arena.pool? ⟨p⟩ = some pool → s.arena.pool? own = some q →
      ∃ q', (s.perform granting (.release p (kindOf x) (some name))).1.arena.pool? own = some q' ∧
        q'.available = q.available + (x.slots s.memory).length := by
  intro hfreed
  obtain ⟨s, hrests, hs⟩ := exists_rests (.number 7) granting misplacingWork
    (fun s => (s.registers.get? "b", three.slots s.memory, (s.arena.pool? ⟨0⟩).isSome,
      (s.arena.pool? ⟨1⟩).map Pool.available,
      ((s.perform granting misplacing).1.arena.pool? ⟨1⟩).map Pool.available))
    (show _ = some (some three, [⟨5⟩, ⟨4⟩, ⟨3⟩], true, some 1, some 1) by decide +kernel)
  simp only [Prod.mk.injEq] at hs
  obtain ⟨hb, hslots, hpool, hbefore, hafter⟩ := hs
  obtain ⟨p, hp⟩ := Option.isSome_iff_exists.1 hpool
  obtain ⟨q, hq, hbefore⟩ := Option.map_eq_some_iff.1 hbefore
  obtain ⟨q₁, hq₁, hafter⟩ := Option.map_eq_some_iff.1 hafter
  obtain ⟨q', hq', hmore⟩ := hfreed s "b" three ⟨1⟩ 0 p q hrests hb rfl rfl (by simp) hp hq
  obtain rfl : q₁ = q' := Option.some.inj (hq₁.symm.trans hq')
  rw [hslots, hbefore, hafter] at hmore
  simp at hmore

end Session

end SlotPool
