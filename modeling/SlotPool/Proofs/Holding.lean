import SlotPool.Proofs.World

/-!
# Things that clients hold

What a client does with what it holds moves slots from one thing to another, and so does a call that
it gives something to. A lease is always of a pool that was there when it was made.
-/

namespace SlotPool

open Memory

variable {ε : Type} {there : PoolId → Prop}

/-! ## Work on things held -/

theorem LeaseStack.adopt_stack {l l' : LeaseStack} {source : Option PoolId}
    (h : l.adopt source = .ok l') : l'.stack = l.stack := by
  unfold adopt at h
  cases source with
  | none =>
    obtain rfl : l = l' := by simpa using h
    rfl
  | some source =>
    cases hp : l.pool with
    | none =>
      rw [hp] at h
      obtain rfl : { l with pool := some source } = l' := by simpa using h
      rfl
    | some target =>
      simp only [hp] at h
      split at h
      · obtain rfl : l = l' := by simpa using h
        rfl
      · simp at h

theorem LeaseStack.adopt_pool {l l' : LeaseStack} {source : Option PoolId}
    (h : l.adopt source = .ok l') :
    (∀ id, source = some id → l'.pool = some id) ∧ ∀ id, l.pool = some id → l'.pool = some id := by
  unfold adopt at h
  cases source with
  | none =>
    obtain rfl : l = l' := by simpa using h
    exact ⟨by simp, fun id hid => hid⟩
  | some source =>
    cases hp : l.pool with
    | none =>
      rw [hp] at h
      obtain rfl : { l with pool := some source } = l' := by simpa using h
      exact ⟨fun id hid => hid, by simp⟩
    | some target =>
      simp only [hp] at h
      split at h
      · rename_i he
        obtain rfl : l = l' := by simpa using h
        exact ⟨by simp [hp, he], by simp [hp]⟩
      · simp at h

theorem LeaseStack.of_adopt_pool {l l' : LeaseStack} (other : Held) {id : PoolId}
    (h : l.adopt other.pool? = .ok l') (hid : l'.pool = some id) :
    ∃ old ∈ [.leaseStack l, other], old.pool? = some id := by
  obtain ⟨hsource, htarget⟩ := adopt_pool h
  cases hs : other.pool? with
  | some source =>
    refine ⟨other, by simp, ?_⟩
    rw [hs, ← hsource source hs, hid]
  | none =>
    rw [hs] at h
    obtain rfl : l = l' := by simpa [adopt] using h
    exact ⟨.leaseStack l, by simp, hid⟩

theorem LeaseStack.pushLease_pool (m : Memory ε) (l : LeaseStack) (other : Lease) :
    (l.pushLease m other).2.pool = l.pool := by
  unfold pushLease
  cases other.slot <;> rfl

theorem LeaseStack.insertLease_pool (cmp : Array ε → Array ε → Ordering) (m : Memory ε)
    (l : LeaseStack) (other : Lease) : (l.insertLease cmp m other).2.pool = l.pool := by
  unfold insertLease
  cases other.slot <;> rfl

theorem Lease.ofSlot_ok {m : Memory ε} {id : PoolId} {s : Slot} {l : Lease}
    (h : ofSlot m id s = .ok l) : checkOwner m id s = .ok () ∧ l = ⟨some s, some id⟩ := by
  unfold ofSlot at h
  cases hc : checkOwner m id s with
  | error v =>
    rw [hc] at h
    cases h
  | ok u =>
    rw [hc] at h
    cases h
    exact ⟨rfl, rfl⟩

theorem LeaseStack.ofStack_ok {m : Memory ε} {id : PoolId} {st : Stack} {l : LeaseStack}
    (h : ofStack m id st = .ok l) :
    checkAll m id (st.slots m) = .ok () ∧ l = ⟨st, some id⟩ := by
  unfold ofStack at h
  cases hc : checkAll m id (st.slots m) with
  | error v =>
    rw [hc] at h
    cases h
  | ok u =>
    rw [hc] at h
    cases h
    exact ⟨rfl, rfl⟩

theorem LeaseStack.pop_eq {m m' : Memory ε} {l l' : LeaseStack} {one : Lease}
    (h : l.pop m = (m', l', some one)) :
    ∃ s, l.stack.pop m = (m', l'.stack, some s) ∧ l'.pool = l.pool ∧ one = ⟨some s, l.pool⟩ := by
  unfold pop at h
  rcases hs : l.stack.pop m with ⟨m₁, st, _ | s⟩
  · simp [hs] at h
  · simp only [hs, Option.map_some, Prod.mk.injEq, Option.some.injEq] at h
    obtain ⟨rfl, rfl, rfl⟩ := h
    exact ⟨s, rfl, rfl, rfl⟩

theorem LeaseStack.split_eq {m m' : Memory ε} {l front rest : LeaseStack} {count : Nat}
    (h : l.split m count = (m', .ok (front, rest))) :
    l.stack.split m count = (m', .ok (front.stack, rest.stack)) ∧ front.pool = l.pool ∧
      rest.pool = l.pool := by
  unfold split at h
  rcases hs : l.stack.split m count with ⟨m₁, v | ⟨f, r⟩⟩
  · simp [hs] at h
  · simp only [hs, Prod.mk.injEq, Except.ok.injEq] at h
    obtain ⟨rfl, rfl, rfl⟩ := h
    exact ⟨rfl, rfl, rfl⟩

theorem pieces_adopt {l l' : LeaseStack} {source : Option PoolId} (h : l.adopt source = .ok l') :
    (Held.leaseStack l).pieces = (Held.leaseStack l').pieces := by
  rw [Held.pieces, Held.pieces, LeaseStack.adopt_stack h]

theorem moves_shifts {m m' : Memory ε} {before after : List Held}
    (h : Moves there m before m' after) :
    Shifts m m' (before.flatMap Held.pieces) (after.flatMap Held.pieces) := by
  cases h with
  | makeEmpty kind h hk =>
    cases kind with
    | slot => simp [Session.emptyOf] at hk
    | lease =>
      obtain rfl : .lease {} = h := by simpa [Session.emptyOf] using hk
      exact Shifts.refl m []
    | stack =>
      obtain rfl : .stack {} = h := by simpa [Session.emptyOf] using hk
      exact Shifts.empty m
    | leaseStack =>
      obtain rfl : .leaseStack {} = h := by simpa [Session.emptyOf] using hk
      exact Shifts.empty m
  | makeLeaseStack id hid => exact Shifts.empty m
  | write h s content hs => exact Shifts.of_cells (cells_write m s content) _
  | push st s => exact Shifts.push m st s
  | append st other =>
    exact (Shifts.append m st other).trans ((Shifts.empty _).append_left [_])
  | insert cmp st s => exact Shifts.insert m st s cmp
  | pop m' st st' s hp => exact Shifts.pop m st hp
  | split m' st front rest count hs => exact Shifts.split m st hs
  | leaseSlot id s l hid hl =>
    obtain ⟨-, rfl⟩ := Lease.ofSlot_ok hl
    exact Shifts.refl m [.single s]
  | leaseStack id st l hid hl =>
    obtain ⟨-, rfl⟩ := LeaseStack.ofStack_ok hl
    exact Shifts.refl m [.chain st]
  | pushBare l s hl => exact Shifts.push m l.stack s
  | pushLease l l' other hl =>
    obtain ⟨slot, pool⟩ := other
    rw [List.flatMap_cons, pieces_adopt hl]
    cases slot with
    | none => exact Shifts.refl m [.chain l'.stack]
    | some s => exact Shifts.push m l'.stack s
  | mergeStack l l' other hl =>
    rw [List.flatMap_cons, pieces_adopt hl]
    exact Shifts.append m l'.stack other.stack
  | insertLease cmp l l' other hl =>
    obtain ⟨slot, pool⟩ := other
    rw [List.flatMap_cons, pieces_adopt hl]
    cases slot with
    | none => exact Shifts.refl m [.chain l'.stack]
    | some s => exact Shifts.insert m l'.stack s cmp
  | popLease m' l l' one hp =>
    obtain ⟨s, hs, -, rfl⟩ := LeaseStack.pop_eq hp
    exact Shifts.pop m l.stack hs
  | splitLease m' l front rest count hs => exact Shifts.split m l.stack (LeaseStack.split_eq hs).1
  | detachSlot l l' s hd =>
    obtain ⟨rfl, hs⟩ : { l with slot := none } = l' ∧ l.slot = some s := by
      simpa [Lease.detach] using hd
    simpa [Held.pieces, hs] using Shifts.refl m [.single s]
  | detachStack l => exact (Shifts.empty m).append_right [.chain l.stack]

theorem moves_pool? {m m' : Memory ε} {before after : List Held}
    (h : Moves there m before m' after) {new : Held} (hnew : new ∈ after) {id : PoolId}
    (hid : new.pool? = some id) : there id ∨ ∃ old ∈ before, old.pool? = some id := by
  have hone : ∀ {h : Held}, new ∈ [h] → new = h := fun hm => List.mem_singleton.1 hm
  have htwo : ∀ {h h' : Held}, new ∈ [h, h'] → new = h ∨ new = h' := fun hm => by simpa using hm
  cases h with
  | makeEmpty kind h hk =>
    obtain rfl := hone hnew
    cases kind <;> simp only [Session.emptyOf, Option.some.injEq, reduceCtorEq] at hk <;>
      subst hk <;> simp [Held.pool?] at hid
  | makeLeaseStack id' hthere =>
    obtain rfl := hone hnew
    obtain rfl : id' = id := by simpa [Held.pool?] using hid
    exact Or.inl hthere
  | write h s content hs =>
    obtain rfl := hone hnew
    exact Or.inr ⟨new, by simp, hid⟩
  | leaseSlot id' s l hthere hl =>
    obtain rfl := hone hnew
    obtain ⟨-, rfl⟩ := Lease.ofSlot_ok hl
    obtain rfl : id' = id := by simpa [Held.pool?] using hid
    exact Or.inl hthere
  | leaseStack id' st l hthere hl =>
    obtain rfl := hone hnew
    obtain ⟨-, rfl⟩ := LeaseStack.ofStack_ok hl
    obtain rfl : id' = id := by simpa [Held.pool?] using hid
    exact Or.inl hthere
  | pushBare l s hl =>
    obtain rfl := hone hnew
    exact Or.inr ⟨.leaseStack l, by simp, hid⟩
  | pushLease l l' other hl =>
    obtain rfl := hone hnew
    rw [Held.pool?, LeaseStack.pushLease_pool] at hid
    exact Or.inr (LeaseStack.of_adopt_pool (.lease other) hl hid)
  | mergeStack l l' other hl =>
    obtain rfl := hone hnew
    exact Or.inr (LeaseStack.of_adopt_pool (.leaseStack other) hl hid)
  | insertLease cmp l l' other hl =>
    obtain rfl := hone hnew
    rw [Held.pool?, LeaseStack.insertLease_pool] at hid
    exact Or.inr (LeaseStack.of_adopt_pool (.lease other) hl hid)
  | popLease m' l l' one hp =>
    obtain ⟨s, -, hpool, rfl⟩ := LeaseStack.pop_eq hp
    refine Or.inr ⟨.leaseStack l, by simp, ?_⟩
    obtain rfl | rfl := htwo hnew
    · exact hpool.symm.trans hid
    · exact hid
  | splitLease m' l front rest count hs =>
    obtain ⟨-, hfront, hrest⟩ := LeaseStack.split_eq hs
    refine Or.inr ⟨.leaseStack l, by simp, ?_⟩
    obtain rfl | rfl := htwo hnew
    · exact hfront.symm.trans hid
    · exact hrest.symm.trans hid
  | detachSlot l l' s hd =>
    obtain ⟨rfl, -⟩ : { l with slot := none } = l' ∧ l.slot = some s := by
      simpa [Lease.detach] using hd
    refine Or.inr ⟨.lease l, by simp, ?_⟩
    obtain rfl | rfl := htwo hnew
    · exact hid
    · simp [Held.pool?] at hid
  | detachStack l =>
    refine Or.inr ⟨.leaseStack l, by simp, ?_⟩
    obtain rfl | rfl := htwo hnew
    · exact hid
    · simp [Held.pool?] at hid
  | _ =>
    -- The other moves leave nothing under a lease.
    simp only [List.mem_cons, List.not_mem_nil, or_false] at hnew
    rcases hnew with rfl | rfl <;> simp [Held.pool?] at hid

/-! ## Giving back -/

/-- The call gives a pool what is in the thing. -/
inductive Held.GivenBy : Held → Call → Prop where
  | slot (s : Slot) : GivenBy (.slot s) (.cleanOne s)
  | stack (st : Stack) : GivenBy (.stack st) (.cleanMany st)
  | lease (s : Slot) (pool : Option PoolId) : GivenBy (.lease ⟨some s, pool⟩) (.cleanOne s)
  | leaseStack (l : LeaseStack) : GivenBy (.leaseStack l) (.cleanMany l.stack)

theorem givenBy_of_returning {kind : HeldKind} {h : Held} {c : Call}
    (hc : Session.returning kind h = some (some c)) : h.GivenBy c := by
  cases kind <;> cases h <;> simp only [Session.returning, reduceCtorEq, Option.some.injEq] at hc
  case slot.slot s =>
    subst hc
    exact .slot s
  case stack.stack st =>
    subst hc
    exact .stack st
  case lease.lease l =>
    obtain ⟨_, pool⟩ := l
    obtain ⟨s, rfl, rfl⟩ := Option.map_eq_some_iff.1 hc
    exact .lease s pool
  case leaseStack.leaseStack l =>
    subst hc
    exact .leaseStack l

theorem givenBy_of_dropped {h : Held} {id : PoolId} {c : Call} (hd : h.dropped = .call id c) :
    h.GivenBy c ∧ h.isBare = false ∧ h.pool? = some id := by
  cases h with
  | slot s => simp [Held.dropped] at hd
  | stack st => simp [Held.dropped] at hd
  | lease l =>
    obtain ⟨slot, pool⟩ := l
    cases slot <;> cases pool <;> simp [Held.dropped, Lease.dropped] at hd
    obtain ⟨rfl, rfl⟩ := hd
    exact ⟨.lease _ _, rfl, rfl⟩
  | leaseStack l =>
    obtain ⟨stack, pool⟩ := l
    simp only [Held.dropped, LeaseStack.dropped] at hd
    cases hs : stack.isEmpty <;> cases pool <;> simp [hs] at hd
    obtain ⟨rfl, rfl⟩ := hd
    exact ⟨.leaseStack _, rfl, rfl⟩

theorem Held.of_dropped_violation {h : Held} {v : Violation} (hd : h.dropped = .violation v) :
    ∃ l, h = .leaseStack l ∧ l.pool = none ∧ l.stack.isEmpty = false := by
  cases h with
  | slot s => simp [dropped] at hd
  | stack st => simp [dropped] at hd
  | lease l =>
    obtain ⟨slot, pool⟩ := l
    cases slot <;> cases pool <;> simp [dropped, Lease.dropped] at hd
  | leaseStack l =>
    obtain ⟨st, pool⟩ := l
    cases he : st.isEmpty with
    | true => simp [dropped, LeaseStack.dropped, he] at hd
    | false =>
      cases pool with
      | none => exact ⟨_, rfl, rfl, he⟩
      | some id => simp [dropped, LeaseStack.dropped, he] at hd

theorem Held.GivenBy.pieces_eq {h : Held} {c : Call} (hg : h.GivenBy c) :
    c.pieces = h.pieces := by
  cases hg <;> rfl

theorem emptied_shifts (m : Memory ε) {h : Held} {c : Call} (hg : h.GivenBy c)
    (hb : h.isBare = false) : Shifts m m h.pieces (h.emptied.pieces ++ c.pieces) := by
  rw [hg.pieces_eq]
  cases hg with
  | slot s => simp [Held.isBare] at hb
  | stack st => simp [Held.isBare] at hb
  | lease s pool => exact Shifts.refl m _
  | leaseStack l => exact (Shifts.empty m).append_right [.chain l.stack]

theorem heldOf_ok {m : Memory ε} {id : PoolId} {leased : Bool} {slots : Grant} {h : Held}
    (hh : Session.heldOf m id leased slots = .ok h) :
    h.pieces = slots.pieces ∧ (h.isBare = false → h.pool? = some id) := by
  cases slots with
  | one s =>
    cases leased with
    | false =>
      obtain rfl : .slot s = h := by simpa [Session.heldOf] using hh
      exact ⟨rfl, by simp [Held.isBare]⟩
    | true =>
      simp only [Session.heldOf, if_true] at hh
      cases hl : Lease.ofSlot m id s with
      | error v => simp [hl, Except.map] at hh
      | ok l =>
        obtain rfl : .lease l = h := by simpa [hl, Except.map] using hh
        obtain ⟨-, rfl⟩ := Lease.ofSlot_ok hl
        exact ⟨rfl, fun _ => rfl⟩
  | many st =>
    cases leased with
    | false =>
      obtain rfl : .stack st = h := by simpa [Session.heldOf] using hh
      exact ⟨rfl, by simp [Held.isBare]⟩
    | true =>
      simp only [Session.heldOf, if_true] at hh
      cases hl : LeaseStack.ofStack m id st with
      | error v => simp [hl, Except.map] at hh
      | ok l =>
        obtain rfl : .leaseStack l = h := by simpa [hl, Except.map] using hh
        obtain ⟨-, rfl⟩ := LeaseStack.ofStack_ok hl
        exact ⟨rfl, fun _ => rfl⟩

theorem emptied_pool? (h : Held) : h.emptied.pool? = h.pool? := by
  cases h <;> rfl

end SlotPool
