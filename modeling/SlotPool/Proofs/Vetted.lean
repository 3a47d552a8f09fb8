import SlotPool.Proofs.Clean

/-!
# Leases hold slots of their pool

A lease with slots has a pool, and the pool provided them all. What clients do with leases keeps it
so, whatever slots they hold without a lease.
-/

namespace SlotPool

open Memory

variable {ε : Type} {there : PoolId → Prop}

namespace Held

/-- The slots under a lease are from its pool. -/
def Vetted (m : Memory ε) (h : Held) : Prop :=
  h.isBare = false → ∀ s ∈ h.slots m, m.owner? s = h.pool?

end Held

theorem Memory.owner?_ne_none {m : Memory ε} {s : Slot} (hs : s.index < m.size) :
    ∃ id, m.owner? s = some id := by
  obtain ⟨c, hc⟩ := exists_cell? hs
  exact ⟨c.owner, by rw [owner?, hc, Option.map_some]⟩

theorem Memory.lt_size_of_owner? {m : Memory ε} {s : Slot} {id : PoolId}
    (h : m.owner? s = some id) : s.index < m.size := by
  obtain ⟨c, hc, -⟩ := Option.map_eq_some_iff.1 h
  exact lt_size_of_cell? hc

/-! ## Checking owners -/

theorem checkOwner_ok {m : Memory ε} {id : PoolId} {s : Slot} (hs : s.index < m.size) :
    checkOwner m id s = .ok () ↔ m.owner? s = some id := by
  obtain ⟨owner, ho⟩ := owner?_ne_none hs
  simp only [checkOwner, ho]
  split <;> simp_all

theorem LeaseStack.checkAll_ok {m : Memory ε} {id : PoolId} {l : List Slot}
    (hl : ∀ s ∈ l, s.index < m.size) :
    checkAll m id l = .ok () ↔ ∀ s ∈ l, m.owner? s = some id := by
  induction l with
  | nil => simp [checkAll]
  | cons s l ih =>
    have hs : checkOwner m id s = .ok () ↔ _ := checkOwner_ok (hl s (by simp))
    have ih := ih fun t ht => hl t (by simp [ht])
    rw [List.forall_mem_cons, ← hs, ← ih]
    rw [checkAll]
    cases checkOwner m id s with
    | error v => simp [bind, Except.bind]
    | ok u => simp [bind, Except.bind]

/-! ## What clients do with leases -/

theorem merged_owned {m : Memory ε} {l l' : LeaseStack} {other old : Held}
    (h : l.adopt other.pool? = .ok l') (hother : other.isBare = false) (hv : old.Vetted m)
    (hold : old ∈ [.leaseStack l, other]) {s : Slot} (hs : s ∈ old.slots m)
    (hlt : s.index < m.size) : m.owner? s = l'.pool := by
  obtain ⟨hsource, htarget⟩ := LeaseStack.adopt_pool h
  obtain ⟨owner, howner⟩ := owner?_ne_none hlt
  simp only [List.mem_cons, List.not_mem_nil, or_false] at hold
  rcases hold with rfl | rfl
  · have hpool := howner.symm.trans (hv rfl s hs)
    exact howner.trans (htarget owner hpool.symm).symm
  · have hpool := howner.symm.trans (hv hother s hs)
    exact howner.trans (hsource owner hpool.symm).symm

theorem moves_owned {m m' : Memory ε} {before after : List Held} (h : Moves there m before m' after)
    (hsize : ∀ h ∈ before, ∀ s ∈ h.slots m, s.index < m.size)
    (hv : ∀ h ∈ before, h.Vetted m) {new : Held} (hnew : new ∈ after) (hb : new.isBare = false) :
    ∀ h ∈ before, ∀ s ∈ h.slots m, m.owner? s = new.pool? := by
  intro old hold s hs
  have hlt := hsize old hold s hs
  have hvet := hv old hold
  cases h with
  | makeEmpty kind h hk => simp at hold
  | makeLeaseStack id hid => simp at hold
  | write h t content ht =>
    obtain rfl := List.mem_singleton.1 hold
    obtain rfl := List.mem_singleton.1 hnew
    exact hvet hb s hs
  | leaseSlot id t l hid hl =>
    obtain rfl := List.mem_singleton.1 hold
    obtain rfl := List.mem_singleton.1 hnew
    obtain ⟨hcheck, rfl⟩ := Lease.ofSlot_ok hl
    obtain rfl : s = t := by simpa [Held.slots, Held.pieces] using hs
    exact (checkOwner_ok hlt).1 hcheck
  | leaseStack id st l hid hl =>
    obtain rfl := List.mem_singleton.1 hold
    obtain rfl := List.mem_singleton.1 hnew
    obtain ⟨hcheck, rfl⟩ := LeaseStack.ofStack_ok hl
    have hst : (Held.stack st).slots m = st.slots m := by simp [Held.slots, Held.pieces]
    have hsize := hsize (.stack st) (by simp)
    rw [hst] at hsize hs
    exact (LeaseStack.checkAll_ok hsize).1 hcheck s hs
  | pushBare l t hl =>
    obtain rfl := List.mem_singleton.1 hnew
    simp only [List.mem_cons, List.not_mem_nil, or_false] at hold
    rcases hold with rfl | rfl
    · exact hvet rfl s hs
    · obtain rfl : s = t := by simpa [Held.slots, Held.pieces] using hs
      unfold LeaseStack.checkPush at hl
      cases hp : l.pool with
      | none => simp [hp] at hl
      | some pool =>
        rw [hp] at hl
        exact ((checkOwner_ok hlt).1 hl).trans hp.symm
  | pushLease l l' other hl =>
    obtain rfl := List.mem_singleton.1 hnew
    exact (merged_owned hl rfl hvet hold hs hlt).trans (LeaseStack.pushLease_pool m l' other).symm
  | mergeStack l l' other hl =>
    obtain rfl := List.mem_singleton.1 hnew
    have howned : m.owner? s = l'.pool := merged_owned hl rfl hvet hold hs hlt
    exact howned
  | insertLease cmp l l' other hl =>
    obtain rfl := List.mem_singleton.1 hnew
    have hpool := LeaseStack.insertLease_pool cmp m l' other
    exact (merged_owned hl rfl hvet hold hs hlt).trans hpool.symm
  | popLease m' l l' one hp =>
    obtain ⟨_, _, hpool, rfl⟩ := LeaseStack.pop_eq hp
    obtain rfl := List.mem_singleton.1 hold
    have howned : m.owner? s = l.pool := hvet rfl s hs
    simp only [List.mem_cons, List.not_mem_nil, or_false] at hnew
    rcases hnew with rfl | rfl
    · exact howned.trans hpool.symm
    · exact howned
  | splitLease m' l front rest count hs' =>
    obtain ⟨_, hfront, hrest⟩ := LeaseStack.split_eq hs'
    obtain rfl := List.mem_singleton.1 hold
    have howned : m.owner? s = l.pool := hvet rfl s hs
    simp only [List.mem_cons, List.not_mem_nil, or_false] at hnew
    rcases hnew with rfl | rfl
    · exact howned.trans hfront.symm
    · exact howned.trans hrest.symm
  | detachSlot l l' t hd =>
    obtain rfl := List.mem_singleton.1 hold
    have howned : m.owner? s = l.pool := hvet rfl s hs
    obtain ⟨rfl, -⟩ : { l with slot := none } = l' ∧ l.slot = some t := by
      simpa [Lease.detach] using hd
    simp only [List.mem_cons, List.not_mem_nil, or_false] at hnew
    rcases hnew with rfl | rfl
    · exact howned
    · simp [Held.isBare] at hb
  | detachStack l =>
    obtain rfl := List.mem_singleton.1 hold
    have howned : m.owner? s = l.pool := hvet rfl s hs
    simp only [List.mem_cons, List.not_mem_nil, or_false] at hnew
    rcases hnew with rfl | rfl
    · exact howned
    · simp [Held.isBare] at hb
  | _ =>
    -- The other moves leave slots without a lease.
    simp only [List.mem_cons, List.not_mem_nil, or_false] at hnew
    rcases hnew with rfl | rfl <;> simp [Held.isBare] at hb

theorem moves_memory {m m' : Memory ε} {before after : List Held}
    (h : Moves there m before m' after) :
    m'.unlinked = m.unlinked ∨
      ∃ x s content, before = [x] ∧ after = [x] ∧ s ∈ x.slots m ∧
        m' = Content.write m s content := by
  cases h with
  | write h s content hs => exact Or.inr ⟨h, s, content, rfl, rfl, hs, rfl⟩
  | push st s => exact Or.inl (Stack.unlinked_push m st s)
  | append st other => exact Or.inl (Stack.unlinked_append m st other)
  | insert cmp st s => exact Or.inl (Stack.unlinked_insert cmp m st s)
  | pop m' st st' s hp =>
    have hu := Stack.unlinked_pop m st
    rw [hp] at hu
    exact Or.inl hu
  | split m' st front rest count hs =>
    have hu := Stack.unlinked_split m st count
    rw [hs] at hu
    exact Or.inl hu
  | pushBare l s hl' => exact Or.inl (Stack.unlinked_push m l.stack s)
  | pushLease l l' other hl' =>
    unfold LeaseStack.pushLease
    cases other.slot with
    | none => exact Or.inl rfl
    | some s => exact Or.inl (Stack.unlinked_push m l'.stack s)
  | mergeStack l l' other hl' =>
    exact Or.inl (Stack.unlinked_append m l'.stack other.stack)
  | insertLease cmp l l' other hl' =>
    unfold LeaseStack.insertLease
    cases other.slot with
    | none => exact Or.inl rfl
    | some s => exact Or.inl (Stack.unlinked_insert cmp m l'.stack s)
  | popLease m' l l' one hp =>
    obtain ⟨s, hs, -⟩ := LeaseStack.pop_eq hp
    have hu := Stack.unlinked_pop m l.stack
    rw [hs] at hu
    exact Or.inl hu
  | splitLease m' l front rest count hs =>
    have hu := Stack.unlinked_split m l.stack count
    rw [(LeaseStack.split_eq hs).1] at hu
    exact Or.inl hu
  | _ => exact Or.inl rfl

theorem moves_keeps {m m' : Memory ε} {before after : List Held} (h : Moves there m before m' after)
    (hl : m.Laid) : Keeps m m' (slotsOf m (before.flatMap Held.pieces)) := by
  rcases moves_memory h with hu | ⟨x, s, content, rfl, -, hs, rfl⟩
  · exact Keeps.of_unlinked hl hu _
  · exact (Keeps.write hl s content).mono (by simpa [Held.slots] using hs)

theorem moves_size {m m' : Memory ε} {before after : List Held}
    (h : Moves there m before m' after) : m'.size = m.size := by
  rcases moves_memory h with hu | ⟨x, s, content, -, -, -, rfl⟩
  · exact size_of_unlinked hu
  · rw [size, cells_write, size]

@[simp]
theorem slotsOf_held (m : Memory ε) (held : List Held) :
    slotsOf m (held.flatMap Held.pieces) = held.flatMap fun h => h.slots m := by
  simp [slotsOf, Held.slots, List.flatMap_assoc]

theorem moves_vetted {m m' : Memory ε} {before after : List Held} {frame : List Piece}
    (h : Moves there m before m' after) (hp : Partition m (before.flatMap Held.pieces ++ frame))
    (hl : m.Laid) (hv : ∀ h ∈ before, h.Vetted m) : ∀ h ∈ after, h.Vetted m' := by
  have hsize : ∀ s ∈ slotsOf m (before.flatMap Held.pieces), s.index < m.size :=
    fun s hs => hp.lt_size s (by rw [slotsOf_append]; exact List.mem_append_left _ hs)
  have hperm := (moves_shifts h).slots_perm hp (moves_size h)
  intro new hnew hb s hs
  have hmem : s ∈ slotsOf m (before.flatMap Held.pieces) := by
    apply hperm.subset
    rw [slotsOf_held]
    exact List.mem_flatMap.2 ⟨new, hnew, hs⟩
  rw [(moves_keeps h hl).owner? s (hsize s hmem)]
  rw [slotsOf_held] at hmem hsize
  obtain ⟨old, hold, hs⟩ := List.mem_flatMap.1 hmem
  exact moves_owned h (fun h hh s hs => hsize s (List.mem_flatMap.2 ⟨h, hh, hs⟩)) hv hnew hb
    old hold s hs

end SlotPool
