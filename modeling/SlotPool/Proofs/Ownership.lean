import SlotPool.Proofs.Tended

/-!
# Every slot has one owner

Slots are forfeited only where several pools share a memory, by a client that gives a slot to a pool
that did not provide it. With one pool no call ever breaks a rule, so that every slot is free, or
held by one client, or in the reach of one call, or was leaked by a client.
-/

namespace SlotPool

open Memory

variable {ε : Type}

/-! ## Calls that break a rule -/

theorem LeaseStack.checkAll_congr {m m' : Memory ε} (h : ∀ s, m'.owner? s = m.owner? s)
    (id : PoolId) (l : List Slot) : checkAll m' id l = checkAll m id l := by
  induction l with
  | nil => rfl
  | cons s l ih => rw [checkAll, checkAll, ih, checkOwner, checkOwner, h s]

namespace Call

/-- The call has broken the rule, or will when it checks the slots that it was given. -/
def Objects (m : Memory ε) (id : PoolId) (v : Violation) : Call → Prop
  | cleanOne s => checkOwner m id s = .error v
  | cleanMany st => LeaseStack.checkAll m id (st.slots m) = .error v
  | finished o => o = .broken v
  | _ => False

theorem Continues.not_objects {g : Growth} {c : Call} (h : Continues g c) (m : Memory ε)
    (id : PoolId) (v : Violation) : ¬ c.Objects m id v := by
  cases h with
  | afterGrowth fault hf hb =>
    unfold Call.afterGrowth
    split <;> exact fun hv => hv
  | _ => exact fun hv => hv

theorem checkAll_of_cleanAll {id : PoolId} {pristine : ε} {v : Violation} {m : Memory ε}
    {l : List Slot} (h : (cleanAll id pristine m l).2 = some v) :
    LeaseStack.checkAll m id l = .error v := by
  induction l generalizing m with
  | nil => simp [cleanAll] at h
  | cons s l ih =>
    have hfill : ∀ t, (m.fill s pristine).owner? t = m.owner? t := fun t => by
      rw [owner?, owner?, cell?, cell?, cells_fill]
    rw [LeaseStack.checkAll, checkOwner]
    unfold cleanAll at h
    cases ho : m.owner? s with
    | none =>
      simp only [ho] at h ⊢
      exact ih h
    | some owner =>
      simp only [ho] at h ⊢
      split at h
      · rename_i he
        rw [if_pos he, ← LeaseStack.checkAll_congr hfill]
        exact ih h
      · rename_i hne
        rw [if_neg hne]
        exact congrArg Except.error (Option.some.inj h)

theorem AfterCleaning.objects {found : Option Violation} {next c' : Call} {m : Memory ε}
    {id : PoolId} {v : Violation} (h : AfterCleaning found next c')
    (hnext : ¬ next.Objects m id v) (hv : c'.Objects m id v) : found = some v := by
  cases found with
  | none =>
    obtain rfl : c' = next := h
    exact absurd hv hnext
  | some w =>
    obtain rfl : c' = finished (.broken w) := h
    obtain rfl : w = v := by simpa [Objects] using hv
    rfl

theorem step_objects {id : PoolId} {granted : Bool} {m m' : Memory ε} {p p' : Pool ε}
    {c c' : Call} {e : Option Event} {frame : List Piece} {v : Violation}
    (hp : Partition m ((.chain p.free :: c.pieces) ++ frame)) (hc : c.outcome? = none)
    (h : c.step id granted m p = (m', p', e, c')) (hv : c'.Objects m' id v) :
    c.Objects m id v := by
  obtain rfl : (c.step id granted m p).2.2.2 = c' := by rw [h]
  cases c with
  | popOne =>
    simp only [step] at hv
    split at hv <;> exact hv
  | claimGrowth =>
    simp only [step] at hv
    split at hv
    · exact hv
    · exact absurd hv ((continues_startGrowth _ _ _).not_objects m' id v)
  | popMany count =>
    by_cases hcount : count ≤ p.free.length
    · obtain ⟨_, _, _, hs⟩ := Shifts.split_ok hp p.free (by simp) count
      simp only [step, hcount, hs, if_true] at hv
      exact hv
    · obtain ⟨-, -, blocks, -, hnext⟩ := popMany_short hcount h
      exact absurd hv (hnext.not_objects m' id v)
  | carve count deficit taken fresh =>
    obtain ⟨_, _, _, hs⟩ := Shifts.split_ok hp fresh (by simp [pieces]) deficit
    simp only [step, hs] at hv
    split at hv <;> exact hv
  | cleanOne s =>
    obtain ⟨-, -, hc'⟩ := cleanOne_step h
    have hcheck := checkAll_of_cleanAll (hc'.objects (by simp [Objects]) hv)
    rw [LeaseStack.checkAll] at hcheck
    rw [Objects]
    cases hs : checkOwner m id s with
    | error w => simpa [hs, bind, Except.bind] using hcheck
    | ok u => simp [hs, bind, Except.bind, LeaseStack.checkAll] at hcheck
  | cleanMany st =>
    obtain ⟨-, hst⟩ := cleanMany_step h
    split at hst
    · simp [hst.2, Objects] at hv
    · exact checkAll_of_cleanAll (hst.2.objects (by simp [Objects]) hv)
  | unclaim fault => cases fault <;> simp [step, Objects] at hv
  | observe left seen => cases left <;> simp [step, Objects] at hv
  | reserve g => exact absurd hv ((continues_afterReservation _ _ _).not_objects m' id v)
  | build g => exact absurd hv ((continues_nextBlock _).not_objects m' id v)
  | noteGrowth g fault allocated =>
    simp only [step, Call.afterGrowth] at hv
    split at hv <;> exact hv
  | finished o => simp [outcome?] at hc
  | _ => simp [step, Objects] at hv

theorem not_objects_of_owned {id : PoolId} {m : Memory ε} {c : Call} (hc : c.outcome? = none)
    (howned : ∀ s ∈ c.slots m, m.owner? s = some id) (v : Violation) : ¬ c.Objects m id v := by
  cases c with
  | cleanOne s =>
    have ho : m.owner? s = some id := howned s (by simp [slots, pieces])
    simp [Objects, checkOwner, ho]
  | cleanMany st =>
    have ho : ∀ s ∈ st.slots m, m.owner? s = some id := by simpa [slots, pieces] using howned
    have hcheck := (LeaseStack.checkAll_ok fun s hs => lt_size_of_owner? (ho s hs)).2 ho
    simp [Objects, hcheck]
  | finished o => simp [outcome?] at hc
  | _ => exact fun hv => hv

end Call

/-! ## Leases that are given back -/

theorem Held.dropped_of_mem {m : Memory ε} {h : Held} {id : PoolId} {s : Slot}
    (hb : h.isBare = false) (hp : h.pool? = some id) (hs : s ∈ h.slots m) :
    ∃ c, h.dropped = .call id c := by
  cases h with
  | slot t => simp [isBare] at hb
  | stack st => simp [isBare] at hb
  | lease l =>
    obtain ⟨slot, pool⟩ := l
    obtain rfl : pool = some id := hp
    cases slot with
    | none => simp [slots, pieces] at hs
    | some t => exact ⟨_, rfl⟩
  | leaseStack l =>
    obtain ⟨st, pool⟩ := l
    obtain rfl : pool = some id := hp
    have hst : st.isEmpty = false := by
      cases hhead : st.head with
      | none => simp [slots, pieces, Stack.slots, hhead, chain_none] at hs
      | some first => simp [Stack.isEmpty, hhead]
    exact ⟨.cleanMany st, by simp [dropped, LeaseStack.dropped, hst]⟩

theorem heldOf_isOk {m : Memory ε} {id : PoolId} {slots : Grant}
    (h : ∀ s ∈ slotsOf m slots.pieces, m.owner? s = some id) (leased : Bool) :
    ∃ held, Session.heldOf m id leased slots = .ok held := by
  cases slots with
  | one s =>
    have ho : m.owner? s = some id := h s (by simp [Grant.pieces])
    have hcheck := (checkOwner_ok (lt_size_of_owner? ho)).2 ho
    cases leased with
    | false => exact ⟨.slot s, rfl⟩
    | true => exact ⟨.lease ⟨some s, some id⟩, by simp [Session.heldOf, Lease.ofSlot, hcheck]; rfl⟩
  | many st =>
    have ho : ∀ s ∈ st.slots m, m.owner? s = some id := fun s hs => h s (by simpa [Grant.pieces])
    have hcheck := (LeaseStack.checkAll_ok fun s hs => lt_size_of_owner? (ho s hs)).2 ho
    cases leased with
    | false => exact ⟨.stack st, rfl⟩
    | true =>
      exact ⟨.leaseStack ⟨st, some id⟩, by simp [Session.heldOf, LeaseStack.ofStack, hcheck]; rfl⟩

/-! ## With one pool -/

theorem Arena.owner_of_one {a : Arena ε} {id : PoolId} {p : Pool ε} (ht : a.Tended)
    (hone : a.pools.size ≤ 1) (hp : a.pool? id = some p) {s : Slot}
    (hs : s.index < a.memory.size) : a.memory.owner? s = some id := by
  obtain ⟨cell, hcell⟩ := exists_cell? hs
  obtain ⟨q, hq, -⟩ := ht.sized s cell hcell
  have hid : id.index < a.pools.size := (Array.getElem?_eq_some_iff.1 hp).1
  have howner : cell.owner.index < a.pools.size := (Array.getElem?_eq_some_iff.1 hq).1
  have he : cell.owner = id := PoolId.eq_of_index (by omega)
  rw [owner?, hcell, Option.map_some, he]

theorem Client.step_pools_size {a a' : Arena ε} {k k' : Client} {new : Losses} (hk : k.Known a)
    (h : Step a k a' k' new) : a'.pools.size = a.pools.size := by
  cases h with
  | run a' held id granted c c' hc hr =>
    obtain ⟨p, hp⟩ := hk.call id c rfl
    obtain ⟨p', e, -, hpools⟩ := Arena.step_eq hp hr
    rw [hpools, Array.size_setIfInBounds]
  | _ => rfl

theorem Client.slots_of_expired {a : Arena ε} {k : Client} {h : Held} {frame : List Piece}
    (hpart : Partition a.memory ((a.free ++ k.pieces) ++ frame)) (hkt : k.Tended a)
    (hh : h ∈ k.held) (hb : h.isBare = false) (hd : ∀ id c, h.dropped ≠ .call id c) :
    h.slots a.memory = [] := by
  apply List.eq_nil_iff_forall_not_mem.2
  intro s hs
  have hsub : h.pieces ⊆ (a.free ++ k.pieces) ++ frame := fun piece hpiece => by
    simp only [pieces, List.mem_append, List.mem_flatMap]
    exact Or.inl (Or.inr (Or.inl ⟨h, hh, hpiece⟩))
  obtain ⟨owner, howner⟩ := owner?_ne_none (hpart.lt_size s (mem_slotsOf_of_subset hsub hs))
  have hpool := hkt.held h hh hb s hs
  obtain ⟨c, hc⟩ := Held.dropped_of_mem hb (hpool.symm.trans howner) hs
  exact hd owner c hc

theorem Client.step_forfeits {a a' : Arena ε} {k k' : Client} {new : Losses} {frame : List Piece}
    (hone : a.pools.size ≤ 1) (ht : a.Tended) (hkt : k.Tended a) (hk : k.Known a)
    (hpart : Partition a.memory ((a.free ++ k.pieces) ++ frame)) (h : Step a k a' k' new) :
    new.forfeited = [] := by
  cases h with
  | expire held rest h hh hb hd =>
    exact slots_of_expired hpart hkt (hh.mem_iff.2 List.mem_cons_self) hb hd
  | run a' held id granted c c' hc hr =>
    obtain ⟨p, hp⟩ := hk.call id c rfl
    obtain ⟨p', e, hstep, -⟩ := Arena.step_eq hp hr
    obtain ⟨others, hfree, -⟩ := Arena.free_perm hp
    have hlocal := Arena.local_partition hfree (call_partition hpart)
    have howned : ∀ s ∈ c.slots a.memory, a.memory.owner? s = some id := fun s hs =>
      Arena.owner_of_one ht hone hp (hlocal.lt_size s (mem_slotsOf_of_subset (by simp) hs))
    refine Call.forfeited_of_unbroken _ c c' fun v hv => ?_
    have hobjects := Call.step_objects hlocal hc hstep (by rw [hv]; rfl)
    exact Call.not_objects_of_owned hc howned v hobjects
  | reject held id slots leased v hh =>
    obtain ⟨p, hp⟩ := hk.call id _ rfl
    obtain ⟨got, hgot⟩ := heldOf_isOk (fun s hs => (hkt.call id _ p rfl hp s hs).owner) leased
    simp [hgot] at hh
  | _ => rfl

/-! ## Worlds -/

namespace World

theorem step_pools_size {w w' : World ε} (hw : w.Whole) (hs : w.Step w') :
    w.arena.pools.size ≤ w'.arena.pools.size := by
  cases hs with
  | client a a' clients rest k k' losses new hc hk =>
    have hknown : k.Known a := hw.known k (hc.mem_iff.2 (by simp))
    exact Nat.le_of_eq (Client.step_pools_size hknown hk).symm
  | addPool a clients losses strategy policy backoffMicros => simp [Arena.addPool]
  | join a clients losses => exact Nat.le_refl _
  | handOver a clients rest giver taker kept h losses hc hh => exact Nat.le_refl _

theorem forfeited_of_reachable {w : World ε} (h : w.Reachable) (hone : w.arena.pools.size ≤ 1) :
    w.losses.forfeited = [] := by
  induction h with
  | start => rfl
  | step hr hs ih =>
    have hw := whole_of_reachable hr
    have ht := tended_of_reachable hr
    have hnone := ih (Nat.le_trans (step_pools_size hw hs) hone)
    cases hs with
    | client a a' clients rest k k' losses new hc hk =>
      have hmem : k ∈ clients := hc.mem_iff.2 (by simp)
      have hpart : Partition a.memory _ := hw.partition.of_perm (pieces_perm hc)
      have hsize : a.pools.size ≤ 1 := by
        rw [← Client.step_pools_size (hw.known k hmem) hk]
        exact hone
      have hnew := Client.step_forfeits hsize ht.arena (ht.clients k hmem) (hw.known k hmem)
        hpart hk
      have hlosses : losses.forfeited = [] := hnone
      simp [hnew, hlosses]
    | addPool a clients losses strategy policy backoffMicros => exact hnone
    | join a clients losses => exact hnone
    | handOver a clients rest giver taker kept h losses hc hh => exact hnone

/-- The places where slots are: free, held, in the reach of a call, and lost. -/
def places (w : World ε) : List Slot :=
  w.freeSlots ++ w.heldSlots ++ w.runningSlots ++ w.losses.leaked ++ w.losses.forfeited

theorem freeSlots_eq (w : World ε) : slotsOf w.memory w.arena.free = w.freeSlots := by
  simp [slotsOf, Arena.free, freeSlots, List.flatMap_map]

theorem places_perm (w : World ε) : w.places.Perm (slotsOf w.memory w.pieces) := by
  have hclients : slotsOf w.memory (w.clients.flatMap Client.pieces) =
      w.clients.flatMap fun k => (k.held.flatMap fun h => h.slots w.memory) ++
        slotsOf w.memory k.running := by
    rw [slotsOf, List.flatMap_assoc]
    congr
    funext k
    rw [← slotsOf_held, ← slotsOf_append, slotsOf, Client.pieces]
  have happend := List.flatMap_append_perm w.clients
    (fun k => k.held.flatMap fun h => h.slots w.memory) fun k => slotsOf w.memory k.running
  rw [pieces, slotsOf_append, slotsOf_append, freeSlots_eq, hclients, Losses.pieces,
    slotsOf_singles]
  simp only [places, heldSlots, runningSlots, List.append_assoc]
  rw [← List.append_assoc (w.clients.flatMap _)]
  exact (happend.append_right _).append_left _

theorem places_perm_slots {w : World ε} (h : w.Reachable) : w.places.Perm w.memory.slots :=
  (places_perm w).trans (whole_of_reachable h).partition.perm

theorem places_nodup {w : World ε} (h : w.Reachable) : w.places.Nodup :=
  (places_perm_slots h).nodup_iff.2 w.memory.slots_nodup

theorem step_slots {w w' : World ε} (ht : w.Tended) (hw : w.Whole) (hs : w.Step w') :
    w.memory.slots ⊆ w'.memory.slots := by
  cases hs with
  | client a a' clients rest k k' losses new hc hk =>
    have hknown : k.Known a := hw.known k (hc.mem_iff.2 (by simp))
    intro s hs
    rw [mem_slots] at hs ⊢
    exact (Client.step_keeps ht.arena hknown hk).size_le s hs
  | _ => exact List.Subset.refl _

/-- Every slot that was ever provided is in one place, and there once, and no step takes it away.
With one pool that place is never among the slots that a broken rule takes away. -/
theorem slots_conserved {w : World ε} (h : w.Reachable) :
    w.places.Perm w.memory.slots ∧ w.places.Nodup ∧
      (w.arena.pools.size ≤ 1 → w.losses.forfeited = []) ∧
      ∀ w', w.Step w' → w.memory.slots ⊆ w'.memory.slots := by
  have hw := whole_of_reachable h
  refine ⟨places_perm_slots h, places_nodup h, forfeited_of_reachable h, ?_⟩
  exact fun w' hs => step_slots (tended_of_reachable h) hw hs

theorem slots_conserved_growing :
    growing.Reachable ∧ growing.places = [⟨1⟩, ⟨5⟩, ⟨4⟩, ⟨3⟩, ⟨2⟩, ⟨0⟩] ∧
      growing.places.Perm growing.memory.slots ∧ growing.losses.forfeited = [] := by
  obtain ⟨hperm, -, hforfeited, -⟩ := slots_conserved growing_reachable
  exact ⟨growing_reachable, by decide +kernel, hperm, hforfeited (by decide +kernel)⟩

end World

end SlotPool
