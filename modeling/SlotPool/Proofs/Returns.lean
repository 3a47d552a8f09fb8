import SlotPool.Proofs.Contracts
import SlotPool.Proofs.Custody

/-!
# Leases give each slot back once

A slot that came under a lease is still under one, or a client has taken it out, or it was given
back, and none of these twice. What was given back is on a free stack, or in a call that is to put
it there. So when nobody has a slot any more, all that a pool ever provided is free.

A session can always give back what a lease has, and that puts each of its slots on a free stack.
-/

namespace SlotPool

open Memory

variable {ε : Type}

/-! ## Detaching -/

/-- Slots are taken out of the lease `h`, which becomes `h'`, and `bare` has them. -/
inductive Held.Detaches : Held → Held → Held → Prop where
  | slot (l l' : Lease) (s : Slot) (hd : l.detach = (l', some s)) :
      Detaches (.lease l) (.lease l') (.slot s)
  | stack (l : LeaseStack) :
      Detaches (.leaseStack l) (.leaseStack l.detach.1) (.stack l.detach.2)

theorem Held.Detaches.dropped_eq {h h' bare : Held} (hd : h.Detaches h' bare) :
    h'.dropped = .nothing := by
  cases hd with
  | slot l l' s hd =>
    obtain ⟨rfl, -⟩ := Prod.mk.inj hd
    rfl
  | stack l => rfl

theorem detaches_of_moves {there : PoolId → Prop} {m m' : Memory ε} {before after : List Held}
    {x y : Held} (h : Moves there m before m' after) (hx : x ∈ before) (hb : x.isBare = false)
    (hy : y ∈ after) (hb' : y.isBare = true) : ∃ x' ∈ after, x.Detaches x' y := by
  cases h with
  | detachSlot l l' s hd =>
    obtain rfl : x = .lease l := by simpa using hx
    obtain rfl | rfl : y = .lease l' ∨ y = .slot s := by simpa using hy
    · simp [Held.isBare] at hb'
    · exact ⟨.lease l', by simp, .slot l l' s hd⟩
  | detachStack l =>
    obtain rfl : x = .leaseStack l := by simpa using hx
    obtain rfl | rfl : y = .leaseStack l.detach.1 ∨ y = .stack l.detach.2 := by simpa using hy
    · simp [Held.isBare] at hb'
    · exact ⟨.leaseStack l.detach.1, by simp, .stack l⟩
  | write h s content hs =>
    obtain rfl : x = h := by simpa using hx
    obtain rfl : y = x := by simpa using hy
    simp [hb] at hb'
  | _ =>
    -- There was no lease, or there are only leases.
    grind [Held.isBare]

theorem Client.detaches_of_step {a a' : Arena ε} {k k' : Client} {new : Losses}
    {frame : List Piece} (hk : k.Known a)
    (hpart : Partition a.memory ((a.free ++ k.pieces) ++ frame)) (h : Step a k a' k' new)
    {s : Slot} {x y : Held} (hx : x ∈ k.held) (hb : x.isBare = false) (hs : s ∈ x.slots a.memory)
    (hy : y ∈ k'.held) (hb' : y.isBare = true) (hs' : s ∈ y.slots a'.memory)
    (hleased : s ∉ k'.leased a'.memory) (hbare : s ∉ k.bare a.memory) :
    ∃ x' ∈ k'.held, x.Detaches x' y := by
  have hgone : x.slots a'.memory = x.slots a.memory → x ∉ k'.held := fun he hx' =>
    hleased (mem_leased.2 ⟨x, hx', hb, he ▸ hs⟩)
  have hnew : y.slots a'.memory = y.slots a.memory → y ∉ k.held := fun he hy' =>
    hbare (mem_bare.2 ⟨y, hy', hb', he ▸ hs'⟩)
  cases h with
  | run a' held id granted c c' hc hr =>
    obtain ⟨p, hp⟩ := hk.call id c rfl
    exact absurd hx (hgone (run_slots hp hpart hr x hx))
  | move held before after rest m hh hm =>
    have hrest := move_slots hpart hh hm
    have hx' : x ∈ before := (List.mem_append.1 (hh.mem_iff.1 hx)).resolve_right fun hx =>
      hgone (hrest x hx) (List.mem_append_right _ hx)
    have hy' : y ∈ after := (List.mem_append.1 hy).resolve_right fun hy =>
      hnew (hrest y hy) (hh.mem_iff.2 (List.mem_append_right _ hy))
    obtain ⟨x', hx', hd⟩ := detaches_of_moves hm hx' hb hy' hb'
    exact ⟨x', List.mem_append_left _ hx', hd⟩
  | ask held id p c hp hc => exact absurd hx (hgone rfl)
  | give held rest h kind id p c hh hp hc =>
    exact absurd (hh.mem_iff.2 (List.mem_cons_of_mem _ hy)) (hnew rfl)
  | drop held rest h id p c hh hp hd =>
    exact absurd (hh.mem_iff.2 (List.mem_cons_of_mem _ hy)) (hnew rfl)
  | reset held rest h id p c hh hp hd =>
    rcases List.mem_cons.1 hy with rfl | hy
    · have hb := (givenBy_of_dropped hd).2.1
      cases h <;> simp [Held.emptied, Held.isBare] at hb hb'
    · exact absurd (hh.mem_iff.2 (List.mem_cons_of_mem _ hy)) (hnew rfl)
  | leak held rest h hh hb =>
    exact absurd (hh.mem_iff.2 (List.mem_cons_of_mem _ hy)) (hnew rfl)
  | expire held rest h hh hb hd =>
    exact absurd (hh.mem_iff.2 (List.mem_cons_of_mem _ hy)) (hnew rfl)
  | receive held id slots leased h hh => exact absurd (List.mem_cons_of_mem _ hx) (hgone rfl)
  | reject held id slots leased v hh => exact absurd hx (hgone rfl)
  | finish held id o ho => exact absurd hx (hgone rfl)

/-! ## What happened to slots -/

/-- Slots as they went from place to place, each as often as it did. -/
structure Transfers where
  /-- They came under leases. -/
  entered : List Slot := []
  /-- Clients took them out of their leases. -/
  detached : List Slot := []
  /-- Leases gave them back. -/
  surrendered : List Slot := []
  /-- Clients that had them without a lease gave them back. -/
  given : List Slot := []
  /-- Calls put them on free stacks. -/
  returned : List Slot := []

theorem count_filter {α : Type} [DecidableEq α] (P : α → Prop) [DecidablePred P] (l : List α)
    (x : α) : (l.filter (P ·)).count x = if P x then l.count x else 0 := by
  split
  · rename_i h
    exact List.count_filter (by simpa using h)
  · rename_i h
    exact List.count_eq_zero.2 (by simp [h])

namespace World

def transfers (w w' : World ε) (t : Transfers) : Transfers where
  entered := t.entered ++ w'.leased.filter (· ∉ w.leased)
  detached := t.detached ++ w.leased.filter (· ∈ w'.bare)
  surrendered := t.surrendered ++ w.leased.filter (· ∈ w'.inbound)
  given := t.given ++ w.bare.filter (· ∈ w'.inbound)
  returned := t.returned ++ w.inbound.filter (· ∈ w'.freeSlots)

/-- Steps lead to the world, and `t` is what was transferred in them. -/
inductive Traced : World ε → Transfers → Prop where
  | start : Traced {} {}
  | step {w w' : World ε} {t : Transfers} (h : Traced w t) (hs : w.Step w') :
      Traced w' (w.transfers w' t)

theorem Traced.reachable {w : World ε} {t : Transfers} (h : w.Traced t) : w.Reachable := by
  induction h with
  | start => exact .start
  | step _ hs ih => exact ih.step hs

theorem exists_traced {w : World ε} (h : w.Reachable) : ∃ t, w.Traced t := by
  induction h with
  | start => exact ⟨{}, .start⟩
  | step _ hs ih =>
    obtain ⟨t, ht⟩ := ih
    exact ⟨_, ht.step hs⟩

/-- Slots leave their leases once, and go to free stacks once. -/
structure Settled (w : World ε) (t : Transfers) : Prop where
  leased : t.entered.Perm (t.detached ++ t.surrendered ++ w.leased)
  inbound : (t.surrendered ++ t.given).Perm (t.returned ++ w.inbound ++ w.losses.forfeited)
  released : w.arena.released + w.unreturned = t.returned.length

theorem Settled.step {w w' : World ε} {t : Transfers} (h : w.Settled t) (hw : w.Whole)
    (hw' : w'.Whole) (hs : Conveys w w') : w'.Settled (w.transfers w' t) := by
  refine ⟨?_, ?_, ?_⟩
  · rw [List.perm_iff_count]
    intro s
    have hle := hw.count_le s
    have hle' := hw'.count_le s
    have hcount := h.leased.count_eq s
    have hleased := hs.leased s
    simp only [← List.count_pos_iff] at hleased
    simp only [transfers, List.count_append, count_filter, ← List.count_pos_iff] at hcount ⊢
    split_ifs <;> omega
  · rw [List.perm_iff_count]
    intro s
    have hle := hw.count_le s
    have hle' := hw'.count_le s
    have hcount := h.inbound.count_eq s
    have hgiven := hs.given s
    have hinbound := hs.inbound s
    have hkept := @hs.kept s
    have hforfeited := hs.forfeited s
    simp only [← List.count_pos_iff] at hgiven hinbound hkept hforfeited
    simp only [transfers, List.count_append, count_filter, ← List.count_pos_iff] at hcount ⊢
    split_ifs <;> omega
  · rw [hs.counted, h.released, transfers, List.length_append]

theorem settled_of_traced {w : World ε} {t : Transfers} (h : w.Traced t) : w.Settled t := by
  induction h with
  | start => exact ⟨List.Perm.refl _, List.Perm.refl _, rfl⟩
  | step h hs ih =>
    have hr := h.reachable
    exact ih.step (whole_of_reachable hr) (whole_of_reachable (hr.step hs)) (step_conveys hr hs)

/-- A client takes the slot out of a lease, which has nothing left to give back. -/
def Detaches (w w' : World ε) (s : Slot) : Prop :=
  ∃ k ∈ w.clients, ∃ k' ∈ w'.clients, ∃ x ∈ k.held, ∃ x' ∈ k'.held, ∃ y ∈ k'.held,
    x.Detaches x' y ∧ s ∈ x.slots w.memory ∧ s ∈ y.slots w'.memory ∧ x'.dropped = .nothing

theorem detaches_of_step {w w' : World ε} (h : w.Reachable) (hs : w.Step w') {s : Slot}
    (hl : s ∈ w.leased) (hb : s ∈ w'.bare) : w.Detaches w' s := by
  have hw := whole_of_reachable h
  have hbare : s ∉ w.bare := by
    have hle := hw.count_le s
    rw [← List.count_pos_iff] at hl ⊢
    omega
  have hleased : s ∉ w'.leased := by
    have hle := (whole_of_reachable (h.step hs)).count_le s
    rw [← List.count_pos_iff] at hb ⊢
    omega
  cases hs with
  | client a a' clients rest k k' losses new hc hk =>
    have hmem : k ∈ clients := hc.mem_iff.2 List.mem_cons_self
    obtain ⟨hl₁, hl₂, hb₁, hb₂, -, -⟩ := splits_of_client hw hc hk s
    rw [hl₂, not_or] at hleased
    rw [hb₁, not_or] at hbare
    obtain ⟨x, hx, hbx, hsx⟩ := Client.mem_leased.1 ((hl₁.1 hl).resolve_right hleased.2)
    obtain ⟨y, hy, hby, hsy⟩ := Client.mem_bare.1 ((hb₂.1 hb).resolve_right hbare.2)
    obtain ⟨x', hx', hd⟩ := Client.detaches_of_step (hw.known k hmem)
      (hw.partition.of_perm (pieces_perm hc)) hk hx hbx hsx hy hby hsy hleased.1 hbare.1
    exact ⟨k, hmem, k', List.mem_cons_self, x, hx, x', hx', y, hy, hd, hsx, hsy, hd.dropped_eq⟩
  | addPool a clients losses strategy policy backoffMicros =>
    have hsame := regroups_addPool a clients losses strategy policy backoffMicros
    exact absurd ((hsame.mem_leased s).2 hl) hleased
  | join a clients losses =>
    exact absurd (((regroups_join a clients losses).mem_leased s).2 hl) hleased
  | handOver a clients rest giver taker kept h losses hc hh =>
    exact absurd (((regroups_handOver losses hc hh).mem_leased s).2 hl) hleased

/-- No call is under way, and clients have no slots and have lost none. -/
structure Cleared (w : World ε) : Prop where
  idle : ∀ k ∈ w.clients, k.call = none
  leased : w.leased = []
  bare : w.bare = []
  leaked : w.losses.leaked = []

theorem Cleared.inbound {w : World ε} (h : w.Cleared) : w.inbound = [] := by
  apply List.flatMap_eq_nil_iff.2
  intro k hk
  rw [Client.inbound, h.idle k hk, slotsOf_nil]

theorem Cleared.unreturned {w : World ε} (h : w.Cleared) : w.unreturned = 0 := by
  rw [World.unreturned, List.sum_eq_zero_iff_forall_eq_nat]
  intro n hn
  obtain ⟨k, hk, rfl⟩ := List.mem_map.1 hn
  rw [Client.unreturned, h.idle k hk]

theorem exact_of_idle {w : World ε} (h : w.Reachable) (hidle : ∀ k ∈ w.clients, k.call = none)
    {id : PoolId} {p : Pool ε} (hp : w.arena.pool? id = some p) : p.Exact (w.held id) := by
  have hdue : ∀ part : Call.Dues → Nat, part {} = 0 → due w.clients part id = 0 := by
    intro part hpart
    rw [due, List.sum_eq_zero_iff_forall_eq_nat]
    intro n hn
    obtain ⟨k, hk, rfl⟩ := List.mem_map.1 hn
    rw [Client.dues, hidle k hk, hpart]
  have hrunning : w.runningSlots = [] := by
    apply List.flatMap_eq_nil_iff.2
    intro k hk
    rw [Client.running, hidle k hk, slotsOf_nil]
  have hpassing : w.clients.flatMap Client.passing = [] := by
    apply List.flatMap_eq_nil_iff.2
    intro k hk
    rw [Client.passing, hidle k hk]
  obtain ⟨hslots, hlisted, hbooked, hsettled⟩ := (audited_of_reachable h).balanced id p hp
  have hplaces := owned_slots (tended_of_reachable h) (whole_of_reachable h) hp
  have houtside := owned_outside w id
  rw [hdue _ rfl] at hlisted hbooked hsettled
  rw [hrunning, owned_nil] at hplaces
  rw [hpassing, slotsOf_nil, owned_nil] at houtside
  have hheld : p.allocated = p.available + w.held id := by omega
  refine ⟨hheld, by omega, by omega, by omega, ?_⟩
  rw [show p.stats.outstanding = p.allocated - p.available from rfl]
  omega

theorem Cleared.exact {w : World ε} (hc : w.Cleared) (h : w.Reachable)
    (hf : w.losses.forfeited = []) {id : PoolId} {p : Pool ε} (hp : w.arena.pool? id = some p) :
    p.available = p.allocated ∧ p.counters.releases = p.counters.acquisitions := by
  have hheld : w.held id = 0 := by
    have hslots := w.heldSlots_perm
    rw [hc.leased, hc.bare] at hslots
    rw [held, hslots.eq_nil, hc.leaked, hf]
    rfl
  have hexact := exact_of_idle h hc.idle hp
  rw [hheld] at hexact
  exact ⟨hexact.held_eq.symm, hexact.acquired_eq.symm⟩

end World

/-! ## Giving back -/

theorem Call.Returns.inbound_eq {c : Call} {n : Nat} (h : c.Returns n) : c.inbound = c.pieces := by
  cases h <;> rfl

section

variable {rest : List Client} {a : Arena ε} {held : List Held} {id : PoolId} {c : Call}

/-- A call that gives back on its way: it has each of `slots` still, or it is on a free stack, and
`total` is what the pools will have counted in the end. -/
structure Returning (rest : List Client) (held : List Held) (id : PoolId) (slots : List Slot)
    (total : Nat) (a : Arena ε) (c : Call) : Prop where
  has : World.Has rest a held (some (id, c))
  returns : ∃ n, c.Returns n
  lawful : ∀ v, ¬ c.Objects a.memory id v
  kept : slots ⊆ slotsOf a.memory (a.free ++ c.pieces)
  counted : a.released + c.dues.unreturned + (slotsOf a.memory c.pieces).length = total

theorem Returning.step {slots : List Slot} {total : Nat}
    (h : Returning rest held id slots total a c) (granted : Bool) (hc : c.outcome? = none) :
    Returning rest held id slots total (a.step id granted c).1 (a.step id granted c).2 := by
  obtain ⟨p, hp⟩ := h.has.exists_pool
  obtain ⟨frame, hpart⟩ := h.has.exists_call_partition
  have hrun := h.has.run granted hc
  have hlawful := fun v hv => h.lawful v (h.has.objects_of_run granted hc hv)
  rcases hs : a.step id granted c with ⟨a', c'⟩
  rw [hs] at hrun hlawful
  obtain ⟨p', e, heq, -⟩ := Arena.step_eq hp hs
  obtain ⟨n, hn⟩ := h.returns
  have hunbroken : ∀ v, c' ≠ .finished (.broken v) := by
    rintro v rfl
    exact hlawful v rfl
  obtain ⟨n', -, hn'⟩ := (hn.step hc heq).resolve_right fun ⟨v, hv⟩ => hunbroken v hv
  have hnone := Call.forfeited_of_unbroken a'.memory c c' hunbroken
  refine ⟨hrun, ⟨n', hn'⟩, hlawful, ?_, ?_⟩
  · have hsub := (Arena.step_shifts hp hs).slots_subset hpart
      (Call.step_keeps heq h.has.laid).size_le
    rw [hnone, List.map_nil, List.append_nil] at hsub
    exact fun s hs => hsub (h.kept hs)
  · obtain ⟨returned, hperm, -, hcounted⟩ := Arena.step_gives hp hpart hs
    have hlength := hperm.length_eq
    rw [hnone, hn.inbound_eq, hn'.inbound_eq, List.nil_append, List.length_append] at hlength
    have htotal := h.counted
    dsimp only
    omega

theorem Returning.complete {slots : List Slot} {total : Nat}
    (h : Returning rest held id slots total a c) {allocator : Allocator}
    (hend : (a.complete allocator id ⟨c, 0⟩).2.call = .finished .returned) :
    slots ⊆ slotsOf (a.complete allocator id ⟨c, 0⟩).1.memory
        (a.complete allocator id ⟨c, 0⟩).1.free ∧
      (a.complete allocator id ⟨c, 0⟩).1.released = total := by
  have hdone : Returning rest held id slots total (a.complete allocator id ⟨c, 0⟩).1
      (a.complete allocator id ⟨c, 0⟩).2.call :=
    Arena.proceed_keeps (P := Returning rest held id slots total)
      (fun a c granted hc h => h.step granted hc) allocator (fun _ => false) (a.patience id c) h
  rw [hend] at hdone
  exact ⟨by simpa [Call.pieces] using hdone.kept, by
    simpa [Call.pieces, Call.dues] using hdone.counted⟩

theorem World.Has.disposed {x : Held} (h : Has rest a (x :: held) none) (hb : x.isBare = false)
    (allocator : Allocator) :
    x.slots a.memory ⊆ slotsOf (a.disposed allocator x.dropped).memory
        (a.disposed allocator x.dropped).free ∧
      (a.disposed allocator x.dropped).released = a.released + (x.slots a.memory).length := by
  have hnone : (∀ id c, x.dropped ≠ .call id c) → x.slots a.memory = [] := by
    intro hd
    apply List.eq_nil_iff_forall_not_mem.2
    intro s hs
    obtain ⟨id, hid, -⟩ := h.owned List.mem_cons_self hb hs
    obtain ⟨c, hc⟩ := Held.dropped_of_mem hb hid hs
    exact hd id c hc
  have hlawful := h.lawful List.mem_cons_self
  cases hd : x.dropped with
  | call id c =>
    have hgiven := (givenBy_of_dropped hd).1
    have hcall := h.drop
    rw [hd] at hcall
    have hend := hcall.complete_dropped hd hlawful allocator
    rw [hd] at hlawful
    have hstart : Returning rest held id (x.slots a.memory)
        (a.released + (x.slots a.memory).length) a c := by
      refine ⟨hcall, ⟨3, returns_of_dropped hd⟩, hlawful, ?_, ?_⟩
      · rw [Held.slots, hgiven.pieces_eq, slotsOf_append]
        exact List.subset_append_right _ _
      · have hdues : c.dues.unreturned = 0 := by cases hgiven <;> rfl
        rw [Held.slots, hgiven.pieces_eq, hdues, Nat.add_zero]
    exact hstart.complete hend
  | nothing =>
    rw [hnone (by simp [hd])]
    exact ⟨List.nil_subset _, rfl⟩
  | violation v =>
    rw [hnone (by simp [hd])]
    exact ⟨List.nil_subset _, rfl⟩

end

/-! ## Leases that are empty -/

theorem Held.slots_emptied (m : Memory ε) {x : Held} (hb : x.isBare = false) :
    x.emptied.slots m = [] := by
  cases x with
  | slot s => simp [isBare] at hb
  | stack st => simp [isBare] at hb
  | lease l => rfl
  | leaseStack l =>
    simp only [emptied, slots, pieces, LeaseStack.detach, slotsOf_cons, slotsOf_nil,
      List.append_nil]
    exact (Stack.spans_empty m).slots_eq

theorem Held.emptied_eq {m : Memory ε} {x : Held} (hb : x.isBare = false)
    (hsound : ∀ q ∈ x.pieces, q.Sound m) (hs : x.slots m = []) :
    x.emptied = x ∧ x.dropped = .nothing := by
  cases x with
  | slot s => simp [isBare] at hb
  | stack st => simp [isBare] at hb
  | lease l =>
    obtain ⟨slot, pool⟩ := l
    cases slot with
    | none => exact ⟨rfl, rfl⟩
    | some s => simp [slots, pieces] at hs
  | leaseStack l =>
    obtain ⟨⟨head, tail, length⟩, pool⟩ := l
    have hspans : Stack.Spans m ⟨head, tail, length⟩ _ :=
      hsound (.chain ⟨head, tail, length⟩) (by simp [pieces])
    have hnone : Stack.slots m ⟨head, tail, length⟩ = [] := by simpa [slots, pieces] using hs
    obtain ⟨hhead, htail, hlength, -, -⟩ := hspans
    rw [hnone] at hhead htail hlength
    obtain rfl : head = none := hhead
    obtain rfl : tail = none := htail
    obtain rfl : length = 0 := hlength
    exact ⟨rfl, rfl⟩

theorem Registers.get?_store (rs : Registers) (name : String) (x : Held) (other : String) :
    (rs.store name x).get? other = if name = other then some x else rs.get? other := by
  rw [store, get?_cons]
  split
  · rfl
  · rename_i hne
    exact get?_remove_of_ne (Ne.symm hne) rs

namespace Session

variable {item : ItemType ε} {s : Session ε}

theorem Rests.holds (h : Rests item s) : Holds [] s [] := by
  rcases h with rfl | ⟨s₀, c₀, answer, h⟩
  · exact holds_start item
  · exact ⟨h.isClient.distinct, h.isClient.has⟩

theorem Rests.of_perform (h : Rests item s) {allocator : Allocator} {c : Command ε}
    {s' : Session ε} {reply : Reply ε} (hp : s.perform allocator c = (s', .ok reply)) :
    Rests item s' := by
  have hdoing := h.perform allocator c
  rw [hp] at hdoing
  exact .inr ⟨_, _, _, hdoing (by simp)⟩

/-- From `s` to `s'` the slots of `x` get to the free stacks, and each of them is counted. -/
def GivesBack (s s' : Session ε) (x : Held) : Prop :=
  x.slots s.memory ⊆ slotsOf s'.memory s'.arena.free ∧
    s'.arena.released = s.arena.released + (x.slots s.memory).length

theorem Rests.perform_drop (h : Rests item s) {name : String} {x : Held}
    (hg : s.registers.get? name = some x) (hb : x.isBare = false) (allocator : Allocator) :
    ∃ s', s.perform allocator (.drop (some name)) = (s', .ok .done) ∧ Rests item s' ∧
      s'.registers.get? name = none ∧ s.GivesBack s' x := by
  have hdone := h.holds.perform_drop hg allocator
  exact ⟨_, hdone, h.of_perform hdone, Registers.get?_remove_self _ name,
    (h.holds.out hg).disposed hb allocator⟩

theorem Rests.perform_reset (h : Rests item s) {name : String} {x : Held}
    (hg : s.registers.get? name = some x) (hb : x.isBare = false) (allocator : Allocator) :
    ∃ s', s.perform allocator (.reset (some name)) = (s', .ok .done) ∧ Rests item s' ∧
      s'.registers.get? name = some x.emptied ∧ s.GivesBack s' x ∧
      x.emptied.slots s'.memory = [] ∧
      (x.slots s.memory = [] →
        s'.arena = s.arena ∧ ∀ other, s'.registers.get? other = s.registers.get? other) := by
  have hdone := h.holds.perform_reset hg hb allocator
  have hout := h.holds.out hg
  refine ⟨_, hdone, h.of_perform hdone, ?_, hout.disposed hb allocator, Held.slots_emptied _ hb,
    fun hs => ?_⟩
  · rw [Registers.get?_store, if_pos rfl]
  · obtain ⟨hsame, hnothing⟩ := Held.emptied_eq hb (hout.sound List.mem_cons_self) hs
    refine ⟨by rw [hnothing]; rfl, fun other => ?_⟩
    rw [hsame, Registers.get?_store]
    split
    · rename_i he
      exact hg.symm.trans (congrArg _ he)
    · rfl

theorem Doing.exists_traced {c : Command ε} {y : Session ε × Execution ε} (h : Doing item s c y) :
    ∃ (w : World ε) (t : Transfers) (held : List Held), w.Traced t ∧ w.arena = y.1.arena ∧
      w.clients = [⟨held, y.2.call?⟩] ∧ held.Perm y.1.registers.things := by
  obtain ⟨held, clients, losses, hr, hc, hl⟩ := h.isClient.has
  obtain ⟨t, ht⟩ := World.exists_traced hr
  exact ⟨_, t, held, ht, rfl, List.perm_singleton.1 hc, hl⟩

end Session

namespace World

/-- A slot leaves a lease as often as it comes under one: a client takes it out, so that the lease
does not give it back, or it is given back, and put on a free stack and counted once. When nobody
has a slot any more, all slots are free, and as many were released as acquired. Sessions are clients
of such worlds. They can drop a lease or empty it, which does nothing if it is empty already. -/
theorem leases_return_once {w : World ε} {t : Transfers} (h : w.Traced t) :
    w.Settled t ∧ (w.arena.pools.size ≤ 1 → w.losses.forfeited = []) ∧
      (∀ w' s, w.Step w' → s ∈ w.leased → s ∈ w'.bare → w.Detaches w' s) ∧
      (w.Cleared → w.losses.forfeited = [] →
        t.entered.Perm (t.detached ++ t.surrendered) ∧
          (t.surrendered ++ t.given).Perm t.returned ∧ w.arena.released = t.returned.length ∧
          ∀ id p, w.arena.pool? id = some p →
            p.available = p.allocated ∧ p.counters.releases = p.counters.acquisitions) ∧
      (∀ item (s : Session ε) c y, Session.Doing item s c y →
        ∃ (w : World ε) (t : Transfers) (held : List Held), w.Traced t ∧ w.arena = y.1.arena ∧
          w.clients = [⟨held, y.2.call?⟩] ∧ held.Perm y.1.registers.things) ∧
      ∀ item (s : Session ε) name x allocator, Session.Rests item s →
        s.registers.get? name = some x → x.isBare = false →
        (∃ s', s.perform allocator (.drop (some name)) = (s', .ok .done) ∧
          Session.Rests item s' ∧ s'.registers.get? name = none ∧ s.GivesBack s' x) ∧
        ∃ s', s.perform allocator (.reset (some name)) = (s', .ok .done) ∧
          Session.Rests item s' ∧ s'.registers.get? name = some x.emptied ∧ s.GivesBack s' x ∧
          x.emptied.slots s'.memory = [] ∧
          (x.slots s.memory = [] → s'.arena = s.arena ∧
            ∀ other, s'.registers.get? other = s.registers.get? other) := by
  have hr := h.reachable
  have hs := settled_of_traced h
  refine ⟨hs, forfeited_of_reachable hr, fun w' s hstep => detaches_of_step hr hstep,
    fun hc hf => ?_, fun item s c y hd => hd.exists_traced,
    fun item s name x allocator hrests hg hb =>
      ⟨hrests.perform_drop hg hb allocator, hrests.perform_reset hg hb allocator⟩⟩
  obtain ⟨hleased, hinbound, hreleased⟩ := hs
  rw [hc.leased, List.append_nil] at hleased
  rw [hc.inbound, hf, List.append_nil, List.append_nil] at hinbound
  rw [hc.unreturned, Nat.add_zero] at hreleased
  exact ⟨hleased, hinbound, hreleased, fun id p hp => hc.exact hr hf hp⟩

/-! ## Leases that are merged and split -/

def aside : Stack := ⟨some ⟨4⟩, some ⟨7⟩, 2⟩

def others : Stack := ⟨some ⟨6⟩, some ⟨5⟩, 2⟩

/-- The client of `stacking` has put its slots under leases. -/
def leasing : World Nat :=
  ⟨drawnFour.1, [⟨[.leaseStack ⟨threes, some ⟨0⟩⟩, .lease ⟨some ⟨4⟩, some ⟨0⟩⟩], none⟩], {}⟩

def merging : Memory Nat × LeaseStack :=
  LeaseStack.pushLease drawnFour.1.memory ⟨threes, some ⟨0⟩⟩ ⟨some ⟨4⟩, some ⟨0⟩⟩

/-- It has merged the leases. -/
def merged : World Nat :=
  ⟨{ drawnFour.1 with memory := merging.1 }, [⟨[.leaseStack merging.2], none⟩], {}⟩

def partedArena : Arena Nat :=
  { drawnFour.1 with memory := (merging.2.split merging.1 2).1 }

/-- It has split what came of it in two. -/
def parted : World Nat :=
  ⟨partedArena, [⟨[.leaseStack ⟨aside, some ⟨0⟩⟩, .leaseStack ⟨others, some ⟨0⟩⟩], none⟩], {}⟩

/-- It has taken the two slots in front out of their lease. -/
def detaching : World Nat :=
  ⟨partedArena,
    [⟨[.leaseStack ⟨{}, some ⟨0⟩⟩, .stack aside, .leaseStack ⟨others, some ⟨0⟩⟩], none⟩], {}⟩

def dropping : Arena Nat × Arena.Progress :=
  partedArena.proceed (fun _ _ => true) ⟨0⟩ (fun _ => false) 20 ⟨.cleanMany others, 0⟩

def giving : Arena Nat × Arena.Progress :=
  dropping.1.proceed (fun _ _ => true) ⟨0⟩ (fun _ => false) 20 ⟨.cleanMany aside, 0⟩

def cleared : World Nat := ⟨giving.1, [⟨[.leaseStack ⟨{}, some ⟨0⟩⟩], none⟩], {}⟩

theorem leasing_reachable : leasing.Reachable := by
  have hpool : (drawnFour.1.pool? ⟨0⟩).isSome = true := by decide +kernel
  obtain ⟨p, hp⟩ := Option.isSome_iff_exists.1 hpool
  have hone : Lease.ofSlot drawnFour.1.memory ⟨0⟩ ⟨4⟩ = .ok ⟨some ⟨4⟩, some ⟨0⟩⟩ := by
    decide +kernel
  have hmany : LeaseStack.ofStack drawnFour.1.memory ⟨0⟩ threes = .ok ⟨threes, some ⟨0⟩⟩ := by
    decide +kernel
  have h₁ : Reachable ⟨drawnFour.1, [⟨[.lease ⟨some ⟨4⟩, some ⟨0⟩⟩, .stack threes], none⟩], {}⟩ :=
    stacking_reachable.act (.move _ _ [.slot ⟨4⟩] _ [.stack threes] _ (List.Perm.refl _)
      (.leaseSlot _ ⟨0⟩ ⟨4⟩ _ ⟨p, hp⟩ hone))
  exact h₁.act (.move _ _ [.stack threes] _ [.lease ⟨some ⟨4⟩, some ⟨0⟩⟩] _
    (List.Perm.swap _ _ []) (.leaseStack _ ⟨0⟩ threes _ ⟨p, hp⟩ hmany))

theorem parted_reachable : parted.Reachable := by
  have hmerged : merged.Reachable :=
    leasing_reachable.act (.move _ _ [.leaseStack ⟨threes, some ⟨0⟩⟩, .lease ⟨some ⟨4⟩, some ⟨0⟩⟩]
      _ [] _ (List.Perm.refl _) (.pushLease _ _ ⟨threes, some ⟨0⟩⟩ _ rfl))
  have hsplit : (merging.2.split merging.1 2).2 =
      .ok (⟨aside, some ⟨0⟩⟩, ⟨others, some ⟨0⟩⟩) := by decide +kernel
  have hparts : merging.2.split merging.1 2 =
      (partedArena.memory, .ok (⟨aside, some ⟨0⟩⟩, ⟨others, some ⟨0⟩⟩)) := Prod.ext rfl hsplit
  have hmoves : Moves merged.arena.HasPool merged.memory [.leaseStack merging.2]
      partedArena.memory [.leaseStack ⟨aside, some ⟨0⟩⟩, .leaseStack ⟨others, some ⟨0⟩⟩] :=
    .splitLease _ _ _ _ _ 2 hparts
  exact hmerged.act (.move _ _ _ _ [] partedArena.memory (List.Perm.refl _) hmoves)

theorem detaching_step : parted.Step detaching :=
  .client _ _ _ _ _ _ _ _ (List.Perm.refl _)
    (.move _ _ [.leaseStack ⟨aside, some ⟨0⟩⟩] _ [.leaseStack ⟨others, some ⟨0⟩⟩] _
      (List.Perm.refl _) (.detachStack _ _))

theorem cleared_reachable : cleared.Reachable := by
  have hpools : (partedArena.pool? ⟨0⟩).isSome = true ∧ (dropping.1.pool? ⟨0⟩).isSome = true := by
    decide +kernel
  obtain ⟨p, hp⟩ := Option.isSome_iff_exists.1 hpools.1
  obtain ⟨q, hq⟩ := Option.isSome_iff_exists.1 hpools.2
  have hdropped : dropping.2.call = .finished .returned := by decide +kernel
  have hgiven : giving.2.call = .finished .returned := by decide +kernel
  let kept : List Held := [.leaseStack ⟨{}, some ⟨0⟩⟩, .stack aside]
  have h₁ : Reachable ⟨partedArena, [⟨kept, some (⟨0⟩, .cleanMany others)⟩], {}⟩ :=
    (parted_reachable.step detaching_step).step (.client _ _ _ _ _ _ _ _ (List.Perm.refl _)
      (.drop _ _ kept (.leaseStack ⟨others, some ⟨0⟩⟩) ⟨0⟩ p _ (by decide) hp rfl))
  have h₂ : Reachable ⟨dropping.1, [⟨kept, none⟩], {}⟩ :=
    (h₁.finish rfl hdropped (by simp)).act (.finish _ _ ⟨0⟩ _ (by simp))
  have h₃ : Reachable ⟨dropping.1,
      [⟨[.leaseStack ⟨{}, some ⟨0⟩⟩], some (⟨0⟩, .cleanMany aside)⟩], {}⟩ :=
    h₂.act (.give _ _ _ (.stack aside) .stack ⟨0⟩ q _ (List.Perm.swap _ _ []) hq rfl)
  exact (h₃.finish rfl hgiven (by simp)).act (.finish _ _ ⟨0⟩ _ (by simp))

/-- Four slots come under leases, which are merged and split, two of them are taken out, and all of
them get back. -/
theorem leases_return_once_cleared :
    (∃ t, parted.Traced t ∧
      t.entered.Perm (t.detached ++ t.surrendered ++ [⟨4⟩, ⟨7⟩, ⟨6⟩, ⟨5⟩]) ∧
      parted.Step detaching ∧ parted.Detaches detaching ⟨4⟩ ∧ parted.Detaches detaching ⟨7⟩) ∧
    (∃ t, cleared.Traced t ∧ cleared.Cleared ∧ t.returned.length = 4 ∧
      t.entered.Perm (t.detached ++ t.surrendered) ∧
      (t.surrendered ++ t.given).Perm t.returned ∧
      ∃ p, cleared.arena.pool? ⟨0⟩ = some p ∧ p.available = p.allocated ∧
        p.counters.releases = p.counters.acquisitions) ∧
    ∃ (s s' s₁ s₂ : Session Int) (w : World Int) (t : Transfers), w.Traced t ∧ w.arena = s.arena ∧
      s.perform Session.granting (.reset (some "a")) = (s', .ok .done) ∧
      s'.arena.released = s.arena.released + 1 ∧
      s'.perform Session.granting (.drop (some "a")) = (s₁, .ok .done) ∧
      s₁.arena.released = s'.arena.released ∧
      s'.perform Session.granting (.reset (some "a")) = (s₂, .ok .done) ∧
      s₂.arena = s'.arena := by
  obtain ⟨t₁, ht₁⟩ := exists_traced parted_reachable
  obtain ⟨t₂, ht₂⟩ := exists_traced cleared_reachable
  have hleased : parted.leased = [⟨4⟩, ⟨7⟩, ⟨6⟩, ⟨5⟩] ∧ detaching.bare = [⟨4⟩, ⟨7⟩] := by
    decide +kernel
  obtain ⟨hsettled, -, hdetaches, -⟩ := leases_return_once ht₁
  have hentered := hsettled.leased
  rw [hleased.1] at hentered
  obtain ⟨-, hone, -, hcleared, -⟩ := leases_return_once ht₂
  have hc : cleared.Cleared := ⟨by simp [cleared], by decide +kernel, by decide +kernel, rfl⟩
  obtain ⟨hentered', hreturned, hreleased, hpool⟩ := hcleared hc (hone (by decide +kernel))
  have hcount : cleared.arena.released = 4 := by decide +kernel
  have hsome : (cleared.arena.pool? ⟨0⟩).isSome = true := by decide +kernel
  obtain ⟨p, hp⟩ := Option.isSome_iff_exists.1 hsome
  refine ⟨⟨t₁, ht₁, hentered, detaching_step,
      hdetaches _ _ detaching_step (by simp [hleased]) (by simp [hleased]),
      hdetaches _ _ detaching_step (by simp [hleased]) (by simp [hleased])⟩,
    ⟨t₂, ht₂, hc, hreleased.symm.trans hcount, hentered', hreturned, p, hp, hpool _ p hp⟩, ?_⟩
  -- A session whose lease is emptied, and then dropped or emptied again.
  obtain ⟨s, hrests, hx⟩ := Session.exists_rests (.number 7) Session.granting Session.leasingWork
    (fun s => s.registers.get? "a")
    (show _ = some (some (.lease ⟨some ⟨1⟩, some ⟨0⟩⟩)) by decide +kernel)
  obtain ⟨-, -, -, -, hsession, hlease⟩ :=
    leases_return_once (Traced.start : Traced ({} : World Int) {})
  obtain ⟨w, t, held, ht, ha, -⟩ := hsession _ s _ _ (hrests.start (.reset (some "a")))
  obtain ⟨-, s', hs', hrests', hx', hback, hempty, -⟩ :=
    hlease _ s "a" _ Session.granting hrests hx rfl
  obtain ⟨⟨s₁, hs₁, -, -, hback₁⟩, s₂, hs₂, -, -, -, -, hsame⟩ :=
    hlease _ s' "a" _ Session.granting hrests' hx' rfl
  refine ⟨s, s', s₁, s₂, w, t, ht, ha.trans (congrArg (·.1.arena) (Session.start_reset hx rfl)),
    hs', hback.2, hs₁, ?_, hs₂, (hsame hempty).1⟩
  rw [hback₁.2, hempty]
  rfl

end World

end SlotPool
