import SlotPool.Proofs.Calls
import SlotPool.Proofs.Holding

/-!
# No slot is lost or handed out twice

In a reachable world every slot that was ever provided is in one place, once: on a free stack, in
something that a client holds, in the reach of one call, or lost.
-/

namespace SlotPool

open Memory

variable {ε : Type}

/-! ## Calls -/

theorem PoolId.eq_of_index {a b : PoolId} (h : a.index = b.index) : a = b := by
  cases a
  cases b
  exact congrArg PoolId.mk h

namespace Arena

theorem free_perm {a : Arena ε} {id : PoolId} {p : Pool ε} (hp : a.pool? id = some p) :
    ∃ others, a.free.Perm (.chain p.free :: others) ∧
      (∀ a' : Arena ε, ∀ p' : Pool ε, a'.pools = a.pools.setIfInBounds id.index p' →
        a'.free.Perm (.chain p'.free :: others)) ∧
      ∀ piece, piece ∈ others ↔
        ∃ other q, other ≠ id ∧ a.pool? other = some q ∧ piece = .chain q.free := by
  obtain ⟨hlt, hget⟩ := Array.getElem?_eq_some_iff.1 hp
  refine ⟨(a.pools.toList.eraseIdx id.index).map fun p => .chain p.free, ?_, ?_, ?_⟩
  · have hpools := List.getElem_cons_eraseIdx_perm (l := a.pools.toList) hlt
    rw [Array.getElem_toList, hget] at hpools
    exact (hpools.map fun p => Piece.chain p.free).symm
  · intro a' p' hpools
    rw [free, hpools, Array.toList_setIfInBounds]
    exact (List.set_perm_cons_eraseIdx hlt p').map fun p => Piece.chain p.free
  · intro piece
    simp only [List.mem_map, List.mem_eraseIdx_iff_getElem?, Array.getElem?_toList]
    constructor
    · rintro ⟨q, ⟨i, hi, hq⟩, rfl⟩
      exact ⟨⟨i⟩, q, fun he => hi (congrArg PoolId.index he), hq, rfl⟩
    · rintro ⟨other, q, hne, hq, rfl⟩
      exact ⟨q, ⟨other.index, fun hi => hne (PoolId.eq_of_index hi), hq⟩, rfl⟩

theorem local_partition {a : Arena ε} {p : Pool ε} {c : Call} {others frame : List Piece}
    (hfree : a.free.Perm (.chain p.free :: others))
    (hpart : Partition a.memory ((a.free ++ c.pieces) ++ frame)) :
    Partition a.memory ((.chain p.free :: c.pieces) ++ (others ++ frame)) := by
  apply hpart.of_perm
  apply ((hfree.append_right _).append_right _).trans
  rw [List.perm_iff_count]
  intro piece
  simp only [List.count_append, List.count_cons]
  omega

theorem step_eq {a a' : Arena ε} {id : PoolId} {p : Pool ε} {granted : Bool} {c c' : Call}
    (hp : a.pool? id = some p) (h : a.step id granted c = (a', c')) :
    ∃ p' e, c.step id granted a.memory p = (a'.memory, p', e, c') ∧
      a'.pools = a.pools.setIfInBounds id.index p' := by
  obtain ⟨memory, pools, journal⟩ := a
  simp only [pool?] at hp
  simp only [step, hp] at h
  rcases hstep : c.step id granted memory p with ⟨m', p', e, c₁⟩
  simp only [hstep, Prod.mk.injEq] at h
  obtain ⟨rfl, rfl⟩ := h
  exact ⟨p', e, rfl, by simp⟩

theorem pool?_set {a a' : Arena ε} {id : PoolId} {p p' : Pool ε} (hp : a.pool? id = some p)
    (h : a'.pools = a.pools.setIfInBounds id.index p') (other : PoolId) :
    a'.pool? other = if other = id then some p' else a.pool? other := by
  obtain ⟨hlt, -⟩ := Array.getElem?_eq_some_iff.1 hp
  rw [pool?, h]
  split
  · rename_i he
    rw [he, Array.getElem?_setIfInBounds_self_of_lt hlt]
  · rename_i hne
    have hi : id.index ≠ other.index := fun hi => hne (PoolId.eq_of_index hi.symm)
    rw [Array.getElem?_setIfInBounds_ne hi, pool?]

theorem pool?_addPool {a : Arena ε} {id : PoolId} {p : Pool ε} (hp : a.pool? id = some p)
    (new : Pool ε) : (a.addPool new).pool? id = some p := by
  obtain ⟨hlt, -⟩ := Array.getElem?_eq_some_iff.1 hp
  rw [pool?, addPool, Array.getElem?_push_lt hlt]
  simpa [pool?, hlt] using hp

theorem of_pool?_addPool {a : Arena ε} {id : PoolId} {p new : Pool ε}
    (hp : (a.addPool new).pool? id = some p) : a.pool? id = some p ∨ p = new := by
  rw [pool?, addPool, Array.getElem?_push] at hp
  split at hp
  · exact Or.inr (Option.some.inj hp).symm
  · exact Or.inl hp

theorem step_shifts {a a' : Arena ε} {id : PoolId} {p : Pool ε} {granted : Bool} {c c' : Call}
    (hp : a.pool? id = some p) (h : a.step id granted c = (a', c')) :
    Shifts a.memory a'.memory (a.free ++ c.pieces)
      (a'.free ++ (c'.pieces ++ (c.forfeited a'.memory c').map .single)) := by
  obtain ⟨p', e, hstep, hpools⟩ := step_eq hp h
  obtain ⟨others, hfree, hfree', -⟩ := free_perm hp
  have hshift := (Call.step_shifts id granted hstep).append_right others
  refine (hshift.perm_left ?_).perm_right ?_
  · exact (hfree.append_right _).trans (List.perm_append_comm.cons _)
  · exact (List.perm_append_comm.cons _).trans ((hfree' a' p' hpools).append_right _).symm

end Arena

/-! ## Clients -/

theorem forall_of_perm {α : Type} {P : α → Prop} {l rest : List α} {x : α}
    (hp : l.Perm (x :: rest)) (h : ∀ y ∈ l, P y) : P x ∧ ∀ y ∈ rest, P y :=
  List.forall_mem_cons.1 fun y hy => h y (hp.mem_iff.2 hy)

namespace Client

/-- The pools of a client's leases and of its call are there. -/
structure Known (a : Arena ε) (k : Client) : Prop where
  held : ∀ h ∈ k.held, ∀ id, h.pool? = some id → a.HasPool id
  call : ∀ id c, k.call = some (id, c) → a.HasPool id

theorem held_shifts {a a' : Arena ε} {held rest : List Held} (before after : List Held)
    {call : Option (PoolId × Call)} {new : Losses} (ha : a'.pools = a.pools)
    (hh : held.Perm (before ++ rest))
    (hs : Shifts a.memory a'.memory (before.flatMap Held.pieces)
      (after.flatMap Held.pieces ++ (running ⟨rest, call⟩ ++ new.pieces))) :
    Shifts a.memory a'.memory (a.free ++ pieces ⟨held, none⟩)
      (a'.free ++ (pieces ⟨after ++ rest, call⟩ ++ new.pieces)) := by
  rw [Arena.free, Arena.free, ha]
  refine Shifts.append_left ?_ _
  refine ((hs.append_right (rest.flatMap Held.pieces)).perm_left ?_).perm_right ?_
  · rw [pieces, running, List.append_nil, ← List.flatMap_append]
    exact hh.flatMap_right _
  · rw [pieces, List.flatMap_append, List.perm_iff_count]
    intro piece
    simp only [List.count_append, running]
    omega

theorem call_partition {a : Arena ε} {held : List Held} {id : PoolId} {c : Call}
    {frame : List Piece}
    (hpart : Partition a.memory ((a.free ++ pieces ⟨held, some (id, c)⟩) ++ frame)) :
    Partition a.memory ((a.free ++ c.pieces) ++ (held.flatMap Held.pieces ++ frame)) := by
  apply hpart.of_perm
  rw [List.perm_iff_count]
  intro piece
  simp only [pieces, running, List.count_append]
  omega

theorem move_partition {a : Arena ε} {held before rest : List Held} {frame : List Piece}
    (hpart : Partition a.memory ((a.free ++ pieces ⟨held, none⟩) ++ frame))
    (hh : held.Perm (before ++ rest)) : Partition a.memory
      (before.flatMap Held.pieces ++ (a.free ++ (rest.flatMap Held.pieces ++ frame))) := by
  apply hpart.of_perm
  have hpieces := hh.flatMap_right Held.pieces
  rw [List.perm_iff_count] at hpieces ⊢
  intro piece
  have := hpieces piece
  simp only [List.flatMap_append, List.count_append] at this
  simp only [pieces, running, List.append_nil, List.count_append]
  omega

theorem step_shifts {a a' : Arena ε} {k k' : Client} {new : Losses} (hk : k.Known a)
    (h : Step a k a' k' new) :
    Shifts a.memory a'.memory (a.free ++ k.pieces) (a'.free ++ (k'.pieces ++ new.pieces)) := by
  cases h with
  | ask held id p c hp hc =>
    apply held_shifts [] [] rfl (List.Perm.refl held)
    cases hc <;> exact Shifts.refl _ []
  | give held rest h kind id p c hh hp hc =>
    apply held_shifts [h] [] rfl hh
    simpa [running, (givenBy_of_returning hc).pieces_eq, Losses.pieces] using
      Shifts.refl a.memory h.pieces
  | drop held rest h id p c hh hp hd =>
    apply held_shifts [h] [] rfl hh
    simpa [running, (givenBy_of_dropped hd).1.pieces_eq, Losses.pieces] using
      Shifts.refl a.memory h.pieces
  | reset held rest h id p c hh hp hd =>
    obtain ⟨hg, hb, -⟩ := givenBy_of_dropped hd
    apply held_shifts [h] [h.emptied] rfl hh
    simpa [running, Losses.pieces] using emptied_shifts a.memory hg hb
  | leak held rest h hh hb =>
    apply held_shifts [h] [] rfl hh
    simpa [running, Losses.pieces, Held.slots] using Shifts.scatter a.memory h.pieces
  | expire held rest h hh hb hd =>
    apply held_shifts [h] [] rfl hh
    simpa [running, Losses.pieces, Held.slots] using Shifts.scatter a.memory h.pieces
  | move held before after rest m hh hm =>
    refine held_shifts before after rfl hh ?_
    simpa [running, Losses.pieces] using moves_shifts hm
  | run a' held id granted c c' hc hr =>
    obtain ⟨p, hp⟩ := hk.call id c rfl
    have hs := (Arena.step_shifts hp hr).append_right (held.flatMap Held.pieces)
    refine (hs.perm_left ?_).perm_right ?_
    · rw [List.perm_iff_count]
      intro piece
      simp only [pieces, running, List.count_append]
      omega
    · rw [List.perm_iff_count]
      intro piece
      simp only [pieces, running, Losses.pieces, List.nil_append, List.count_append]
      omega
  | receive held id slots leased h hh =>
    refine Shifts.append_left (Shifts.of_perm _ ?_) _
    simp only [pieces, running, Losses.pieces, Call.pieces, List.flatMap_cons, (heldOf_ok hh).1]
    simpa using List.perm_append_comm
  | reject held id slots leased v hh =>
    refine Shifts.append_left ?_ _
    simpa [pieces, running, Losses.pieces, Call.pieces] using
      (Shifts.scatter a.memory slots.pieces).append_left (held.flatMap Held.pieces)
  | finish held id o ho =>
    refine Shifts.append_left ?_ _
    cases o with
    | acquired slots => exact absurd rfl (ho slots)
    | _ => simpa [pieces, running, Losses.pieces, Call.pieces] using Shifts.refl a.memory _

end Client

/-! ## Worlds -/

theorem Call.step_strategy (id : PoolId) (granted : Bool) {m m' : Memory ε} {p p' : Pool ε}
    {c c' : Call} {e : Option Event} (h : c.step id granted m p = (m', p', e, c')) :
    p'.strategy = p.strategy := by
  have hp : (c.step id granted m p).2.1.strategy = p.strategy := by
    cases c <;> simp only [step]
    all_goals repeat' split
    all_goals rfl
  rw [h] at hp
  exact hp

/-- Pools stay where they are, with their strategies. -/
def Arena.SamePools (a a' : Arena ε) : Prop :=
  ∀ id p, a.pool? id = some p → ∃ p', a'.pool? id = some p' ∧ p'.strategy = p.strategy

theorem Arena.samePools_set {a a' : Arena ε} {id : PoolId} {p p' : Pool ε}
    (hp : a.pool? id = some p) (h : a'.pools = a.pools.setIfInBounds id.index p')
    (hstrategy : p'.strategy = p.strategy) : a.SamePools a' := by
  intro other q hq
  rw [pool?_set hp h other]
  split
  · rename_i he
    obtain rfl : p = q := Option.some.inj (hp.symm.trans (he ▸ hq))
    exact ⟨p', rfl, hstrategy⟩
  · exact ⟨q, hq, rfl⟩

theorem Client.step_samePools {a a' : Arena ε} {k k' : Client} {new : Losses} (hk : k.Known a)
    (h : Step a k a' k' new) : a.SamePools a' := by
  cases h with
  | run a' held id granted c c' hc hr =>
    obtain ⟨p, hp⟩ := hk.call id c rfl
    obtain ⟨p', e, hstep, hpools⟩ := Arena.step_eq hp hr
    exact Arena.samePools_set hp hpools (Call.step_strategy id granted hstep)
  | _ => exact fun id p hp => ⟨p, hp, rfl⟩

theorem Arena.SamePools.hasPool {a a' : Arena ε} (h : a.SamePools a') {id : PoolId}
    (hp : a.HasPool id) : a'.HasPool id := by
  obtain ⟨p, hp⟩ := hp
  obtain ⟨p', hp', -⟩ := h id p hp
  exact ⟨p', hp'⟩

theorem Client.Known.samePools {a a' : Arena ε} {k : Client} (hk : k.Known a)
    (h : a.SamePools a') : k.Known a' :=
  ⟨fun held hm id hid => h.hasPool (hk.held held hm id hid),
    fun id c hc => h.hasPool (hk.call id c hc)⟩

theorem Client.known_idle {a : Arena ε} {held : List Held}
    (h : ∀ h ∈ held, ∀ id, h.pool? = some id → a.HasPool id) : Known a ⟨held, none⟩ :=
  ⟨h, by simp⟩

theorem Client.known_call {a : Arena ε} {held : List Held} {id : PoolId} {c : Call}
    (h : ∀ h ∈ held, ∀ id, h.pool? = some id → a.HasPool id) (hid : a.HasPool id) :
    Known a ⟨held, some (id, c)⟩ := by
  refine ⟨h, fun id' c' he => ?_⟩
  obtain ⟨rfl, -⟩ : id = id' ∧ c = c' := by simpa using he
  exact hid

theorem Client.step_known {a a' : Arena ε} {k k' : Client} {new : Losses} (hk : k.Known a)
    (h : Step a k a' k' new) : k'.Known a' := by
  have hheld := hk.held
  cases h with
  | ask held id p c hp hc => exact known_call hheld ⟨p, hp⟩
  | give held rest h kind id p c hh hp hc =>
    exact known_call (forall_of_perm hh hheld).2 ⟨p, hp⟩
  | drop held rest h id p c hh hp hd => exact known_call (forall_of_perm hh hheld).2 ⟨p, hp⟩
  | reset held rest h id p c hh hp hd =>
    obtain ⟨hpool, hrest⟩ := forall_of_perm hh hheld
    rw [← emptied_pool?] at hpool
    exact known_call (List.forall_mem_cons.2 ⟨hpool, hrest⟩) ⟨p, hp⟩
  | leak held rest h hh hb => exact known_idle (forall_of_perm hh hheld).2
  | expire held rest h hh hb hd => exact known_idle (forall_of_perm hh hheld).2
  | move held before after rest m hh hm =>
    apply known_idle
    intro h hmem id hid
    rcases List.mem_append.1 hmem with hmem | hmem
    · obtain hthere | ⟨old, hold, hid⟩ := moves_pool? hm hmem hid
      · exact hthere
      · exact hheld old (hh.mem_iff.2 (by simp [hold])) id hid
    · exact hheld h (hh.mem_iff.2 (by simp [hmem])) id hid
  | run a' held id granted c c' hc hr =>
    exact (known_call hheld (hk.call id c rfl)).samePools
      (step_samePools hk (.run a a' held id granted c c' hc hr))
  | receive held id slots leased h hh =>
    refine known_idle (List.forall_mem_cons.2 ⟨fun id' hid => ?_, hheld⟩)
    have hb : h.isBare = false := by
      cases h with
      | slot s => simp [Held.pool?] at hid
      | stack st => simp [Held.pool?] at hid
      | _ => rfl
    obtain rfl : id = id' := Option.some.inj (((heldOf_ok hh).2 hb).symm.trans hid)
    exact hk.call id _ rfl
  | reject held id slots leased v hh => exact known_idle hheld
  | finish held id o ho => exact known_idle hheld

namespace World

theorem pieces_perm {a : Arena ε} {clients rest : List Client} {k : Client} {losses : Losses}
    (hc : clients.Perm (k :: rest)) :
    (pieces ⟨a, clients, losses⟩).Perm
      ((a.free ++ k.pieces) ++ (rest.flatMap Client.pieces ++ losses.pieces)) := by
  rw [pieces, List.append_assoc, ← List.append_assoc k.pieces, ← List.flatMap_cons]
  exact ((hc.flatMap_right _).append_right _).append_left _

/-- Every slot is in one place, and calls are made to pools that are there. -/
structure Whole (w : World ε) : Prop where
  partition : Partition w.memory w.pieces
  known : ∀ k ∈ w.clients, k.Known w.arena

theorem Whole.client {a a' : Arena ε} {clients rest : List Client} {k k' : Client}
    {losses new : Losses} (hw : Whole ⟨a, clients, losses⟩) (hc : clients.Perm (k :: rest))
    (hk : Client.Step a k a' k' new) :
    Partition a'.memory ((a'.free ++ (k'.pieces ++ new.pieces)) ++
        (rest.flatMap Client.pieces ++ losses.pieces)) ∧
      ∀ p ∈ rest.flatMap Client.pieces ++ losses.pieces, p.slots a'.memory = p.slots a.memory :=
  Client.step_shifts (hw.known k (hc.mem_iff.2 List.mem_cons_self)) hk _
    (hw.partition.of_perm (pieces_perm hc))

theorem whole_start : Whole ({} : World ε) := by
  refine ⟨⟨?_, ?_⟩, ?_⟩
  · simp [pieces, Arena.free, Losses.pieces]
  · simp [pieces, Arena.free, Losses.pieces, memory, slots, size]
  · simp

theorem Whole.step {w w' : World ε} (hw : w.Whole) (hs : w.Step w') : w'.Whole := by
  cases hs with
  | client a a' clients rest k k' losses new hc hk =>
    have hknown : ∀ k₁ ∈ k :: rest, k₁.Known a := fun k₁ hm => hw.known k₁ (hc.mem_iff.2 hm)
    refine ⟨(hw.client hc hk).1.of_perm ?_, ?_⟩
    · rw [List.perm_iff_count]
      intro piece
      simp only [pieces, Losses.pieces, List.flatMap_cons, List.map_append, List.count_append]
      omega
    · intro k₁ hm
      rcases List.mem_cons.1 hm with rfl | hm
      · exact Client.step_known (hknown k (by simp)) hk
      · exact (hknown k₁ (by simp [hm])).samePools (Client.step_samePools (hknown k (by simp)) hk)
  | addPool a clients losses strategy policy backoffMicros =>
    refine ⟨(Shifts.empty a.memory (pieces ⟨a, clients, losses⟩) hw.partition).1.of_perm ?_, ?_⟩
    · rw [List.perm_iff_count]
      intro piece
      simp only [pieces, Arena.free, Arena.addPool, Array.toList_push, List.map_append,
        List.map_cons, List.map_nil, List.count_append, Pool.fresh, Stack.empty]
      omega
    · intro k hm
      exact (hw.known k hm).samePools fun id p hp => ⟨p, Arena.pool?_addPool hp _, rfl⟩
  | join a clients losses =>
    refine ⟨by simpa [pieces, memory, Client.pieces, Client.running] using hw.partition, ?_⟩
    intro k hm
    rcases List.mem_cons.1 hm with rfl | hm
    · exact Client.known_idle (by simp)
    · exact hw.known k hm
  | handOver a clients rest giver taker kept h losses hc hh =>
    refine ⟨hw.partition.of_perm ?_, ?_⟩
    · rw [List.perm_iff_count]
      intro piece
      have hclients := (hc.flatMap_right Client.pieces).count_eq piece
      have hheld := (hh.flatMap_right Held.pieces).count_eq piece
      simp only [List.flatMap_cons, List.count_append, Client.pieces] at hclients hheld
      simp only [pieces, List.flatMap_cons, List.count_append, Client.pieces]
      simp only [Client.running] at *
      omega
    · obtain ⟨hgiver, hmore⟩ := forall_of_perm hc hw.known
      obtain ⟨htaker, hrest⟩ := List.forall_mem_cons.1 hmore
      obtain ⟨hh', hkept⟩ := forall_of_perm hh hgiver.held
      refine List.forall_mem_cons.2 ⟨⟨hkept, hgiver.call⟩, ?_⟩
      exact List.forall_mem_cons.2 ⟨⟨List.forall_mem_cons.2 ⟨hh', htaker.held⟩, htaker.call⟩, hrest⟩

theorem whole_of_reachable {w : World ε} (h : w.Reachable) : w.Whole := by
  induction h with
  | start => exact whole_start
  | step _ hs ih => exact ih.step hs

theorem free_spans {w : World ε} (h : w.Reachable) {id : PoolId} {p : Pool ε}
    (hp : w.arena.pool? id = some p) : p.free.Spans w.memory (p.free.slots w.memory) := by
  refine (whole_of_reachable h).partition.sound (.chain p.free) (List.mem_append_left _ ?_)
  exact List.mem_map.2 ⟨p, Array.mem_toList_iff.2 (Array.mem_of_getElem? hp), rfl⟩

end World

end SlotPool
