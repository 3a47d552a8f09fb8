import SlotPool.Proofs.Accounts
import Mathlib.Algebra.BigOperators.Ring.List
import Mathlib.Algebra.Order.BigOperators.Group.List
import Mathlib.Algebra.Order.Ring.Nat

/-!
# Laws of the counters

The counters of a pool, with what is still due to them, agree with the slots and blocks that there
are. So they bound each other at every instant, and are equal whenever no call is under way.
-/

namespace SlotPool

open Memory

variable {ε : Type}

/-! ## Worlds -/

namespace World

/-- The sum over clients of something due to the pool. -/
def due (clients : List Client) (part : Call.Dues → Nat) (id : PoolId) : Nat :=
  (clients.map fun k => part (k.dues id)).sum

def outside (w : World ε) : List Piece := w.clients.flatMap Client.outside ++ w.losses.pieces

/-- The pool's counters agree with the slots and blocks that there are, and what is due. -/
structure Balanced (w : World ε) (id : PoolId) (p : Pool ε) : Prop where
  slots : w.memory.owned id w.memory.slots = p.blocks.length * p.blockSize
  listed : p.allocated + due w.clients (·.unlisted) id = p.blocks.length * p.blockSize
  booked : p.counters.blocksProvisioned * p.blockSize + due w.clients (·.unbooked) id =
    p.blocks.length * p.blockSize
  settled : p.counters.acquisitions = p.counters.releases + due w.clients (·.unreturned) id +
    w.memory.owned id (slotsOf w.memory w.outside)

structure Audited (w : World ε) : Prop where
  fits : ∀ k ∈ w.clients, k.Fits w.arena
  balanced : ∀ id p, w.arena.pool? id = some p → w.Balanced id p

theorem audited_start : Audited ({} : World ε) :=
  ⟨by simp, by simp [Arena.pool?]⟩

theorem due_perm {clients rest : List Client} (hc : clients.Perm rest)
    (part : Call.Dues → Nat) (id : PoolId) : due clients part id = due rest part id :=
  (hc.map _).sum_nat

theorem due_cons (k : Client) (rest : List Client) (part : Call.Dues → Nat) (id : PoolId) :
    due (k :: rest) part id = part (k.dues id) + due rest part id := by
  rw [due, List.map_cons, List.sum_cons, due]

theorem owned_outside_perm {a : Arena ε} {clients rest : List Client} {losses : Losses}
    (hc : clients.Perm rest) (id : PoolId) :
    a.memory.owned id (slotsOf a.memory (outside ⟨a, clients, losses⟩)) =
      a.memory.owned id (slotsOf a.memory (outside ⟨a, rest, losses⟩)) :=
  owned_perm _ _ (slotsOf_perm _ ((hc.flatMap_right _).append_right _))

theorem owned_outside_cons (a : Arena ε) (k : Client) (rest : List Client) (losses : Losses)
    (id : PoolId) :
    a.memory.owned id (slotsOf a.memory (outside ⟨a, k :: rest, losses⟩)) =
      a.memory.owned id (slotsOf a.memory k.outside) +
        a.memory.owned id (slotsOf a.memory (outside ⟨a, rest, losses⟩)) := by
  rw [outside, List.flatMap_cons, List.append_assoc, slotsOf_append, owned_append, outside]

theorem owned_outside_rest {a a' : Arena ε} {clients rest : List Client} {k k' : Client}
    {losses new : Losses} (ht : a.Tended) (hw : Whole ⟨a, clients, losses⟩)
    (hc : clients.Perm (k :: rest)) (hk : Client.Step a k a' k' new) (id : PoolId) :
    a'.memory.owned id (slotsOf a'.memory (outside ⟨a', rest, losses⟩)) =
      a.memory.owned id (slotsOf a.memory (outside ⟨a, rest, losses⟩)) := by
  have hsub : outside ⟨a, rest, losses⟩ ⊆ rest.flatMap Client.pieces ++ losses.pieces := by
    intro piece hpiece
    refine (List.mem_append.1 hpiece).elim (fun hm => List.mem_append_left _ ?_)
      (List.mem_append_right _)
    obtain ⟨k₁, hk₁, hpiece⟩ := List.mem_flatMap.1 hm
    exact List.mem_flatMap.2 ⟨k₁, hk₁, k₁.outside_subset hpiece⟩
  have hpart : Partition a.memory _ := hw.partition.of_perm (pieces_perm hc)
  have hknown : k.Known a := hw.known k (hc.mem_iff.2 (by simp))
  have hsame : slotsOf a'.memory (outside ⟨a', rest, losses⟩) =
      slotsOf a.memory (outside ⟨a, rest, losses⟩) :=
    slotsOf_congr fun q hq => (hw.client hc hk).2 q (hsub hq)
  rw [hsame]
  refine owned_congr id fun s hs => (Client.step_keeps ht hknown hk).owner? s ?_
  apply hpart.lt_size s
  rw [slotsOf_append]
  exact List.mem_append_right _ (mem_slotsOf_of_subset hsub hs)

theorem Balanced.client {a a' : Arena ε} {clients rest : List Client} {k k' : Client}
    {losses new : Losses} {id : PoolId} {p p' : Pool ε} {made : Nat}
    (hb : Balanced ⟨a, clients, losses⟩ id p) (ht : a.Tended) (hw : Whole ⟨a, clients, losses⟩)
    (hc : clients.Perm (k :: rest)) (hk : Client.Step a k a' k' new)
    (hstrategy : p'.strategy = p.strategy) (hbooks : Client.Books a a' k k' new id p p' made) :
    Balanced ⟨a', k' :: rest,
      ⟨losses.leaked ++ new.leaked, losses.forfeited ++ new.forfeited⟩⟩ id p' := by
  have hblock : p'.blockSize = p.blockSize := by rw [Pool.blockSize, hstrategy, Pool.blockSize]
  have hrest := owned_outside_rest ht hw hc hk id
  have hold := (owned_outside_perm hc id).trans (owned_outside_cons a k rest losses id)
  have hnew : a'.memory.owned id (slotsOf a'.memory (outside ⟨a', k' :: rest,
      ⟨losses.leaked ++ new.leaked, losses.forfeited ++ new.forfeited⟩⟩)) =
      a'.memory.owned id (slotsOf a'.memory k'.outside) +
        a'.memory.owned id (slotsOf a'.memory new.pieces) +
        a'.memory.owned id (slotsOf a'.memory (outside ⟨a', rest, losses⟩)) := by
    simp only [outside, Losses.pieces, List.flatMap_cons, List.map_append, slotsOf_append,
      owned_append]
    omega
  have hdue := fun part => (due_perm hc part id).trans (due_cons k rest part id)
  obtain ⟨hslots, hlisted, hbooked, hsettled⟩ := hb
  simp only [hdue] at hlisted hbooked hsettled
  refine ⟨?_, ?_, ?_, ?_⟩
  · rw [hblock, hbooks.blocks, ← hslots]
    exact hbooks.slots
  · rw [hblock, hbooks.blocks, due_cons]
    have := hbooks.listed
    omega
  · rw [hblock, hbooks.blocks, due_cons]
    have := hbooks.booked
    omega
  · rw [due_cons]
    have := hbooks.settled
    simp only [World.memory] at hsettled ⊢
    omega

theorem Balanced.regroup {a : Arena ε} {clients clients' : List Client} {losses : Losses}
    {id : PoolId} {p : Pool ε} (hb : Balanced ⟨a, clients, losses⟩ id p)
    (hdue : ∀ part, part {} = 0 → due clients' part id = due clients part id)
    (hout : (clients'.flatMap Client.outside).Perm (clients.flatMap Client.outside)) :
    Balanced ⟨a, clients', losses⟩ id p := by
  refine ⟨hb.slots, ?_, ?_, ?_⟩
  · rw [hdue _ rfl]
    exact hb.listed
  · rw [hdue _ rfl]
    exact hb.booked
  · rw [hdue _ rfl]
    rw [show memory ⟨a, clients', losses⟩ = a.memory from rfl, outside,
      owned_perm _ _ (slotsOf_perm _ (hout.append_right _))]
    exact hb.settled

theorem balanced_fresh {w : World ε} (ht : w.Tended) (hw : w.Whole) {id : PoolId}
    (hid : w.arena.pool? id = none) (strategy : Strategy ε) (policy : GrowthPolicy)
    (backoffMicros : Nat) : w.Balanced id (.fresh strategy policy backoffMicros) := by
  have hslots : ∀ l, w.memory.owned id l = 0 := by
    intro l
    apply List.countP_eq_zero.2
    intro s hs
    rw [decide_eq_true_eq, owner?, Option.map_eq_some_iff]
    rintro ⟨cell, hcell, rfl⟩
    obtain ⟨p, hp, -⟩ := ht.arena.sized s cell hcell
    simp [hid] at hp
  have hdue : ∀ part, part {} = 0 → due w.clients part id = 0 := by
    intro part hpart
    rw [due, List.sum_eq_zero_iff_forall_eq_nat]
    intro n hn
    obtain ⟨k, hk, rfl⟩ := List.mem_map.1 hn
    unfold Client.dues
    split
    · rename_i id' c hc
      obtain ⟨p, hp⟩ := (hw.known k hk).call id' c hc
      have hne : id' ≠ id := by
        rintro rfl
        simp [hid] at hp
      rw [if_neg hne, hpart]
    · exact hpart
  refine ⟨?_, ?_, ?_, ?_⟩
  · rw [hslots]
    simp [Pool.fresh]
  · rw [hdue _ rfl]
    simp [Pool.fresh]
  · rw [hdue _ rfl]
    simp [Pool.fresh]
  · rw [hdue _ rfl, hslots]
    simp [Pool.fresh]

theorem Audited.step {w w' : World ε} (ha : w.Audited) (ht : w.Tended) (hw : w.Whole)
    (hs : w.Step w') : w'.Audited := by
  cases hs with
  | client a a' clients rest k k' losses new hc hk =>
    have hmem : ∀ k₁ ∈ k :: rest, k₁ ∈ clients := fun k₁ hm => hc.mem_iff.2 hm
    have hknown : k.Known a := hw.known k (hmem k (by simp))
    have hsame := Client.step_samePools hknown hk
    have hpart : Partition a.memory _ := hw.partition.of_perm (pieces_perm hc)
    have hfits : k.Fits a := ha.fits k (hmem k (by simp))
    refine ⟨List.forall_mem_cons.2 ⟨Client.step_fits hfits hknown hpart hk, fun k₁ hm => ?_⟩,
      fun id p' hp' => ?_⟩
    · have hm' := hmem k₁ (by simp [hm])
      exact (ha.fits k₁ hm').samePools (hw.known k₁ hm') hsame
    · have hlt := (Array.getElem?_eq_some_iff.1 hp').1
      rw [Client.step_pools_size hknown hk] at hlt
      obtain ⟨p, hp⟩ : ∃ p, a.pool? id = some p := ⟨_, Array.getElem?_eq_getElem hlt⟩
      obtain ⟨q, hq, hstrategy⟩ := hsame id p hp
      obtain rfl : q = p' := Option.some.inj (hq.symm.trans hp')
      obtain ⟨made, hbooks⟩ := Client.step_books ht.arena (ht.clients k (hmem k (by simp))) hknown
        hfits hpart hk hp hp'
      exact (ha.balanced id p hp).client ht.arena hw hc hk hstrategy hbooks
  | addPool a clients losses strategy policy backoffMicros =>
    have hsame : a.SamePools (a.addPool (.fresh strategy policy backoffMicros)) :=
      fun id p hp => ⟨p, Arena.pool?_addPool hp _, rfl⟩
    refine ⟨fun k hk => (ha.fits k hk).samePools (hw.known k hk) hsame, fun id p hp => ?_⟩
    have hb : Balanced ⟨a, clients, losses⟩ id p := by
      cases hq : a.pool? id with
      | some q =>
        obtain rfl : q = p := Option.some.inj ((Arena.pool?_addPool hq _).symm.trans hp)
        exact ha.balanced id q hq
      | none =>
        obtain hp | rfl := Arena.of_pool?_addPool hp
        · simp [hq] at hp
        · exact balanced_fresh ht hw hq strategy policy backoffMicros
    exact ⟨hb.slots, hb.listed, hb.booked, hb.settled⟩
  | join a clients losses =>
    refine ⟨List.forall_mem_cons.2 ⟨by simp [Client.Fits], ha.fits⟩, fun id p hp => ?_⟩
    refine (ha.balanced id p hp).regroup (fun part hpart => ?_) (List.Perm.refl _)
    rw [due_cons, Client.dues, hpart, Nat.zero_add]
  | handOver a clients rest giver taker kept h losses hc hh =>
    obtain ⟨hgiver, hmore⟩ := forall_of_perm hc ha.fits
    obtain ⟨htaker, hrest⟩ := List.forall_mem_cons.1 hmore
    refine ⟨List.forall_mem_cons.2 ⟨hgiver, List.forall_mem_cons.2 ⟨htaker, hrest⟩⟩,
      fun id p hp => ?_⟩
    refine (ha.balanced id p hp).regroup (fun part _ => ?_) ?_
    · rw [due_perm hc]
      rfl
    · refine List.Perm.trans ?_ (hc.flatMap_right _).symm
      rw [List.perm_iff_count]
      intro piece
      have hheld := (hh.flatMap_right Held.pieces).count_eq piece
      simp only [List.flatMap_cons, List.count_append] at hheld
      simp only [List.flatMap_cons, List.count_append, Client.outside, hheld, Client.passing]
      omega

theorem audited_of_reachable {w : World ε} (h : w.Reachable) : w.Audited := by
  induction h with
  | start => exact audited_start
  | step hr hs ih => exact ih.step (tended_of_reachable hr) (whole_of_reachable hr) hs

end World

/-! ## What is due -/

namespace Call

theorem unlisted_le_unbooked (c : Call) : c.dues.unlisted ≤ c.dues.unbooked := by
  cases c <;> simp [dues]

theorem Fits.dvd_unlisted {blockSize : Nat} {c : Call} (h : c.Fits blockSize) :
    blockSize ∣ c.dues.unlisted := by
  cases c with
  | reserve g => exact Growth.Fits.dvd h
  | build g => exact Growth.Fits.dvd h
  | countSlots g fault => exact Growth.Ends.dvd h
  | _ => exact Nat.dvd_zero _

theorem unlisted_le_owned {m : Memory ε} {id : PoolId} {c : Call}
    (hsound : ∀ q ∈ c.pieces, q.Sound m) (hown : ∀ s ∈ slotsOf m c.vetted, m.owner? s = some id) :
    c.dues.unlisted ≤ m.owned id (c.slots m) := by
  have hgrowth : ∀ g : Growth, c.pieces = g.pieces → c.vetted = g.pieces →
      g.fresh.length ≤ m.owned id (c.slots m) := by
    intro g hp hv
    have hfresh : g.fresh.Spans m (g.fresh.slots m) :=
      hsound (.chain g.fresh) (by rw [hp]; exact List.mem_cons_self)
    rw [slots, hp, ← hv, owned_of_all hown, if_pos rfl, hv, Growth.pieces, slotsOf_cons,
      List.length_append, Piece.slots_chain, hfresh.length]
    exact Nat.le_add_right _ _
  cases c with
  | reserve g => exact hgrowth g rfl rfl
  | build g => exact hgrowth g rfl rfl
  | countSlots g fault => exact hgrowth g rfl rfl
  | _ => exact Nat.zero_le _

end Call

namespace Client

theorem unlisted_le_unbooked (k : Client) (id : PoolId) :
    (k.dues id).unlisted ≤ (k.dues id).unbooked := by
  unfold dues
  split
  · split
    · exact Call.unlisted_le_unbooked _
    · exact Nat.le_refl 0
  · exact Nat.le_refl 0

theorem Fits.dvd_unlisted {a : Arena ε} {k : Client} {id : PoolId} {p : Pool ε} (h : k.Fits a)
    (hp : a.pool? id = some p) : p.blockSize ∣ (k.dues id).unlisted := by
  unfold dues
  split
  · rename_i id' c hc
    split
    · rename_i he
      exact (h id' c p hc (he ▸ hp)).dvd_unlisted
    · exact Nat.dvd_zero _
  · exact Nat.dvd_zero _

theorem Tended.unlisted_le_owned {a : Arena ε} {k : Client} {id : PoolId} {p : Pool ε}
    (h : k.Tended a) (hp : a.pool? id = some p) (hsound : ∀ q ∈ k.pieces, q.Sound a.memory) :
    (k.dues id).unlisted ≤ a.memory.owned id (slotsOf a.memory k.running) := by
  obtain ⟨held, call⟩ := k
  cases call with
  | none => exact Nat.zero_le _
  | some call =>
    obtain ⟨id', c⟩ := call
    simp only [dues]
    split
    · rename_i he
      subst he
      exact Call.unlisted_le_owned (fun q hq => hsound q (List.mem_append_right _ hq))
        fun s hs => (h.call id' c p rfl hp s hs).owner
    · exact Nat.zero_le _

end Client

/-! ## Laws of the counters -/

/-- What the counters of a pool say at any time, where clients hold `held` slots. -/
structure Pool.Bounded (p : Pool ε) (held : Nat) : Prop where
  allocated_dvd : p.blockSize ∣ p.allocated
  held_le : p.available + held ≤ p.allocated
  provisioned_le : p.counters.blocksProvisioned * p.blockSize ≤ p.allocated
  allocated_le : p.allocated ≤ p.blocks.length * p.blockSize
  released_le : p.counters.releases + held ≤ p.counters.acquisitions

/-- What the counters of a pool say while no call is under way. -/
structure Pool.Exact (p : Pool ε) (held : Nat) : Prop where
  held_eq : p.allocated = p.available + held
  allocated_eq : p.allocated = p.blocks.length * p.blockSize
  provisioned_eq : p.allocated = p.counters.blocksProvisioned * p.blockSize
  acquired_eq : p.counters.acquisitions = p.counters.releases + held
  outstanding_eq : p.stats.outstanding = held

namespace World

/-- How many slots of the pool clients hold, or nobody any more. -/
def held (w : World ε) (id : PoolId) : Nat :=
  w.memory.owned id (w.heldSlots ++ w.losses.leaked ++ w.losses.forfeited)

theorem owned_slots {w : World ε} {id : PoolId} {p : Pool ε} (ht : w.Tended) (hw : w.Whole)
    (hp : w.arena.pool? id = some p) :
    w.memory.owned id w.memory.slots =
      p.available + w.held id + w.memory.owned id w.runningSlots := by
  have hperm := (places_perm w).trans hw.partition.perm
  have hfree : w.memory.owned id w.freeSlots = p.available := by
    rw [← Arena.owned_free ht.arena hw.partition hp, ← freeSlots_eq, memory]
  rw [← owned_perm _ _ hperm, places, held]
  simp only [owned_append, hfree]
  omega

theorem owned_outside (w : World ε) (id : PoolId) :
    w.memory.owned id (slotsOf w.memory w.outside) =
      w.held id + w.memory.owned id (slotsOf w.memory (w.clients.flatMap Client.passing)) := by
  have hheld : slotsOf w.memory (w.clients.flatMap fun k => k.held.flatMap Held.pieces) =
      w.heldSlots := by
    rw [slotsOf, List.flatMap_assoc, heldSlots]
    congr
    funext k
    rw [← slotsOf_held, slotsOf]
  have hperm := List.flatMap_append_perm w.clients (fun k => k.held.flatMap Held.pieces)
    Client.passing
  have hclients := owned_perm w.memory id (slotsOf_perm w.memory hperm)
  rw [slotsOf_append, owned_append, hheld] at hclients
  rw [outside, slotsOf_append, owned_append, Losses.pieces, slotsOf_singles, held]
  simp only [owned_append]
  change _ = w.memory.owned id (slotsOf w.memory (w.clients.flatMap Client.outside)) at hclients
  omega

theorem unlisted_le_running {w : World ε} {id : PoolId} {p : Pool ε} (ht : w.Tended) (hw : w.Whole)
    (hp : w.arena.pool? id = some p) :
    due w.clients (·.unlisted) id ≤ w.memory.owned id w.runningSlots := by
  rw [due, owned, runningSlots, List.countP_flatMap]
  apply List.sum_le_sum
  intro k hk
  apply (ht.clients k hk).unlisted_le_owned hp
  intro q hq
  refine hw.partition.sound q (List.mem_append_right _ (List.mem_append_left _ ?_))
  exact List.mem_flatMap.2 ⟨k, hk, hq⟩

/-- The counters of a pool bound each other and the slots that clients hold at every instant, and
say exactly how many there are when no call is under way. -/
theorem counters_agree {w : World ε} (h : w.Reachable) (id : PoolId) (p : Pool ε)
    (hp : w.arena.pool? id = some p) :
    p.Bounded (w.held id) ∧
      ((∀ k ∈ w.clients, k.call = none) → p.Exact (w.held id)) := by
  have hw := whole_of_reachable h
  have ht := tended_of_reachable h
  have ha := audited_of_reachable h
  obtain ⟨hslots, hlisted, hbooked, hsettled⟩ := ha.balanced id p hp
  have hunlisted := unlisted_le_running ht hw hp
  have hunbooked : due w.clients (·.unlisted) id ≤ due w.clients (·.unbooked) id :=
    List.sum_le_sum fun k _ => k.unlisted_le_unbooked id
  have hdvd : p.blockSize ∣ due w.clients (·.unlisted) id := by
    apply List.dvd_sum
    intro n hn
    obtain ⟨k, hk, rfl⟩ := List.mem_map.1 hn
    exact (ha.fits k hk).dvd_unlisted hp
  have hplaces := owned_slots ht hw hp
  have houtside := owned_outside w id
  refine ⟨⟨?_, ?_, ?_, ?_, ?_⟩, fun hidle => ?_⟩
  · exact (Nat.dvd_add_left hdvd).1 (hlisted ▸ Nat.dvd_mul_left _ _)
  · omega
  · omega
  · omega
  · omega
  · have hdue : ∀ part : Call.Dues → Nat, part {} = 0 → due w.clients part id = 0 := by
      intro part hpart
      rw [due, List.sum_eq_zero_iff_forall_eq_nat]
      intro n hn
      obtain ⟨k, hk, rfl⟩ := List.mem_map.1 hn
      rw [Client.dues, hidle k hk, hpart]
    have hrunning : w.runningSlots = [] := by
      apply List.flatMap_eq_nil_iff.2
      intro k hk
      rw [Client.running, hidle k hk, slotsOf_nil]
    have hpassing : w.clients.flatMap Client.passing = [] := by
      apply List.flatMap_eq_nil_iff.2
      intro k hk
      rw [Client.passing, hidle k hk]
    rw [hdue _ rfl] at hlisted hbooked hsettled
    rw [hrunning, owned_nil] at hplaces
    rw [hpassing, slotsOf_nil, owned_nil] at houtside
    refine ⟨?_, ?_, ?_, ?_, ?_⟩
    · omega
    · omega
    · omega
    · omega
    · rw [show p.stats.outstanding = p.allocated - p.available from rfl]
      omega

theorem counters_agree_pairs :
    (growing.Reachable ∧ growing.held ⟨0⟩ = 1 ∧
      ∃ p, growing.arena.pool? ⟨0⟩ = some p ∧ p.Bounded 1) ∧
    (resting.Reachable ∧ resting.held ⟨0⟩ = 1 ∧
      ∃ p, resting.arena.pool? ⟨0⟩ = some p ∧ p.Exact 1) := by
  have hgrowing : growing.held ⟨0⟩ = 1 := by decide +kernel
  have hresting : resting.held ⟨0⟩ = 1 := by decide +kernel
  have hpool : (growing.arena.pool? ⟨0⟩).isSome = true ∧
      (resting.arena.pool? ⟨0⟩).isSome = true := by decide +kernel
  obtain ⟨p, hp⟩ := Option.isSome_iff_exists.1 hpool.1
  obtain ⟨q, hq⟩ := Option.isSome_iff_exists.1 hpool.2
  obtain ⟨hbounded, -⟩ := counters_agree growing_reachable ⟨0⟩ p hp
  obtain ⟨-, hexact⟩ := counters_agree resting_reachable ⟨0⟩ q hq
  rw [hgrowing] at hbounded
  rw [hresting] at hexact
  exact ⟨⟨growing_reachable, hgrowing, p, hp, hbounded⟩,
    ⟨resting_reachable, hresting, q, hq, hexact (by simp [resting])⟩⟩

end World

end SlotPool
