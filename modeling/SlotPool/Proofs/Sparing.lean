import SlotPool.Proofs.Guard
import SlotPool.Proofs.Runs
import Mathlib.Data.List.Forall2
import Mathlib.Logic.Relation

/-!
# How far racing clients make a pool grow

A call that finds no slot free does not look again once it has raised the growth flag, so that it
may add a block although another call has added one meanwhile. Still, clients that take and give
back one slot at a time, and never more than a few each, do not make their pool grow without bound:
when a call finds no slot free, all slots are with the clients or in the new block of some other
call, and each call adds one block at most before it looks again.
-/

namespace SlotPool

open Memory

variable {ε : Type}

/-! ## Calls for one slot -/

namespace Call

def isSingle : Call → Bool
  | popMany _ => false
  | reserve g => g.origin.isSingle
  | build g => g.origin.isSingle
  | countSlots g _ => g.origin.isSingle
  | countGrowth g _ _ => g.origin.isSingle
  | countBlocks g _ _ => g.origin.isSingle
  | noteGrowth g _ _ => g.origin.isSingle
  | carve _ _ _ _ => false
  | surrender _ _ _ => false
  | noteFailure _ _ _ _ => false
  | restore _ _ _ => false
  | countAcquired _ (.many _) => false
  | cleanMany _ => false
  | appendMany _ => false
  | finished (.acquired (.many _)) => false
  | _ => true

/-- Slots that the call brings to its client, or still has from it. A call that is to bring a slot
counts from its beginning. -/
def claims : Call → Nat
  | countReleased _ => 0
  | observe _ _ => 0
  | finished (.acquired _) => 1
  | finished _ => 0
  | _ => 1

/-- Slots that the call may add to the pool before it looks for a free one again. -/
def pending (blockSize : Nat) : Call → Nat
  | claimGrowth => blockSize
  | reserve _ => blockSize
  | build _ => blockSize
  | _ => 0

theorem pending_le (blockSize : Nat) (c : Call) : c.pending blockSize ≤ blockSize := by
  cases c <;> simp [pending]

theorem pending_afterGrowth (blockSize : Nat) (g : Growth) (fault : Option PoolError) :
    (afterGrowth g fault).pending blockSize = 0 := by
  obtain ⟨origin, blocks, granted, fresh⟩ := g
  cases origin <;> cases fault <;> rfl

theorem claims_le_one (c : Call) : c.claims ≤ 1 := by
  cases c with
  | finished o => cases o <;> simp [claims]
  | _ => simp [claims]

theorem isSingle_afterGrowth {g : Growth} (hg : g.origin.isSingle = true)
    (fault : Option PoolError) : (afterGrowth g fault).isSingle = true := by
  obtain ⟨origin, blocks, granted, fresh⟩ := g
  cases origin with
  | single => rfl
  | bulk count deficit taken => simp [Origin.isSingle] at hg

theorem Continues.isSingle_eq {g : Growth} {c : Call} (h : Continues g c)
    (hg : g.origin.isSingle = true) : c.isSingle = true := by
  cases h with
  | afterGrowth fault hf hb => exact isSingle_afterGrowth hg fault
  | _ => exact hg

section

variable {id : PoolId} {granted : Bool} {m m' : Memory ε} {p p' : Pool ε} {c c' : Call}
  {e : Option Event} {frame : List Piece}

theorem step_isSingle (h : c.step id granted m p = (m', p', e, c')) (hs : c.isSingle = true) :
    c'.isSingle = true := by
  cases c with
  | popOne =>
    simp only [step] at h
    split at h <;> obtain ⟨-, -, -, rfl⟩ := h <;> rfl
  | claimGrowth =>
    simp only [step] at h
    split at h
    · obtain ⟨-, -, -, rfl⟩ := h
      rfl
    · simp only [Prod.mk.injEq] at h
      obtain ⟨-, -, -, rfl⟩ := h
      exact (continues_startGrowth p.strategy .single 1).isSingle_eq rfl
  | reserve g =>
    obtain ⟨-, -, -, rfl⟩ := h
    exact (continues_afterReservation p.strategy g granted).isSingle_eq hs
  | build g =>
    simp only [step, Prod.mk.injEq] at h
    obtain ⟨-, -, -, rfl⟩ := h
    exact (continues_nextBlock _).isSingle_eq hs
  | noteGrowth g fault allocated =>
    obtain ⟨-, -, -, rfl⟩ := h
    exact isSingle_afterGrowth hs fault
  | unclaim fault =>
    obtain ⟨-, -, -, rfl⟩ := h
    cases fault <;> rfl
  | countAcquired count slots =>
    obtain ⟨-, -, -, rfl⟩ := h
    cases slots with
    | one s => rfl
    | many st => simp [isSingle] at hs
  | cleanOne s =>
    obtain ⟨-, -, hc'⟩ := cleanOne_step h
    obtain rfl | ⟨v, rfl⟩ := hc'.eq_or_broken <;> rfl
  | observe left seen =>
    cases left <;> obtain ⟨-, -, -, rfl⟩ := h <;> rfl
  | popMany count => simp [isSingle] at hs
  | carve count deficit taken fresh => simp [isSingle] at hs
  | surrender count taken surplus => simp [isSingle] at hs
  | noteFailure count taken fresh error => simp [isSingle] at hs
  | restore taken fresh error => simp [isSingle] at hs
  | cleanMany st => simp [isSingle] at hs
  | appendMany st => simp [isSingle] at hs
  | _ =>
    obtain ⟨-, -, -, rfl⟩ := h
    exact hs

theorem step_pending (h : c.step id granted m p = (m', p', e, c'))
    (hp : Partition m ((.chain p.free :: c.pieces) ++ frame)) (hs : c.isSingle = true)
    (hl : c.guards = true → c.Lone p.blockSize) :
    c'.pending p.blockSize + c.made p.blockSize ≤ c.pending p.blockSize ∨
      c = popOne ∧ c' = claimGrowth ∧ p.available = 0 := by
  cases c with
  | popOne =>
    have hfree : p.free.Spans m (p.free.slots m) := hp.sound (.chain p.free) (by simp)
    rcases hslots : p.free.slots m with _ | ⟨s, l⟩
    · rw [hslots] at hfree
      simp only [step, Stack.pop_of_nil hfree, Prod.mk.injEq] at h
      obtain ⟨-, -, -, rfl⟩ := h
      exact Or.inr ⟨rfl, rfl, hfree.length⟩
    · rw [hslots] at hfree
      simp only [step, Stack.pop_of_cons hfree, Prod.mk.injEq] at h
      obtain ⟨-, -, -, rfl⟩ := h
      exact Or.inl (Nat.le_refl 0)
  | claimGrowth => exact Or.inl (pending_le p.blockSize c')
  | reserve g => exact Or.inl (pending_le p.blockSize c')
  | build g =>
    obtain ⟨ho, hb, hf⟩ := hl hs
    obtain ⟨g', hnext, -⟩ := built_lone id hp ho hb hf
    simp only [step, Prod.mk.injEq] at h
    obtain ⟨-, -, -, rfl⟩ := h
    rw [hnext]
    exact Or.inl (Nat.le_of_eq (Nat.zero_add _))
  | noteGrowth g fault allocated =>
    obtain ⟨-, -, -, rfl⟩ := h
    rw [pending_afterGrowth]
    exact Or.inl (Nat.le_refl 0)
  | unclaim fault =>
    obtain ⟨-, -, -, rfl⟩ := h
    cases fault <;> exact Or.inl (Nat.le_refl 0)
  | cleanOne s =>
    obtain ⟨-, -, hc'⟩ := cleanOne_step h
    obtain rfl | ⟨v, rfl⟩ := hc'.eq_or_broken <;> exact Or.inl (Nat.le_refl 0)
  | observe left seen =>
    cases left <;> obtain ⟨-, -, -, rfl⟩ := h <;> exact Or.inl (Nat.le_refl 0)
  | popMany count => simp [isSingle] at hs
  | carve count deficit taken fresh => simp [isSingle] at hs
  | cleanMany st => simp [isSingle] at hs
  | _ =>
    obtain ⟨-, -, -, rfl⟩ := h
    exact Or.inl (Nat.le_refl 0)

theorem Lone.length_slots_le {blockSize : Nat} (hlone : c.Lone blockSize)
    (hsound : ∀ q ∈ c.pieces, q.Sound m) :
    (c.slots m).length + c.pending blockSize ≤ blockSize := by
  have hgrowth : ∀ g : Growth, c.pieces = g.pieces → g.origin = .single →
      (c.slots m).length = g.fresh.length := by
    intro g hpieces ho
    have hfresh : g.fresh.Spans m (g.fresh.slots m) :=
      hsound (.chain g.fresh) (by rw [hpieces]; exact List.mem_cons_self)
    rw [slots, hpieces, Growth.pieces, ho, hfresh.length]
    simp [Origin.pieces]
  cases c with
  | reserve g =>
    obtain ⟨ho, -, hf⟩ := hlone
    rw [hgrowth g rfl ho, hf]
    exact Nat.le_of_eq (Nat.zero_add _)
  | build g =>
    obtain ⟨ho, -, hf⟩ := hlone
    rw [hgrowth g rfl ho, hf]
    exact Nat.le_of_eq (Nat.zero_add _)
  | publish fresh fault =>
    have hfresh : fresh.Spans m (fresh.slots m) := hsound (.chain fresh) (by simp [pieces])
    have hlength : fresh.length = if fault = none then blockSize else 0 := hlone
    simp only [slots, pieces, slotsOf_cons, slotsOf_nil, List.append_nil, Piece.slots_chain,
      ← hfresh.length, pending, Nat.add_zero]
    split at hlength <;> omega
  | unclaim fault => exact Nat.zero_le _
  | countSlots g fault => exact Nat.le_of_eq ((hgrowth g rfl hlone.1).trans hlone.2.2)
  | countGrowth g fault allocated => exact Nat.le_of_eq ((hgrowth g rfl hlone.1).trans hlone.2.2)
  | countBlocks g fault allocated => exact Nat.le_of_eq ((hgrowth g rfl hlone.1).trans hlone.2.2)
  | noteGrowth g fault allocated => exact Nat.le_of_eq ((hgrowth g rfl hlone.1).trans hlone.2.2)
  | _ => exact hlone.elim

/-- A call has no more slots than it claims but for those of one block, and those only when it is
not to add a block any more. -/
theorem length_slots_le (hsound : ∀ q ∈ c.pieces, q.Sound m) (hs : c.isSingle = true)
    {blockSize : Nat} (hl : c.guards = true → c.Lone blockSize) :
    (c.slots m).length + c.pending blockSize ≤ c.claims + blockSize := by
  by_cases hguards : c.guards = true
  · exact Nat.le_trans ((hl hguards).length_slots_le hsound) (Nat.le_add_left _ _)
  · have hpending := c.pending_le blockSize
    have hclaims : (c.slots m).length ≤ c.claims ∧
        ((c.slots m).length = 0 ∨ c.pending blockSize = 0) := by
      cases c with
      | countAcquired count slots =>
        cases slots <;> simp_all [isSingle, Call.slots, pieces, Grant.pieces, claims, pending]
      | finished o =>
        cases o with
        | acquired slots =>
          cases slots <;> simp_all [isSingle, Call.slots, pieces, Grant.pieces, claims, pending]
        | _ => simp [slots, pieces, claims]
      | _ => simp_all [isSingle, Call.guards, slots, pieces, claims, pending]
    omega

end

end Call

/-! ## Clients -/

namespace Client

/-- Slots that the client holds, or is to get, or has not given back yet. -/
def claims (m : Memory ε) (k : Client) : Nat :=
  (k.held.flatMap (·.slots m)).length +
    match k.call with
    | none => 0
    | some (_, c) => c.claims

def pending (blockSize : Nat) (k : Client) : Nat :=
  match k.call with
  | none => 0
  | some (_, c) => c.pending blockSize

theorem pending_le (blockSize : Nat) (k : Client) : k.pending blockSize ≤ blockSize := by
  unfold pending
  split
  · exact Nat.zero_le _
  · exact Call.pending_le _ _

def IsSingle (k : Client) : Prop := ∀ id c, k.call = some (id, c) → c.isSingle = true

theorem pending_of_begun {k : Client}
    (h : ∀ id c, k.call = some (id, c) → c.isBeginning = true) (blockSize : Nat) :
    k.pending blockSize = 0 := by
  unfold pending
  split
  · rfl
  · rename_i id c hc
    have hbegun := h id c hc
    cases c <;> first | rfl | simp [Call.isBeginning] at hbegun

theorem length_running_le {a : Arena ε} {k : Client} {id : PoolId} {p : Pool ε}
    (hp : ∀ id' c, k.call = some (id', c) → a.pool? id' = a.pool? id) (hid : a.pool? id = some p)
    (hs : k.IsSingle) (hl : k.Lone a) (hsound : ∀ q ∈ k.pieces, q.Sound a.memory) :
    (k.held.flatMap (·.slots a.memory)).length + (slotsOf a.memory k.running).length +
      k.pending p.blockSize ≤ k.claims a.memory + p.blockSize := by
  obtain ⟨held, call⟩ := k
  cases call with
  | none => simp [running, pending, claims]
  | some call =>
    obtain ⟨id', c⟩ := call
    have hlone := hl id' c p rfl ((hp id' c rfl).trans hid)
    have hc := Call.length_slots_le (m := a.memory)
      (fun q hq => hsound q (List.mem_append_right _ hq)) (hs id' c rfl) hlone
    simp only [Call.slots] at hc
    simp only [running, pending, claims]
    omega

theorem step_pending {a a' : Arena ε} {k k' : Client} {new : Losses} {frame : List Piece}
    (hk : k.Known a) (hf : k.Fits a) (hs : k.IsSingle) (hl : k.Lone a)
    (hpart : Partition a.memory ((a.free ++ k.pieces) ++ frame)) (h : Step a k a' k' new)
    {id : PoolId} {p p' : Pool ε} (hone : ∀ id', a.HasPool id' → id' = id)
    (hp : a.pool? id = some p) (hp' : a'.pool? id = some p') :
    p'.blocks.length * p.blockSize + k'.pending p.blockSize ≤
        p.blocks.length * p.blockSize + k.pending p.blockSize ∨
      k.call = some (id, .popOne) ∧ p.available = 0 ∧
        p'.blocks.length * p.blockSize = p.blocks.length * p.blockSize := by
  obtain ⟨held, id', granted, c, c', rfl, rfl, hc, hr⟩ | ⟨hpools, hover, hbegun⟩ :=
    step_run_or_begin h
  · obtain rfl := hone id' (hk.call id' c rfl)
    obtain ⟨q, e, hstep, hpools⟩ := Arena.step_eq hp hr
    obtain rfl : q = p' := by simpa [Arena.pool?_set hp hpools] using hp'
    obtain ⟨others, hfree, -⟩ := Arena.free_perm hp
    have hlocal := Arena.local_partition hfree (call_partition hpart)
    obtain ⟨-, -, hblocks⟩ := Call.step_counts hstep hlocal (hf id' c p rfl hp)
    obtain hle | ⟨rfl, -, hnone⟩ :=
      Call.step_pending hstep hlocal (hs id' c rfl) (hl id' c p rfl hp)
    · refine Or.inl ?_
      simp only [pending]
      omega
    · exact Or.inr ⟨rfl, hnone, hblocks⟩
  · rw [Arena.pool?, hpools, ← Arena.pool?, hp] at hp'
    obtain rfl : p = p' := Option.some.inj hp'
    rw [pending_of_begun hbegun]
    exact Or.inl (Nat.le_add_right _ _)

end Client

/-! ## Worlds -/

namespace World

/-- There are `threads` clients of one pool, which take and give back one slot at a time. Each holds
`most` slots at most: those in its hands, one for a call that asks, those that a call has not put
back on the free stack yet, and those that it let go without giving them back. -/
structure Sparing (threads most : Nat) (w : World ε) : Prop where
  clients : w.clients.length = threads
  pools : w.arena.pools.size = 1
  single : ∀ k ∈ w.clients, k.IsSingle
  claims : ∃ gone : List Nat, gone.sum = w.losses.leaked.length ∧
    List.Forall₂ (fun k n => Client.claims w.memory k + n ≤ most) w.clients gone

/-- One thing that happens with such clients. -/
def SparingStep (threads most : Nat) (w w' : World ε) : Prop :=
  w.Step w' ∧ w'.Sparing threads most

theorem sum_le_of_forall₂ {α : Type} {f : α → Nat} {most : Nat} {l : List α} {gone : List Nat}
    (h : List.Forall₂ (fun x n => f x + n ≤ most) l gone) :
    (l.map f).sum + gone.sum ≤ l.length * most := by
  induction h with
  | nil => simp
  | cons hx _ ih =>
    simp only [List.map_cons, List.sum_cons, List.length_cons, Nat.succ_mul]
    omega

theorem sum_add_le {α : Type} {f g h : α → Nat} {n : Nat} {l : List α}
    (hle : ∀ x ∈ l, f x + g x ≤ h x + n) :
    (l.map f).sum + (l.map g).sum ≤ (l.map h).sum + l.length * n := by
  induction l with
  | nil => simp
  | cons x l ih =>
    obtain ⟨hx, hl⟩ := List.forall_mem_cons.1 hle
    have := ih hl
    simp only [List.map_cons, List.sum_cons, List.length_cons, Nat.succ_mul]
    omega

theorem Sparing.claims_le {threads most : Nat} {w : World ε} (h : w.Sparing threads most) :
    (w.clients.map (·.claims w.memory)).sum + w.losses.leaked.length ≤ threads * most := by
  obtain ⟨gone, hgone, hall⟩ := h.claims
  rw [← hgone, ← h.clients]
  exact sum_le_of_forall₂ hall

/-- Slots that the clients' calls may add before they look for a free one again. -/
def pending (clients : List Client) (blockSize : Nat) : Nat :=
  (clients.map (·.pending blockSize)).sum

theorem eq_of_one {a : Arena ε} (hone : a.pools.size = 1) (id : PoolId) (hp : a.HasPool id) :
    id = ⟨0⟩ := by
  obtain ⟨p, hp⟩ := hp
  have hlt := (Array.getElem?_eq_some_iff.1 hp).1
  apply PoolId.eq_of_index
  show id.index = 0
  omega

theorem slots_le {w : World ε} (h : w.Reachable) (hone : w.arena.pools.size ≤ 1) {id : PoolId}
    {p : Pool ε} (hp : w.arena.pool? id = some p) :
    p.blocks.length * p.blockSize ≤ p.available + w.losses.leaked.length +
      (w.clients.map fun k => (k.held.flatMap (·.slots w.memory)).length +
        (slotsOf w.memory k.running).length).sum := by
  have hslots := ((audited_of_reachable h).balanced id p hp).slots
  rw [owned_slots (tended_of_reachable h) (whole_of_reachable h) hp, held,
    forfeited_of_reachable h hone, List.append_nil] at hslots
  have hheld : w.memory.owned id (w.heldSlots ++ w.losses.leaked) ≤ _ := List.countP_le_length
  have hrunning : w.memory.owned id w.runningSlots ≤ _ := List.countP_le_length
  have hheldSlots : w.heldSlots.length =
      (w.clients.map fun k => (k.held.flatMap (·.slots w.memory)).length).sum := List.length_flatMap
  have hrunningSlots : w.runningSlots.length =
      (w.clients.map fun k => (slotsOf w.memory k.running).length).sum := List.length_flatMap
  rw [List.length_append] at hheld
  rw [List.sum_map_add, ← hheldSlots, ← hrunningSlots]
  omega

theorem room_of_none {a : Arena ε} {clients rest : List Client} {k : Client} {losses : Losses}
    {threads most : Nat} (h : Reachable ⟨a, clients, losses⟩)
    (hs : Sparing threads most ⟨a, clients, losses⟩) (hc : clients.Perm (k :: rest))
    {p : Pool ε} (hp : a.pool? ⟨0⟩ = some p) (hk : k.call = some (⟨0⟩, .popOne))
    (hnone : p.available = 0) :
    p.blocks.length * p.blockSize + p.blockSize + pending rest p.blockSize + 1 ≤
      threads * most + threads * p.blockSize := by
  have hw := whole_of_reachable h
  have hslots : _ ≤ _ + losses.leaked.length + (clients.map fun k =>
      (k.held.flatMap (·.slots a.memory)).length + (slotsOf a.memory k.running).length).sum :=
    slots_le h (Nat.le_of_eq hs.pools) hp
  have hclaims : (clients.map (·.claims a.memory)).sum + losses.leaked.length ≤ threads * most :=
    hs.claims_le
  -- Everyone else claims what its call has and may add, but for a block.
  have hrest : (rest.map fun k => (k.held.flatMap (·.slots a.memory)).length +
      (slotsOf a.memory k.running).length).sum + pending rest p.blockSize ≤
      (rest.map (·.claims a.memory)).sum + rest.length * p.blockSize := by
    refine sum_add_le fun k₁ hk₁ => ?_
    have hmem : k₁ ∈ clients := hc.mem_iff.2 (List.mem_cons_of_mem _ hk₁)
    refine Client.length_running_le (fun id c hcall => ?_) hp (hs.single k₁ hmem)
      (lone_of_reachable h k₁ hmem) fun q hq => ?_
    · rw [eq_of_one hs.pools id ((hw.known k₁ hmem).call id c hcall)]
    · apply hw.partition.sound q
      exact List.mem_append_right _ (List.mem_append_left _ (List.mem_flatMap.2 ⟨k₁, hmem, hq⟩))
  have hown : (k.held.flatMap (·.slots a.memory)).length + (slotsOf a.memory k.running).length + 1 =
      k.claims a.memory := by
    obtain ⟨held, call⟩ := k
    obtain rfl : call = _ := hk
    rfl
  have hlength : rest.length + 1 = threads := by
    rw [← hs.clients]
    exact hc.length_eq.symm
  rw [(hc.map _).sum_nat, List.map_cons, List.sum_cons] at hslots hclaims
  have hblocks : threads * p.blockSize = rest.length * p.blockSize + p.blockSize := by
    rw [← hlength, Nat.succ_mul]
  omega

/-- The slots that there are and those that may be added are less than `limit`. -/
def Within (limit : Nat) (strategy : Strategy ε) (w : World ε) : Prop :=
  ∃ p, w.arena.pool? ⟨0⟩ = some p ∧ p.strategy = strategy ∧
    p.blocks.length * p.blockSize + pending w.clients p.blockSize < limit

theorem Within.step {threads most : Nat} {strategy : Strategy ε} {w w' : World ε}
    (h : w.Reachable) (hs : w.Sparing threads most) (hstep : w.Step w')
    (hs' : w'.Sparing threads most)
    (hw : w.Within (threads * most + threads * strategy.blockSize) strategy) :
    w'.Within (threads * most + threads * strategy.blockSize) strategy := by
  obtain ⟨p, hp, rfl, hlt⟩ := hw
  have hwhole := whole_of_reachable h
  cases hstep with
  | client a a' clients rest k k' losses new hc hk =>
    have hmem : k ∈ clients := hc.mem_iff.2 List.mem_cons_self
    have hknown : k.Known a := hwhole.known k hmem
    obtain ⟨p', hp', hstrategy⟩ := Client.step_samePools hknown hk ⟨0⟩ p hp
    have hpart : Partition a.memory _ := hwhole.partition.of_perm (pieces_perm hc)
    have hsplit : pending clients p.blockSize =
        k.pending p.blockSize + pending rest p.blockSize := by
      rw [pending, (hc.map _).sum_nat, List.map_cons, List.sum_cons, pending]
    have hblock : p'.blockSize = p.blockSize := by rw [Pool.blockSize, hstrategy, Pool.blockSize]
    have hlt' : p.blocks.length * p.blockSize + pending clients p.blockSize <
      threads * most + threads * p.blockSize := hlt
    refine ⟨p', hp', hstrategy, ?_⟩
    show _ + pending (k' :: rest) _ < threads * most + threads * p.blockSize
    rw [pending, List.map_cons, List.sum_cons, ← pending, hblock]
    obtain hle | ⟨hcall, hnone, hblocks⟩ := Client.step_pending hknown
      ((audited_of_reachable h).fits k hmem) (hs.single k hmem) (lone_of_reachable h k hmem) hpart
      hk (eq_of_one hs.pools) hp hp'
    · omega
    · have hroom := room_of_none h hs hc hp hcall hnone
      have hpending := Client.pending_le p.blockSize k'
      omega
  | addPool a clients losses strategy policy backoffMicros =>
    have hone : a.pools.size = 1 := hs.pools
    have htwo : (a.addPool (.fresh strategy policy backoffMicros)).pools.size = 1 := hs'.pools
    simp [Arena.addPool, hone] at htwo
  | join a clients losses =>
    refine ⟨p, hp, rfl, ?_⟩
    rw [pending, List.map_cons, List.sum_cons, ← pending]
    exact (Nat.zero_add _).symm ▸ hlt
  | handOver a clients rest giver taker kept h losses hc hh =>
    refine ⟨p, hp, rfl, ?_⟩
    have hsame : pending clients p.blockSize = pending (giver :: taker :: rest) p.blockSize :=
      (hc.map _).sum_nat
    have hlt' : _ + pending clients p.blockSize < _ := hlt
    rw [hsame] at hlt'
    exact hlt'

theorem fleet_sparing (threads most : Nat) (strategy : Strategy ε) (policy : GrowthPolicy)
    (backoffMicros : Nat) : (fleet threads strategy policy backoffMicros).Sparing threads most := by
  refine ⟨List.length_replicate, rfl, ?_, List.replicate threads 0, by simp [fleet], ?_⟩
  · intro k hk
    rw [List.eq_of_mem_replicate hk]
    simp [Client.IsSingle]
  · show List.Forall₂ _ (List.replicate threads _) _
    induction threads with
    | zero => exact .nil
    | succ threads ih => exact .cons (Nat.zero_le most) ih

/-- Clients that take slots one at a time, and never hold more than `most` each, do not make a pool
grow beyond what they can hold and one block for each of them, however long they go on and whatever
the order of their steps. -/
theorem allocated_bounded {threads most : Nat} (ht : 1 ≤ threads) (hm : 1 ≤ most)
    (strategy : Strategy ε) (policy : GrowthPolicy) (backoffMicros : Nat) {w : World ε}
    (h : Relation.ReflTransGen (SparingStep threads most)
      (fleet threads strategy policy backoffMicros) w) :
    ∃ p, w.arena.pool? ⟨0⟩ = some p ∧
      p.allocated ≤ threads * most - 1 + threads * strategy.blockSize := by
  have hpos : 0 < threads * most := Nat.mul_pos ht hm
  have hrun : w.Reachable ∧ w.Sparing threads most ∧
      w.Within (threads * most + threads * strategy.blockSize) strategy := by
    induction h with
    | refl =>
      refine ⟨fleet_reachable _ _ _ _, fleet_sparing _ _ _ _ _, _, rfl, rfl, ?_⟩
      have hnone : pending (List.replicate threads {}) strategy.blockSize = 0 := by
        simp [pending, Client.pending]
      show 0 * strategy.blockSize + pending (List.replicate threads {}) strategy.blockSize < _
      omega
    | tail _ hstep ih =>
      obtain ⟨hreach, hs, hw⟩ := ih
      exact ⟨hreach.step hstep.1, hstep.2, hw.step hreach hs hstep.1 hstep.2⟩
  obtain ⟨hreach, -, p, hp, rfl, hlt⟩ := hrun
  have hlisted := ((audited_of_reachable hreach).balanced ⟨0⟩ p hp).listed
  refine ⟨p, hp, ?_⟩
  rw [← Pool.blockSize] at hlt ⊢
  omega

/-! ## Two clients that race for a pool of pairs -/

theorem sparing_of_bare {a : Arena ε} {clients : List Client} {losses : Losses} {threads : Nat}
    (hlength : clients.length = threads) (hone : a.pools.size = 1) (hnone : losses.leaked = [])
    (hbare : ∀ k ∈ clients, k.held = [] ∧ k.IsSingle) :
    Sparing threads 1 ⟨a, clients, losses⟩ := by
  refine ⟨hlength, hone, fun k hk => (hbare k hk).2, List.replicate clients.length 0, ?_, ?_⟩
  · simp [hnone]
  · have hclaims : ∀ k ∈ clients, k.claims a.memory ≤ 1 := by
      intro k hk
      obtain ⟨held, call⟩ := k
      obtain rfl : held = [] := (hbare _ hk).1
      cases call with
      | none => exact Nat.zero_le 1
      | some call =>
        rw [Client.claims, List.flatMap_nil, List.length_nil, Nat.zero_add]
        exact call.2.claims_le_one
    clear hbare hlength
    induction clients with
    | nil => exact .nil
    | cons k clients ih =>
      obtain ⟨hk, hclients⟩ := List.forall_mem_cons.1 hclaims
      exact .cons hk (ih hclients)

theorem isSingle_of_call {held : List Held} {c : Call} (hs : c.isSingle = true) :
    Client.IsSingle ⟨held, some (⟨0⟩, c)⟩ := by
  rintro id c₁ he
  obtain ⟨-, rfl⟩ : ⟨0⟩ = id ∧ c = c₁ := by simpa using he
  exact hs

/-- A run of clients with nothing in their hands to where one of them is in a call. -/
def RacesTo (w₀ : World ε) (rest : List Client) (a : Arena ε) (c : Call) : Prop :=
  a.HasPool ⟨0⟩ ∧ a.pools.size = 1 ∧ c.isSingle = true ∧ ∃ clients losses,
    losses.leaked = [] ∧ clients.Perm (⟨[], some (⟨0⟩, c)⟩ :: rest) ∧
    Relation.ReflTransGen (SparingStep (rest.length + 1) 1) w₀ ⟨a, clients, losses⟩

theorem RacesTo.proceed {w₀ : World ε} {rest : List Client} {a : Arena ε} {c : Call}
    (h : RacesTo w₀ rest a c) (hrest : ∀ k ∈ rest, k.held = [] ∧ k.IsSingle)
    (allocator : Allocator) (fuel : Nat) :
    RacesTo w₀ rest (a.proceed allocator ⟨0⟩ (fun _ => false) fuel ⟨c, 0⟩).1
      (a.proceed allocator ⟨0⟩ (fun _ => false) fuel ⟨c, 0⟩).2.call := by
  refine Arena.proceed_keeps ?_ allocator _ fuel h
  rintro a c granted hc ⟨⟨p, hp⟩, hone, hs, clients, losses, hnone, hperm, hrun⟩
  rcases hr : a.step ⟨0⟩ granted c with ⟨a', c'⟩
  obtain ⟨p', e, hstep, hpools⟩ := Arena.step_eq hp hr
  have hp' : a'.pool? ⟨0⟩ = some p' := by rw [Arena.pool?_set hp hpools, if_pos rfl]
  have hone' : a'.pools.size = 1 := by rw [hpools, Array.size_setIfInBounds, hone]
  have hs' := Call.step_isSingle hstep hs
  have hnone' : losses.leaked ++ [] = [] := by rw [hnone, List.append_nil]
  have hstep := World.Step.client a a' clients rest _ _ losses _ hperm
    (.run a a' [] ⟨0⟩ granted c c' hc hr)
  refine ⟨⟨p', hp'⟩, hone', hs', _, _, hnone', List.Perm.refl _, hrun.tail ⟨hstep, ?_⟩⟩
  refine sparing_of_bare rfl hone' hnone' (List.forall_mem_cons.2 ⟨⟨rfl, ?_⟩, hrest⟩)
  exact isSingle_of_call hs'

theorem RacesTo.ask {w₀ : World ε} {a : Arena ε} {c : Call} (h : RacesTo w₀ [{}] a c) :
    RacesTo w₀ [⟨[], some (⟨0⟩, c)⟩] a .popOne := by
  obtain ⟨⟨p, hp⟩, hone, hs, clients, losses, hnone, hperm, hrun⟩ := h
  have hnone' : losses.leaked ++ [] = [] := by rw [hnone, List.append_nil]
  have hask := World.Step.client a a clients [⟨[], some (⟨0⟩, c)⟩] {} _ losses {}
    (hperm.trans (List.Perm.swap _ _ _)) (.ask a [] ⟨0⟩ p .popOne hp .popOne)
  refine ⟨⟨p, hp⟩, hone, rfl, _, _, hnone', List.Perm.refl _, hrun.tail ⟨hask, ?_⟩⟩
  refine sparing_of_bare rfl hone hnone' ?_
  simp [isSingle_of_call (c := .popOne) rfl, isSingle_of_call hs]

theorem RacesTo.turn {w₀ : World ε} {a : Arena ε} {c c₁ : Call}
    (h : RacesTo w₀ [⟨[], some (⟨0⟩, c₁)⟩] a c) (hs : c₁.isSingle = true) :
    RacesTo w₀ [⟨[], some (⟨0⟩, c)⟩] a c₁ := by
  obtain ⟨hp, hone, -, clients, losses, hnone, hperm, hrun⟩ := h
  exact ⟨hp, hone, hs, clients, losses, hnone, hperm.trans (List.Perm.swap _ _ _), hrun⟩

def racedFirst : Arena Nat × Arena.Progress :=
  pairArena.proceed (fun _ _ => true) ⟨0⟩ (fun _ => false) 1 ⟨.popOne, 0⟩

def racedSecond : Arena Nat × Arena.Progress :=
  racedFirst.1.proceed (fun _ _ => true) ⟨0⟩ (fun _ => false) 30 ⟨.popOne, 0⟩

def racedLast : Arena Nat × Arena.Progress :=
  racedSecond.1.proceed (fun _ _ => true) ⟨0⟩ (fun _ => false) 30 ⟨racedFirst.2.call, 0⟩

theorem racesTo_start : RacesTo (fleet 2 pairs .headroom 100) [{}] pairArena .popOne := by
  have hask := World.Step.client pairArena pairArena [{}, {}] [{}] {} _ {} {} (List.Perm.refl _)
    (.ask pairArena [] ⟨0⟩ _ .popOne rfl .popOne)
  refine ⟨⟨_, rfl⟩, rfl, rfl, _, _, rfl, List.Perm.refl _, .single ⟨hask, ?_⟩⟩
  refine sparing_of_bare rfl rfl rfl ?_
  simp [Client.IsSingle, Call.isSingle]

/-- Two clients that never hold more than one slot each make a pool of pairs add two blocks. -/
theorem allocated_bounded_racing : ∃ w : World Nat,
    Relation.ReflTransGen (SparingStep 2 1) (fleet 2 pairs .headroom 100) w ∧
      ∃ p, w.arena.pool? ⟨0⟩ = some p ∧ p.allocated = 4 ∧ p.allocated ≤ 2 * 1 - 1 + 2 * 2 := by
  have hidle : ∀ k ∈ [({} : Client)], k.held = [] ∧ k.IsSingle := by simp [Client.IsSingle]
  have hsingle : racedFirst.2.call.isSingle = true ∧ racedSecond.2.call.isSingle = true := by
    decide +kernel
  have hfirst : RacesTo _ [{}] racedFirst.1 racedFirst.2.call :=
    racesTo_start.proceed hidle (fun _ _ => true) 1
  have hsecond : RacesTo _ [⟨[], some (⟨0⟩, racedFirst.2.call)⟩] racedSecond.1
      racedSecond.2.call :=
    hfirst.ask.proceed (by simp [isSingle_of_call hsingle.1]) (fun _ _ => true) 30
  obtain ⟨-, -, -, clients, losses, -, -, hrun⟩ := (hsecond.turn hsingle.1).proceed
    (by simp [isSingle_of_call hsingle.2]) (fun _ _ => true) 30
  obtain ⟨p, hp, hle⟩ := allocated_bounded (by decide) (by decide) pairs .headroom 100 hrun
  have hallocated : (racedLast.1.pool? ⟨0⟩).map (·.allocated) = some 4 := by decide +kernel
  have hp' : racedLast.1.pool? ⟨0⟩ = some p := hp
  rw [hp'] at hallocated
  exact ⟨_, hrun, p, hp, Option.some.inj hallocated, hle⟩

end World

end SlotPool
