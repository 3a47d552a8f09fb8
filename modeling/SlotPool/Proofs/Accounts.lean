import SlotPool.Proofs.Ledger

/-!
# What a client's step does to the books

Every step of a client keeps the books of each pool: what it makes, takes out and gives back is in
the counters, or is due in the client's call.
-/

namespace SlotPool

open Memory

variable {ε : Type}

/-! ## Free slots -/

theorem Arena.owned_free {a : Arena ε} {id : PoolId} {p : Pool ε} {frame : List Piece}
    (ht : a.Tended) (hpart : Partition a.memory (a.free ++ frame)) (hp : a.pool? id = some p) :
    a.memory.owned id (slotsOf a.memory a.free) = p.available := by
  obtain ⟨others, hfree, -, hothers⟩ := free_perm hp
  have hsound : p.free.Spans a.memory (p.free.slots a.memory) :=
    hpart.sound (.chain p.free) (List.mem_append_left _ (hfree.mem_iff.2 (by simp)))
  have hown := owned_of_all (fun s hs => (ht.free id p hp s hs).owner) id
  have hnone : a.memory.owned id (slotsOf a.memory others) = 0 := by
    apply List.countP_eq_zero.2
    intro s hs
    obtain ⟨piece, hpiece, hs⟩ := List.mem_flatMap.1 hs
    obtain ⟨other, q, hne, hq, rfl⟩ := (hothers piece).1 hpiece
    simp [(ht.free other q hq s hs).owner, hne]
  rw [owned_perm _ _ (slotsOf_perm _ hfree), slotsOf_cons, owned_append, Piece.slots_chain, hown,
    hnone, if_pos rfl, Nat.add_zero, Pool.available, hsound.length]

/-! ## Clients -/

namespace Client

/-- What the client's call has still to add to the counters of the pool. -/
def dues (id : PoolId) (k : Client) : Call.Dues :=
  match k.call with
  | some (id', c) => if id' = id then c.dues else {}
  | none => {}

def passing (k : Client) : List Piece :=
  match k.call with
  | none => []
  | some (_, c) => c.outside

/-- The slots that the pools count as acquired and not yet as given back. -/
def outside (k : Client) : List Piece := k.held.flatMap Held.pieces ++ k.passing

def Fits (a : Arena ε) (k : Client) : Prop :=
  ∀ id c p, k.call = some (id, c) → a.pool? id = some p → c.Fits p.blockSize

/-- The client's call counts nothing, and has only slots that are outside. -/
structure Quiet (k : Client) : Prop where
  dues : ∀ id, k.dues id = {}
  outside : k.outside = k.pieces

theorem quiet_idle (held : List Held) : Quiet ⟨held, none⟩ :=
  ⟨fun _ => rfl, rfl⟩

theorem quiet_call (held : List Held) (id : PoolId) {c : Call} (hd : c.dues = {})
    (ho : c.outside = c.pieces) : Quiet ⟨held, some (id, c)⟩ := by
  refine ⟨fun id' => ?_, ?_⟩
  · simp only [Client.dues, hd, ite_self]
  · simp only [Client.outside, passing, pieces, running, ho]

theorem quiet_givenBy (held : List Held) (id : PoolId) {h : Held} {c : Call}
    (hg : h.GivenBy c) : Quiet ⟨held, some (id, c)⟩ := by
  cases hg <;> exact quiet_call held id rfl rfl

theorem outside_subset (k : Client) : k.outside ⊆ k.pieces := by
  obtain ⟨held, call⟩ := k
  refine List.append_subset.2 ⟨List.subset_append_left _ _, ?_⟩
  apply List.subset_append_of_subset_right
  cases call with
  | none => exact List.Subset.refl _
  | some call => exact call.2.outside_subset

theorem Fits.samePools {a a' : Arena ε} {k : Client} (hf : k.Fits a) (hk : k.Known a)
    (h : a.SamePools a') : k.Fits a' := by
  intro id c p' hc hp'
  obtain ⟨p, hp⟩ := hk.call id c hc
  obtain ⟨p'', hp'', hstrategy⟩ := h id p hp
  obtain rfl : p'' = p' := Option.some.inj (hp''.symm.trans hp')
  rw [Pool.blockSize, hstrategy]
  exact hf id c p hc hp

/-- A step that is not one of a call. -/
structure Still (a a' : Arena ε) (k k' : Client) : Prop where
  pools : a'.pools = a.pools
  size : a'.memory.size = a.memory.size
  before : k.Quiet
  after : k'.Quiet
  fits : ∀ id c, k'.call = some (id, c) → ∀ blockSize, c.Fits blockSize

theorem still_idle {a a' : Arena ε} {k : Client} (held : List Held) (hp : a'.pools = a.pools)
    (hs : a'.memory.size = a.memory.size) (hk : k.Quiet) : Still a a' k ⟨held, none⟩ :=
  ⟨hp, hs, hk, quiet_idle held, by simp⟩

theorem still_givenBy {a : Arena ε} (held rest : List Held) (id : PoolId) {h : Held} {c : Call}
    (hg : h.GivenBy c) : Still a a ⟨held, none⟩ ⟨rest, some (id, c)⟩ := by
  refine ⟨rfl, rfl, quiet_idle held, quiet_givenBy rest id hg, fun id' c' he blockSize => ?_⟩
  obtain ⟨-, rfl⟩ : id = id' ∧ c = c' := by simpa using he
  cases hg <;> trivial

theorem step_cases {a a' : Arena ε} {k k' : Client} {new : Losses} (h : Step a k a' k' new) :
    (∃ id granted c c', k.call = some (id, c) ∧ k' = { k with call := some (id, c') } ∧
      new = { forfeited := c.forfeited a'.memory c' } ∧ a.step id granted c = (a', c')) ∨
    Still a a' k k' := by
  cases h with
  | run a' held id granted c c' hc hr => exact Or.inl ⟨id, granted, c, c', rfl, rfl, rfl, hr⟩
  | ask held id p c hp hc =>
    refine Or.inr ⟨rfl, rfl, quiet_idle held, ?_, fun id' c' he blockSize => ?_⟩
    · cases hc <;> exact quiet_call held id rfl rfl
    · obtain ⟨-, rfl⟩ : id = id' ∧ c = c' := by simpa using he
      cases hc <;> trivial
  | give held rest h kind id p c hh hp hc =>
    exact Or.inr (still_givenBy held rest id (givenBy_of_returning hc))
  | drop held rest h id p c hh hp hd =>
    exact Or.inr (still_givenBy held rest id (givenBy_of_dropped hd).1)
  | reset held rest h id p c hh hp hd =>
    exact Or.inr (still_givenBy held _ id (givenBy_of_dropped hd).1)
  | leak held rest h hh hb => exact Or.inr (still_idle rest rfl rfl (quiet_idle held))
  | expire held rest h hh hb hd => exact Or.inr (still_idle rest rfl rfl (quiet_idle held))
  | move held before after rest m hh hm =>
    exact Or.inr (still_idle _ rfl (moves_size hm) (quiet_idle held))
  | receive held id slots leased h hh =>
    exact Or.inr (still_idle _ rfl rfl (quiet_call held id rfl rfl))
  | reject held id slots leased v hh =>
    exact Or.inr (still_idle held rfl rfl (quiet_call held id rfl rfl))
  | finish held id o ho =>
    refine Or.inr (still_idle held rfl rfl ?_)
    cases o <;> exact quiet_call held id rfl rfl

theorem step_fits {a a' : Arena ε} {k k' : Client} {new : Losses} {frame : List Piece}
    (hf : k.Fits a) (hk : k.Known a) (hpart : Partition a.memory ((a.free ++ k.pieces) ++ frame))
    (h : Step a k a' k' new) : k'.Fits a' := by
  intro id' c₁ q he hq
  rcases step_cases h with ⟨id, granted, c, c', hc, rfl, -, hr⟩ | hstill
  · obtain ⟨rfl, rfl⟩ : id = id' ∧ c' = c₁ := by simpa using he
    obtain ⟨p, hp⟩ := hk.call id c hc
    obtain ⟨p', e, hstep, hpools⟩ := Arena.step_eq hp hr
    obtain ⟨others, hfree, -⟩ := Arena.free_perm hp
    obtain ⟨held, call⟩ := k
    obtain rfl : call = some (id, c) := hc
    rw [Arena.pool?_set hp hpools, if_pos rfl] at hq
    obtain rfl : p' = q := Option.some.inj hq
    have hlocal := Arena.local_partition hfree (call_partition hpart)
    have hstrategy := Call.step_strategy id granted hstep
    rw [Pool.blockSize, hstrategy]
    exact Call.step_fits hstep hlocal (hf id c p rfl hp)
  · exact hstill.fits id' c₁ he _

/-- The books on a pool, before and after a step of a client. -/
structure Books (a a' : Arena ε) (k k' : Client) (new : Losses) (id : PoolId) (p p' : Pool ε)
    (made : Nat) : Prop where
  slots : a'.memory.owned id a'.memory.slots = a.memory.owned id a.memory.slots + made
  blocks : p'.blocks.length * p.blockSize = p.blocks.length * p.blockSize + made
  listed : p'.allocated + (k'.dues id).unlisted = p.allocated + (k.dues id).unlisted + made
  booked : p'.counters.blocksProvisioned * p.blockSize + (k'.dues id).unbooked =
    p.counters.blocksProvisioned * p.blockSize + (k.dues id).unbooked + made
  settled : a.memory.owned id (slotsOf a.memory k.outside) + p'.counters.acquisitions +
      p.counters.releases + (k.dues id).unreturned =
    a'.memory.owned id (slotsOf a'.memory k'.outside) +
      a'.memory.owned id (slotsOf a'.memory new.pieces) + p.counters.acquisitions +
      p'.counters.releases + (k'.dues id).unreturned

theorem still_books {a a' : Arena ε} {k k' : Client} {new : Losses} {frame : List Piece}
    (ht : a.Tended) (hkt : k.Tended a) (hk : k.Known a)
    (hpart : Partition a.memory ((a.free ++ k.pieces) ++ frame)) (h : Step a k a' k' new)
    (hstill : Still a a' k k') {id : PoolId} {p : Pool ε} (hp : a.pool? id = some p) :
    Books a a' k k' new id p p 0 := by
  have hkeep := step_keeps ht hk h
  have hshift := step_shifts hk h
  have hperm := hshift.slots_perm hpart hstill.size
  have hp' : a'.pool? id = some p := by rw [Arena.pool?, hstill.pools, ← Arena.pool?, hp]
  have hlt : ∀ s ∈ slotsOf a.memory (a.free ++ k.pieces), s.index < a.memory.size :=
    fun s hs => hpart.lt_size s (by rw [slotsOf_append]; exact List.mem_append_left _ hs)
  have hcount := owned_perm a.memory id hperm
  rw [← owned_congr id fun s hs => hkeep.owner? s (hlt s (hperm.subset hs))] at hcount
  have hfree : a.memory.owned id (slotsOf a.memory a.free) = p.available := by
    have hpart' := hpart
    rw [List.append_assoc] at hpart'
    exact Arena.owned_free ht hpart' hp
  have hfree' : a'.memory.owned id (slotsOf a'.memory a'.free) = p.available := by
    have hpart' := (hshift _ hpart).1
    rw [List.append_assoc] at hpart'
    exact Arena.owned_free (step_tended ht hkt hk hpart h).1 hpart' hp'
  simp only [slotsOf_append, owned_append, hfree, hfree'] at hcount
  refine ⟨?_, rfl, ?_, ?_, ?_⟩
  · have hslots : a'.memory.slots = a.memory.slots := by
      rw [Memory.slots, hstill.size, Memory.slots]
    rw [hslots]
    exact owned_congr id fun s hs => hkeep.owner? s ((mem_slots a.memory s).1 hs)
  · rw [hstill.before.dues, hstill.after.dues]
    rfl
  · rw [hstill.before.dues, hstill.after.dues]
    rfl
  · rw [hstill.before.dues, hstill.after.dues, hstill.before.outside, hstill.after.outside]
    omega

theorem run_books {a a' : Arena ε} {held : List Held} {id : PoolId} {granted : Bool}
    {c c' : Call} {frame : List Piece} (ht : a.Tended) (hkt : Tended a ⟨held, some (id, c)⟩)
    (hf : Fits a ⟨held, some (id, c)⟩)
    (hpart : Partition a.memory ((a.free ++ pieces ⟨held, some (id, c)⟩) ++ frame))
    {p : Pool ε} (hp : a.pool? id = some p) (h : a.step id granted c = (a', c'))
    {id' : PoolId} {q q' : Pool ε} (hq : a.pool? id' = some q) (hq' : a'.pool? id' = some q') :
    Books a a' ⟨held, some (id, c)⟩ ⟨held, some (id, c')⟩
      { forfeited := c.forfeited a'.memory c' } id' q q'
      (if id' = id then c.made p.blockSize else 0) := by
  obtain ⟨p', e, hstep, hpools⟩ := Arena.step_eq hp h
  obtain ⟨others, hfree, -⟩ := Arena.free_perm hp
  have hcall := call_partition hpart
  have hlocal := Arena.local_partition hfree hcall
  have hfits := hf id c p rfl hp
  have hkeep := Call.step_keeps hstep ht.laid
  obtain ⟨hlisted, hbooked, hblocks⟩ := Call.step_counts hstep hlocal hfits
  have hslots := Call.step_owned hstep ht.laid id'
  have hsettles := Call.step_settles hstep hlocal hfits ht.laid
    (fun s hs => (hkt.call id c p rfl hp s hs).owner) id'
  -- What the client holds meanwhile is left alone.
  have hheld : a'.memory.owned id' (slotsOf a'.memory (held.flatMap Held.pieces)) =
      a.memory.owned id' (slotsOf a.memory (held.flatMap Held.pieces)) := by
    have hsame := (Arena.step_shifts hp h _ hcall).2
    rw [slotsOf_congr fun piece hm => hsame piece (List.mem_append_left _ hm)]
    refine owned_congr id' fun s hs => hkeep.owner? s (hcall.lt_size s ?_)
    simp only [slotsOf_append, List.mem_append]
    exact Or.inr (Or.inl hs)
  rw [Arena.pool?_set hp hpools] at hq'
  by_cases he : id' = id
  · subst he
    obtain rfl : p = q := Option.some.inj (hp.symm.trans hq)
    obtain rfl : p' = q' := by simpa using hq'
    simp only [Call.Settles, if_true] at hslots hsettles
    refine ⟨?_, ?_, ?_, ?_, ?_⟩
    · simpa using hslots
    · simpa using hblocks
    · simpa [dues] using hlisted
    · simpa [dues] using hbooked
    · simp only [dues, outside, passing, if_true, slotsOf_append, owned_append, hheld,
        Losses.pieces, List.nil_append, slotsOf_singles]
      omega
  · rw [if_neg he] at hq' hslots
    obtain rfl : q = q' := Option.some.inj (hq.symm.trans hq')
    have hne : ¬ id = id' := fun h => he h.symm
    simp only [Call.Settles, if_neg he] at hsettles
    refine ⟨?_, ?_, ?_, ?_, ?_⟩
    · simpa [he] using hslots
    · simp [he]
    · simp [dues, he, hne]
    · simp [dues, he, hne]
    · simp only [dues, outside, passing, if_neg hne, slotsOf_append, owned_append, hheld,
        Losses.pieces, List.nil_append, slotsOf_singles]
      omega

theorem step_books {a a' : Arena ε} {k k' : Client} {new : Losses} {frame : List Piece}
    (ht : a.Tended) (hkt : k.Tended a) (hk : k.Known a) (hf : k.Fits a)
    (hpart : Partition a.memory ((a.free ++ k.pieces) ++ frame)) (h : Step a k a' k' new)
    {id : PoolId} {p p' : Pool ε} (hp : a.pool? id = some p) (hp' : a'.pool? id = some p') :
    ∃ made, Books a a' k k' new id p p' made := by
  rcases step_cases h with ⟨id', granted, c, c', hc, rfl, rfl, hr⟩ | hstill
  · obtain ⟨held, call⟩ := k
    obtain rfl : call = some (id', c) := hc
    obtain ⟨q, hq⟩ := hk.call id' c rfl
    exact ⟨_, run_books ht hkt hf hpart hq hr hp hp'⟩
  · rw [Arena.pool?, hstill.pools, ← Arena.pool?, hp] at hp'
    obtain rfl : p = p' := Option.some.inj hp'
    exact ⟨0, still_books ht hkt hk hpart h hstill hp⟩

end Client

end SlotPool
