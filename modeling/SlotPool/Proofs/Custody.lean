import SlotPool.Proofs.Balance
import Mathlib.Data.List.Flatten

/-!
# From leases to the free stack

A slot that clients have is under a lease, or bare, or in a call that gives it back. A step takes it
from under its lease only when the client takes it out, or gives it back, and a call that gives
slots back puts each of them on the free stack, unless it breaks a rule.
-/

namespace SlotPool

open Memory

variable {ε : Type}

/-! ## Calls -/

namespace Call

/-- Slots that the call was given, and has not put on the free stack yet. -/
def inbound : Call → List Piece
  | cleanOne s => [.single s]
  | pushOne s => [.single s]
  | cleanMany st => [.chain st]
  | appendMany st => [.chain st]
  | _ => []

theorem inbound_sublist (c : Call) : c.inbound.Sublist c.pieces := by
  cases c with
  | cleanOne s => exact List.Sublist.refl _
  | pushOne s => exact List.Sublist.refl _
  | cleanMany st => exact List.Sublist.refl _
  | appendMany st => exact List.Sublist.refl _
  | _ => exact List.nil_sublist _

theorem inbound_afterGrowth (g : Growth) (fault : Option PoolError) :
    (afterGrowth g fault).inbound = [] := by
  obtain ⟨origin, blocks, granted, fresh⟩ := g
  cases origin <;> cases fault <;> rfl

theorem Continues.inbound_eq {g : Growth} {c : Call} (h : Continues g c) : c.inbound = [] := by
  cases h with
  | afterGrowth fault hf hb => exact inbound_afterGrowth g fault
  | _ => rfl

section

variable {id : PoolId} {granted : Bool} {m m' : Memory ε} {p p' : Pool ε} {c c' : Call}
  {e : Option Event} {frame : List Piece}

/-- The slots that the call was given are still in the call, or were taken from it when it broke a
rule, or are those that it has `returned` to the free stack. Each of the last is counted, or due. -/
structure Gives (m m' : Memory ε) (p p' : Pool ε) (c c' : Call) (returned : List Slot) : Prop where
  perm : (slotsOf m c.inbound).Perm
    (slotsOf m' c'.inbound ++ (c.forfeited m' c' ++ returned))
  free : returned ⊆ p'.free.slots m'
  counted : p'.counters.releases + c'.dues.unreturned =
    p.counters.releases + c.dues.unreturned + returned.length

theorem gives_idle (hc : c.inbound = []) (hc' : c'.inbound = []) (hl : c.forfeited m' c' = [])
    (hr : p'.counters.releases + c'.dues.unreturned = p.counters.releases + c.dues.unreturned) :
    Gives m m' p p' c c' [] := by
  refine ⟨?_, List.nil_subset _, hr⟩
  rw [hc, hc', hl]
  exact List.Perm.refl _

theorem Continues.gives {g : Growth} (h : Continues g c')
    (hf : g.fresh.isEmpty = true → g.fresh.length = 0) (hc : c.inbound = [])
    (hd : c.dues.unreturned = 0) (hp : p'.counters = p.counters) :
    Gives m m' p p' c c' [] := by
  refine gives_idle hc h.inbound_eq (forfeited_of_alive _ _ _ h.outcome?_eq) ?_
  rw [h.dues_eq hf, hp, hd]

theorem AfterCleaning.gives {found : Option Violation} {next : Call}
    (hc' : AfterCleaning found next c') (hn : next.inbound = c.inbound) (hc : c.inbound = c.pieces)
    (hd : next.dues = c.dues) (hd' : c.dues = {}) (ha : next.outcome? = none)
    (hm : m'.cells = m.cells) : Gives m m' p p c c' [] := by
  have hsame : slotsOf m' c.pieces = slotsOf m c.pieces :=
    slotsOf_congr fun q _ => Piece.slots_of_cells hm q
  obtain rfl | ⟨v, rfl⟩ := hc'.eq_or_broken
  · refine ⟨?_, List.nil_subset _, by rw [hd]; rfl⟩
    rw [hn, hc, hsame, forfeited_of_alive _ _ _ ha, List.append_nil, List.append_nil]
  · refine ⟨?_, List.nil_subset _, by rw [hd']; rfl⟩
    rw [hc, ← hsame, List.append_nil]
    exact List.Perm.refl _

theorem gives_all (h : c.step id granted m p = (m', p', e, c'))
    (hp : Partition m ((.chain p.free :: c.pieces) ++ frame)) (hm : c.relinksOnly = true)
    (hc : c.inbound = c.pieces) (hc' : c'.inbound = [] ∧ c'.pieces = [] ∧ c'.outcome? = none)
    (hr : p'.counters.releases + c'.dues.unreturned =
      p.counters.releases + c.dues.unreturned + (slotsOf m c.pieces).length) :
    Gives m m' p p' c c' (slotsOf m c.pieces) := by
  obtain ⟨hin, hpieces, halive⟩ := hc'
  have hperm := (step_shifts id granted h).slots_perm hp (size_of_unlinked (unlinked_step h hm))
  rw [hpieces, forfeited_of_alive _ _ _ halive] at hperm
  refine ⟨?_, fun s hs => ?_, hr⟩
  · rw [hc, hin, forfeited_of_alive _ _ _ halive]
    exact List.Perm.refl _
  · have hmem : s ∈ slotsOf m (.chain p.free :: c.pieces) := by
      rw [slotsOf_cons]
      exact List.mem_append_right _ hs
    simpa using hperm.symm.subset hmem

theorem step_gives (h : c.step id granted m p = (m', p', e, c'))
    (hp : Partition m ((.chain p.free :: c.pieces) ++ frame)) :
    ∃ returned, Gives m m' p p' c c' returned := by
  cases c with
  | popOne =>
    refine ⟨[], ?_⟩
    simp only [step] at h
    split at h
    all_goals
      obtain ⟨-, rfl, -, rfl⟩ := h
      exact gives_idle rfl rfl rfl rfl
  | claimGrowth =>
    refine ⟨[], ?_⟩
    simp only [step] at h
    split at h
    · obtain ⟨-, rfl, -, rfl⟩ := h
      exact gives_idle rfl rfl rfl rfl
    · simp only [Prod.mk.injEq] at h
      obtain ⟨-, rfl, -, rfl⟩ := h
      exact (continues_startGrowth p.strategy .single 1).gives (fun _ => rfl) rfl rfl rfl
  | popMany count =>
    refine ⟨[], ?_⟩
    by_cases hcount : count ≤ p.free.length
    · obtain ⟨m₁, front, rest, hs⟩ := Shifts.split_ok hp p.free (by simp) count
      simp only [step, hcount, hs, if_true] at h
      obtain ⟨-, rfl, -, rfl⟩ := h
      exact gives_idle rfl rfl rfl rfl
    · obtain ⟨-, rfl, blocks, -, hnext⟩ := popMany_short hcount h
      exact hnext.gives (fun _ => rfl) rfl rfl rfl
  | reserve g =>
    obtain ⟨-, rfl, -, rfl⟩ := h
    have hfresh : g.fresh.Spans m (g.fresh.slots m) :=
      hp.sound (.chain g.fresh) (by simp [pieces, Growth.pieces])
    have hnext := continues_afterReservation p.strategy g granted
    exact ⟨[], hnext.gives hfresh.length_of_isEmpty rfl rfl rfl⟩
  | build g =>
    obtain ⟨-, rfl, -, rfl⟩ := h
    exact ⟨[], (continues_nextBlock _).gives (buildBlock_isEmpty hp) rfl rfl rfl⟩
  | noteGrowth g fault allocated =>
    obtain ⟨-, rfl, -, rfl⟩ := h
    refine ⟨[], gives_idle rfl (inbound_afterGrowth g fault)
      (forfeited_of_alive _ _ _ (outcome?_afterGrowth g fault)) ?_⟩
    rw [dues_afterGrowth]
    rfl
  | carve count deficit taken fresh =>
    obtain ⟨m₁, needed, surplus, hs⟩ := Shifts.split_ok hp fresh (by simp [pieces]) deficit
    simp only [step, hs] at h
    obtain ⟨-, rfl, -, rfl⟩ := h
    split <;> exact ⟨[], gives_idle rfl rfl rfl rfl⟩
  | unclaim fault =>
    obtain ⟨-, rfl, -, rfl⟩ := h
    cases fault <;> exact ⟨[], gives_idle rfl rfl rfl rfl⟩
  | observe left seen =>
    cases left <;> obtain ⟨-, rfl, -, rfl⟩ := h <;> exact ⟨[], gives_idle rfl rfl rfl rfl⟩
  | cleanOne s =>
    obtain ⟨rfl, rfl, hc'⟩ := cleanOne_step h
    exact ⟨[], hc'.gives rfl rfl rfl rfl rfl (cells_cleanAll _ _ _ _)⟩
  | pushOne s =>
    have hgives := fun hc' hr => gives_all h hp rfl rfl hc' hr
    obtain ⟨-, rfl, -, rfl⟩ := h
    exact ⟨_, hgives ⟨rfl, rfl, rfl⟩ rfl⟩
  | cleanMany st =>
    obtain ⟨rfl, hst⟩ := cleanMany_step h
    have hsound : st.Spans m (st.slots m) := hp.sound (.chain st) (by simp [pieces])
    split at hst
    · rename_i hempty
      obtain ⟨rfl, rfl⟩ := hst
      refine ⟨[], ?_, List.nil_subset _, rfl⟩
      simp [inbound, forfeited, hsound.isEmpty_iff.1 hempty]
    · obtain ⟨rfl, hc'⟩ := hst
      exact ⟨[], hc'.gives rfl rfl rfl rfl rfl (cells_cleanAll _ _ _ _)⟩
  | appendMany st =>
    have hgives := fun hc' hr => gives_all h hp rfl rfl hc' hr
    have hsound : st.Spans m (st.slots m) := hp.sound (.chain st) (by simp [pieces])
    obtain ⟨-, rfl, -, rfl⟩ := h
    refine ⟨_, hgives ⟨rfl, rfl, rfl⟩ ?_⟩
    simp [dues, pieces, ← hsound.length]
  | finished o =>
    obtain ⟨rfl, rfl, -, rfl⟩ := h
    refine ⟨[], gives_idle rfl rfl ?_ rfl⟩
    cases o <;> simp [forfeited, slots, pieces]
  | _ =>
    obtain ⟨-, rfl, -, rfl⟩ := h
    exact ⟨[], gives_idle rfl rfl rfl rfl⟩

end

theorem inbound_of_givenBy {h : Held} {c : Call} (hg : h.GivenBy c) : c.inbound = h.pieces := by
  cases hg <;> rfl

end Call

/-! ## Clients -/

/-- The releases that the pools have counted. -/
def Arena.released (a : Arena ε) : Nat := (a.pools.toList.map fun p => p.counters.releases).sum

theorem Arena.released_set {a a' : Arena ε} {id : PoolId} {p p' : Pool ε}
    (hp : a.pool? id = some p) (h : a'.pools = a.pools.setIfInBounds id.index p') :
    a'.released + p.counters.releases = a.released + p'.counters.releases := by
  obtain ⟨hlt, hget⟩ := Array.getElem?_eq_some_iff.1 hp
  have hold := List.getElem_cons_eraseIdx_perm (l := a.pools.toList) hlt
  have hnew := List.set_perm_cons_eraseIdx (l := a.pools.toList) hlt p'
  rw [Array.getElem_toList, hget] at hold
  have hold' := (hold.map fun p => p.counters.releases).sum_nat
  have hnew' := (hnew.map fun p => p.counters.releases).sum_nat
  rw [released, released, h, Array.toList_setIfInBounds]
  simp only [List.map_cons, List.sum_cons] at hold' hnew'
  omega

/-- What a call that takes a step does with the slots that it was given, in its arena. -/
structure Arena.Gives (a a' : Arena ε) (c c' : Call) (returned : List Slot) : Prop where
  perm : (slotsOf a.memory c.inbound).Perm
    (slotsOf a'.memory c'.inbound ++ (c.forfeited a'.memory c' ++ returned))
  free : returned ⊆ slotsOf a'.memory a'.free
  counted : a'.released + c'.dues.unreturned = a.released + c.dues.unreturned + returned.length

theorem Arena.step_gives {a a' : Arena ε} {id : PoolId} {granted : Bool} {c c' : Call}
    {frame : List Piece} {p : Pool ε} (hp : a.pool? id = some p)
    (hpart : Partition a.memory ((a.free ++ c.pieces) ++ frame))
    (h : a.step id granted c = (a', c')) : ∃ returned, Gives a a' c c' returned := by
  obtain ⟨p', e, hstep, hpools⟩ := step_eq hp h
  obtain ⟨others, hfree, hfree', -⟩ := free_perm hp
  obtain ⟨returned, hperm, hreturned, hcounted⟩ :=
    Call.step_gives hstep (local_partition hfree hpart)
  refine ⟨returned, hperm, fun s hs => ?_, ?_⟩
  · rw [(slotsOf_perm _ (hfree' a' p' hpools)).mem_iff, slotsOf_cons]
    exact List.mem_append_left _ (hreturned hs)
  · have hreleased := released_set hp hpools
    omega

namespace Client

def leased (m : Memory ε) (k : Client) : List Slot :=
  (k.held.filter fun h => !h.isBare).flatMap fun h => h.slots m

def bare (m : Memory ε) (k : Client) : List Slot :=
  (k.held.filter Held.isBare).flatMap fun h => h.slots m

theorem mem_leased {m : Memory ε} {k : Client} {s : Slot} :
    s ∈ k.leased m ↔ ∃ h ∈ k.held, h.isBare = false ∧ s ∈ h.slots m := by
  simp [leased, and_assoc]

theorem mem_bare {m : Memory ε} {k : Client} {s : Slot} :
    s ∈ k.bare m ↔ ∃ h ∈ k.held, h.isBare = true ∧ s ∈ h.slots m := by
  simp [bare, and_assoc]

theorem mem_leased_or_bare {m : Memory ε} {k : Client} {h : Held} {s : Slot} (hh : h ∈ k.held)
    (hs : s ∈ h.slots m) : s ∈ k.leased m ∨ s ∈ k.bare m := by
  rw [mem_leased, mem_bare]
  cases hb : h.isBare with
  | false => exact Or.inl ⟨h, hh, hb, hs⟩
  | true => exact Or.inr ⟨h, hh, hb, hs⟩

theorem held_perm (m : Memory ε) (k : Client) :
    (k.held.flatMap fun h => h.slots m).Perm (k.leased m ++ k.bare m) := by
  rw [leased, bare, ← List.flatMap_append]
  have hfilter := List.filter_append_perm Held.isBare k.held
  exact (hfilter.symm.trans List.perm_append_comm).flatMap_right _

def inbound (k : Client) : List Piece :=
  match k.call with
  | none => []
  | some (_, c) => c.inbound

theorem inbound_subset (k : Client) : k.inbound ⊆ k.running := by
  obtain ⟨held, _ | ⟨id, c⟩⟩ := k
  · exact List.Subset.refl _
  · exact c.inbound_sublist.subset

/-- Slots that the client's call has given back and not counted yet. -/
def unreturned (k : Client) : Nat :=
  match k.call with
  | none => 0
  | some (_, c) => c.dues.unreturned

/-- What a step of a client does to the slots that it has, `returned` being those that its call puts
on the free stack. -/
structure Conveys (a a' : Arena ε) (k k' : Client) (new : Losses) (returned : List Slot) :
    Prop where
  leased : ∀ s ∈ k.leased a.memory,
    s ∈ k'.leased a'.memory ∨ s ∈ k'.bare a'.memory ∨ s ∈ slotsOf a'.memory k'.inbound
  given : ∀ s ∈ slotsOf a'.memory k'.inbound,
    s ∈ slotsOf a.memory k.inbound ∨ s ∈ k.leased a.memory ∨ s ∈ k.bare a.memory
  inbound : ∀ s ∈ slotsOf a.memory k.inbound,
    s ∈ slotsOf a'.memory k'.inbound ∨ s ∈ new.forfeited ∨ s ∈ returned
  gone : new.forfeited ++ returned ⊆ slotsOf a.memory k.inbound
  nodup : returned.Nodup
  free : returned ⊆ slotsOf a'.memory a'.free
  counted : a'.released + k'.unreturned = a.released + k.unreturned + returned.length

theorem run_slots {a a' : Arena ε} {held : List Held} {id : PoolId} {granted : Bool}
    {c c' : Call} {frame : List Piece} {p : Pool ε} (hp : a.pool? id = some p)
    (hpart : Partition a.memory ((a.free ++ pieces ⟨held, some (id, c)⟩) ++ frame))
    (h : a.step id granted c = (a', c')) :
    ∀ x ∈ held, x.slots a'.memory = x.slots a.memory := by
  have hsame := (Arena.step_shifts hp h _ (call_partition hpart)).2
  intro x hx
  refine slotsOf_congr fun q hq => hsame q (List.mem_append_left _ ?_)
  exact List.mem_flatMap.2 ⟨x, hx, hq⟩

theorem move_slots {a : Arena ε} {m : Memory ε} {held before after rest : List Held}
    {frame : List Piece} (hpart : Partition a.memory ((a.free ++ pieces ⟨held, none⟩) ++ frame))
    (hh : held.Perm (before ++ rest)) (hm : Moves a.HasPool a.memory before m after) :
    ∀ x ∈ rest, x.slots m = x.slots a.memory := by
  have hsame := (moves_shifts hm _ (move_partition hpart hh)).2
  intro x hx
  refine slotsOf_congr fun q hq => hsame q (List.mem_append_right _ (List.mem_append_left _ ?_))
  exact List.mem_flatMap.2 ⟨x, hx, hq⟩

theorem run_conveys {a a' : Arena ε} {held : List Held} {id : PoolId} {granted : Bool}
    {c c' : Call} {frame : List Piece} {p : Pool ε} (hp : a.pool? id = some p)
    (hpart : Partition a.memory ((a.free ++ pieces ⟨held, some (id, c)⟩) ++ frame))
    (h : a.step id granted c = (a', c')) : ∃ returned, Conveys a a' ⟨held, some (id, c)⟩
      ⟨held, some (id, c')⟩ { forfeited := c.forfeited a'.memory c' } returned := by
  have hcall := call_partition hpart
  obtain ⟨returned, hperm, hfree, hcounted⟩ := Arena.step_gives hp hcall h
  have hgone : c.forfeited a'.memory c' ++ returned ⊆ slotsOf a.memory c.inbound := fun s hs =>
    hperm.symm.subset (List.mem_append_right _ hs)
  have hnodup : (slotsOf a.memory c.inbound).Nodup := by
    have hsub := (c.inbound_sublist.trans (List.sublist_append_right a.free _)).trans
      (List.sublist_append_left _ (held.flatMap Held.pieces ++ frame))
    exact hcall.nodup.sublist (hsub.flatMap _)
  refine ⟨returned, ⟨fun s hs => Or.inl ?_, fun s hs => Or.inl ?_, fun s hs => ?_, hgone, ?_,
    hfree, hcounted⟩⟩
  · obtain ⟨x, hx, hb, hs⟩ := mem_leased.1 hs
    exact mem_leased.2 ⟨x, hx, hb, run_slots hp hpart h x hx ▸ hs⟩
  · exact hperm.symm.subset (List.mem_append_left _ hs)
  · simpa [inbound] using hperm.subset hs
  · exact (List.nodup_append.1 (List.nodup_append.1 (hperm.nodup_iff.1 hnodup)).2.1).2.1

theorem conveys_idle {a a' : Arena ε} {k k' : Client} {new : Losses} (hpools : a'.pools = a.pools)
    (hk : k.inbound = []) (hd : k.unreturned = 0) (hd' : k'.unreturned = 0)
    (hnew : new.forfeited = [])
    (hleased : ∀ h ∈ k.held, h.isBare = false → ∀ s ∈ h.slots a.memory,
      (∃ h' ∈ k'.held, s ∈ h'.slots a'.memory) ∨ s ∈ slotsOf a'.memory k'.inbound)
    (hgiven : ∀ s ∈ slotsOf a'.memory k'.inbound, ∃ h ∈ k.held, s ∈ h.slots a.memory) :
    Conveys a a' k k' new [] := by
  refine ⟨fun s hs => ?_, fun s hs => Or.inr ?_, ?_, ?_, List.nodup_nil, by simp, ?_⟩
  · obtain ⟨h, hh, hb, hs⟩ := mem_leased.1 hs
    rcases hleased h hh hb s hs with ⟨h', hh', hs'⟩ | hs'
    · exact (mem_leased_or_bare hh' hs').imp_right Or.inl
    · exact Or.inr (Or.inr hs')
  · obtain ⟨h, hh, hs⟩ := hgiven s hs
    exact mem_leased_or_bare hh hs
  · simp [hk]
  · simp [hnew]
  · rw [hd, hd', Arena.released, hpools]
    rfl

theorem conveys_givenBy {a : Arena ε} {held rest kept : List Held} {h : Held} {id : PoolId}
    {c : Call} (hh : held.Perm (h :: rest)) (hkept : rest ⊆ kept) (hg : h.GivenBy c) :
    Conveys a a ⟨held, none⟩ ⟨kept, some (id, c)⟩ {} [] := by
  have hslots : slotsOf a.memory (inbound ⟨kept, some (id, c)⟩) = h.slots a.memory := by
    simp only [inbound, Call.inbound_of_givenBy hg, Held.slots]
  refine conveys_idle rfl rfl rfl (by cases hg <;> rfl) rfl (fun x hx _ s hs => ?_) fun s hs => ?_
  · rw [hslots]
    rcases List.mem_cons.1 (hh.mem_iff.1 hx) with rfl | hx
    · exact Or.inr hs
    · exact Or.inl ⟨x, hkept hx, hs⟩
  · rw [hslots] at hs
    exact ⟨h, hh.mem_iff.2 List.mem_cons_self, hs⟩

theorem step_conveys {a a' : Arena ε} {k k' : Client} {new : Losses} {frame : List Piece}
    (hkt : k.Tended a) (hk : k.Known a)
    (hpart : Partition a.memory ((a.free ++ k.pieces) ++ frame)) (h : Step a k a' k' new) :
    ∃ returned, Conveys a a' k k' new returned := by
  cases h with
  | run a' held id granted c c' hc hr =>
    obtain ⟨p, hp⟩ := hk.call id c rfl
    exact run_conveys hp hpart hr
  | ask held id p c hp hc =>
    refine ⟨[], conveys_idle rfl rfl rfl (by cases hc <;> rfl) rfl
      (fun x hx _ s hs => Or.inl ⟨x, hx, hs⟩) ?_⟩
    cases hc <;> simp [inbound, Call.inbound, Call.readStats]
  | give held rest h kind id p c hh hp hc =>
    exact ⟨[], conveys_givenBy hh (List.Subset.refl _) (givenBy_of_returning hc)⟩
  | drop held rest h id p c hh hp hd =>
    exact ⟨[], conveys_givenBy hh (List.Subset.refl _) (givenBy_of_dropped hd).1⟩
  | reset held rest h id p c hh hp hd =>
    exact ⟨[], conveys_givenBy hh (List.subset_cons_self _ _) (givenBy_of_dropped hd).1⟩
  | leak held rest h hh hb =>
    refine ⟨[], conveys_idle rfl rfl rfl rfl rfl (fun x hx hx' s hs => Or.inl ⟨x, ?_, hs⟩) ?_⟩
    · rcases List.mem_cons.1 (hh.mem_iff.1 hx) with rfl | hx
      · simp [hb] at hx'
      · exact hx
    · simp [inbound]
  | expire held rest h hh hb hd =>
    have hmem : h ∈ held := hh.mem_iff.2 List.mem_cons_self
    have hnone := slots_of_expired hpart hkt hmem hb hd
    refine ⟨[], conveys_idle rfl rfl rfl rfl hnone (fun x hx _ s hs => Or.inl ⟨x, ?_, hs⟩) ?_⟩
    · rcases List.mem_cons.1 (hh.mem_iff.1 hx) with rfl | hx
      · simp [hnone] at hs
      · exact hx
    · simp [inbound]
  | move held before after rest m hh hm =>
    have hpart' := move_partition hpart hh
    have hperm := (moves_shifts hm).slots_perm hpart' (moves_size hm)
    rw [slotsOf_held, slotsOf_held] at hperm
    refine ⟨[], conveys_idle rfl rfl rfl rfl rfl (fun x hx _ s hs => Or.inl ?_) ?_⟩
    · rcases List.mem_append.1 (hh.mem_iff.1 hx) with hx | hx
      · have hs' := hperm.symm.subset (List.mem_flatMap.2 ⟨x, hx, hs⟩)
        obtain ⟨y, hy, hs'⟩ := List.mem_flatMap.1 hs'
        exact ⟨y, List.mem_append_left _ hy, hs'⟩
      · exact ⟨x, List.mem_append_right _ hx, move_slots hpart hh hm x hx ▸ hs⟩
    · simp [inbound]
  | receive held id slots leased h hh =>
    refine ⟨[], conveys_idle rfl rfl rfl rfl rfl (fun x hx _ s hs => Or.inl ⟨x, ?_, hs⟩) ?_⟩
    · exact List.mem_cons_of_mem _ hx
    · simp [inbound]
  | reject held id slots leased v hh =>
    obtain ⟨p, hp⟩ := hk.call id _ rfl
    obtain ⟨got, hgot⟩ := heldOf_isOk (fun s hs => (hkt.call id _ p rfl hp s hs).owner) leased
    simp [hgot] at hh
  | finish held id o ho =>
    refine ⟨[], conveys_idle rfl rfl rfl rfl rfl (fun x hx _ s hs => Or.inl ⟨x, hx, hs⟩) ?_⟩
    simp [inbound]

end Client

/-! ## Worlds -/

namespace World

def leased (w : World ε) : List Slot := w.clients.flatMap fun k => k.leased w.memory

def bare (w : World ε) : List Slot := w.clients.flatMap fun k => k.bare w.memory

def inbound (w : World ε) : List Slot := w.clients.flatMap fun k => slotsOf w.memory k.inbound

def unreturned (w : World ε) : Nat := (w.clients.map Client.unreturned).sum

theorem heldSlots_perm (w : World ε) : w.heldSlots.Perm (w.leased ++ w.bare) := by
  refine List.Perm.trans ?_ (List.flatMap_append_perm _ _ _).symm
  exact List.Perm.flatMap_left _ fun k _ => k.held_perm w.memory

theorem inbound_sublist (w : World ε) : w.inbound.Sublist w.runningSlots := by
  apply List.Sublist.flatMap_right
  rintro ⟨held, _ | ⟨id, c⟩⟩ hk
  · exact List.Sublist.refl _
  · exact c.inbound_sublist.flatMap _

/-- A slot is in one of these places at most, and there once. -/
theorem Whole.count_le {w : World ε} (hw : w.Whole) (s : Slot) :
    w.freeSlots.count s + w.leased.count s + w.bare.count s + w.inbound.count s +
      w.losses.forfeited.count s ≤ 1 := by
  have hplaces := (places_perm w).nodup_iff.2 hw.partition.nodup
  have hcount := List.nodup_iff_count_le_one.1 hplaces s
  have hheld := (heldSlots_perm w).count_eq s
  have hinbound := w.inbound_sublist.count_le s
  simp only [places, List.count_append] at hcount hheld
  omega

/-- What a step does to slots on their way from leases to the free stack. -/
structure Conveys (w w' : World ε) : Prop where
  leased : ∀ s ∈ w.leased, s ∈ w'.leased ∨ s ∈ w'.bare ∨ s ∈ w'.inbound
  given : ∀ s ∈ w'.inbound, s ∈ w.inbound ∨ s ∈ w.leased ∨ s ∈ w.bare
  inbound : ∀ s ∈ w.inbound, s ∈ w'.inbound ∨ s ∈ w'.losses.forfeited ∨ s ∈ w'.freeSlots
  kept : w.losses.forfeited ⊆ w'.losses.forfeited
  forfeited : ∀ s ∈ w'.losses.forfeited, s ∈ w.losses.forfeited ∨ s ∈ w.inbound
  /-- What is put on the free stack is counted, or due. -/
  counted : w'.arena.released + w'.unreturned =
    w.arena.released + w.unreturned + (w.inbound.filter (· ∈ w'.freeSlots)).length

theorem not_mem_free {w : World ε} (hw : w.Whole) {s : Slot}
    (hs : s ∈ w.inbound ∨ s ∈ w.losses.forfeited) : s ∉ w.freeSlots := by
  intro hfree
  have hle := hw.count_le s
  rw [← List.count_pos_iff] at hfree
  simp only [← List.count_pos_iff] at hs
  omega

/-- Things and clients are only in another order, or there are more pools and clients. -/
structure Regroups (w w' : World ε) : Prop where
  memory : w'.memory = w.memory
  held : (w'.clients.flatMap Client.held).Perm (w.clients.flatMap Client.held)
  inbound : w'.inbound.Perm w.inbound
  losses : w'.losses = w.losses
  counted : w'.arena.released + w'.unreturned = w.arena.released + w.unreturned

theorem leased_eq (w : World ε) :
    w.leased = ((w.clients.flatMap Client.held).filter fun h => !h.isBare).flatMap fun h =>
      h.slots w.memory := by
  rw [List.filter_flatMap, List.flatMap_assoc]
  rfl

theorem Regroups.mem_leased {w w' : World ε} (h : w.Regroups w') (s : Slot) :
    s ∈ w'.leased ↔ s ∈ w.leased := by
  rw [leased_eq, leased_eq, h.memory]
  exact ((h.held.filter _).flatMap_right _).mem_iff

theorem Regroups.conveys {w w' : World ε} (h : w.Regroups w') (hw' : w'.Whole) : Conveys w w' := by
  refine ⟨fun s hs => Or.inl ((h.mem_leased s).2 hs), fun s hs => Or.inl (h.inbound.subset hs),
    fun s hs => Or.inl (h.inbound.symm.subset hs), ?_, ?_, ?_⟩
  · rw [h.losses]
    exact List.Subset.refl _
  · rw [h.losses]
    exact fun s hs => Or.inl hs
  · have hnone : w.inbound.filter (· ∈ w'.freeSlots) = [] := by
      apply List.filter_eq_nil_iff.2
      intro s hs
      simpa using not_mem_free hw' (Or.inl (h.inbound.symm.subset hs))
    rw [hnone, h.counted]
    rfl

theorem regroups_addPool (a : Arena ε) (clients : List Client) (losses : Losses)
    (strategy : Strategy ε) (policy : GrowthPolicy) (backoffMicros : Nat) :
    Regroups ⟨a, clients, losses⟩
      ⟨a.addPool (.fresh strategy policy backoffMicros), clients, losses⟩ := by
  refine ⟨rfl, List.Perm.refl _, List.Perm.refl _, rfl, ?_⟩
  simp [Arena.released, Arena.addPool, Pool.fresh, unreturned]

theorem regroups_join (a : Arena ε) (clients : List Client) (losses : Losses) :
    Regroups ⟨a, clients, losses⟩ ⟨a, {} :: clients, losses⟩ := by
  refine ⟨rfl, List.Perm.refl _, List.Perm.refl _, rfl, ?_⟩
  simp [unreturned, Client.unreturned]

theorem regroups_handOver {a : Arena ε} {clients rest : List Client} {giver taker : Client}
    {kept : List Held} {h : Held} (losses : Losses) (hc : clients.Perm (giver :: taker :: rest))
    (hh : giver.held.Perm (h :: kept)) : Regroups ⟨a, clients, losses⟩
      ⟨a, { giver with held := kept } :: { taker with held := h :: taker.held } :: rest,
        losses⟩ := by
  refine ⟨rfl, ?_, hc.symm.flatMap_right fun k : Client => slotsOf a.memory k.inbound, rfl, ?_⟩
  · refine List.Perm.trans ?_ (hc.symm.flatMap_right Client.held)
    simp only [List.flatMap_cons, ← List.append_assoc]
    apply List.Perm.append_right
    exact List.perm_middle.trans (hh.symm.append_right _)
  · have hsum := (hc.map Client.unreturned).sum_nat
    simp only [unreturned, hsum]
    rfl

section

variable {a a' : Arena ε} {clients rest : List Client} {k k' : Client} {losses new : Losses}

theorem mem_of_client (f : Memory ε → Client → List Slot) (k' : Client)
    (hc : clients.Perm (k :: rest)) (hf : ∀ k₁ ∈ rest, f a'.memory k₁ = f a.memory k₁) (s : Slot) :
    (s ∈ clients.flatMap (f a.memory) ↔ s ∈ f a.memory k ∨ s ∈ rest.flatMap (f a.memory)) ∧
      (s ∈ (k' :: rest).flatMap (f a'.memory) ↔
        s ∈ f a'.memory k' ∨ s ∈ rest.flatMap (f a.memory)) := by
  rw [(hc.flatMap_right _).mem_iff, List.flatMap_cons, List.flatMap_cons, List.flatMap_congr hf,
    List.mem_append, List.mem_append]
  exact ⟨Iff.rfl, Iff.rfl⟩

/-- A slot is with `k`, which becomes `k'`, or with the clients of `others`, which take no step. -/
structure Splits (w w' others : World ε) (k k' : Client) (s : Slot) : Prop where
  leased : s ∈ w.leased ↔ s ∈ k.leased w.memory ∨ s ∈ others.leased
  leased' : s ∈ w'.leased ↔ s ∈ k'.leased w'.memory ∨ s ∈ others.leased
  bare : s ∈ w.bare ↔ s ∈ k.bare w.memory ∨ s ∈ others.bare
  bare' : s ∈ w'.bare ↔ s ∈ k'.bare w'.memory ∨ s ∈ others.bare
  inbound : s ∈ w.inbound ↔ s ∈ slotsOf w.memory k.inbound ∨ s ∈ others.inbound
  inbound' : s ∈ w'.inbound ↔ s ∈ slotsOf w'.memory k'.inbound ∨ s ∈ others.inbound

theorem splits_of_client (hw : Whole ⟨a, clients, losses⟩) (hc : clients.Perm (k :: rest))
    (hk : Client.Step a k a' k' new) (s : Slot) :
    Splits ⟨a, clients, losses⟩ ⟨a', k' :: rest,
      ⟨losses.leaked ++ new.leaked, losses.forfeited ++ new.forfeited⟩⟩
      ⟨a, rest, losses⟩ k k' s := by
  have hsame := (hw.client hc hk).2
  have hheld : ∀ k₁ ∈ rest, ∀ x ∈ k₁.held, x.slots a'.memory = x.slots a.memory := by
    intro k₁ hk₁ x hx
    refine slotsOf_congr fun q hq => hsame q (List.mem_append_left _ ?_)
    refine List.mem_flatMap.2 ⟨k₁, hk₁, List.mem_append_left _ ?_⟩
    exact List.mem_flatMap.2 ⟨x, hx, hq⟩
  have hleased : ∀ k₁ ∈ rest, k₁.leased a'.memory = k₁.leased a.memory := fun k₁ hk₁ =>
    List.flatMap_congr fun x hx => hheld k₁ hk₁ x (List.mem_of_mem_filter hx)
  have hbare : ∀ k₁ ∈ rest, k₁.bare a'.memory = k₁.bare a.memory := fun k₁ hk₁ =>
    List.flatMap_congr fun x hx => hheld k₁ hk₁ x (List.mem_of_mem_filter hx)
  have hinbound : ∀ k₁ ∈ rest, slotsOf a'.memory k₁.inbound = slotsOf a.memory k₁.inbound := by
    refine fun k₁ hk₁ => slotsOf_congr fun q hq => hsame q (List.mem_append_left _ ?_)
    exact List.mem_flatMap.2 ⟨k₁, hk₁, List.mem_append_right _ (k₁.inbound_subset hq)⟩
  obtain ⟨hl, hl'⟩ := mem_of_client Client.leased k' hc hleased s
  obtain ⟨hb, hb'⟩ := mem_of_client Client.bare k' hc hbare s
  obtain ⟨hi, hi'⟩ := mem_of_client (fun m k => slotsOf m k.inbound) k' hc hinbound s
  exact ⟨hl, hl', hb, hb', hi, hi'⟩

theorem client_conveys {returned : List Slot} {w w' others : World ε} (hw : w.Whole)
    (hw' : w'.Whole) (hs : ∀ s, Splits w w' others k k' s)
    (hl : w'.losses.forfeited = w.losses.forfeited ++ new.forfeited)
    (hu : w.unreturned = k.unreturned + others.unreturned ∧
      w'.unreturned = k'.unreturned + others.unreturned)
    (h : Client.Conveys w.arena w'.arena k k' new returned) : Conveys w w' := by
  have hgone : ∀ s, s ∈ new.forfeited ∨ s ∈ returned → s ∈ w.inbound := fun s hs' =>
    (hs s).inbound.2 (Or.inl (h.gone (List.mem_append.2 hs')))
  have hfree : ∀ s, s ∈ returned → s ∈ w'.freeSlots := fun s hs => by
    rw [← freeSlots_eq]
    exact h.free hs
  have hfound : ∀ s ∈ w.inbound, s ∈ w'.inbound ∨ s ∈ new.forfeited ∨ s ∈ returned := by
    intro s hs'
    rcases (hs s).inbound.1 hs' with hs' | hs'
    · exact (h.inbound s hs').imp_left fun hs' => (hs s).inbound'.2 (Or.inl hs')
    · exact Or.inl ((hs s).inbound'.2 (Or.inr hs'))
  refine ⟨fun s hs' => ?_, fun s hs' => ?_, fun s hs' => ?_, ?_, fun s hs' => ?_, ?_⟩
  · rw [(hs s).leased', (hs s).bare', (hs s).inbound']
    rcases (hs s).leased.1 hs' with hs' | hs'
    · exact (h.leased s hs').imp Or.inl (Or.imp Or.inl Or.inl)
    · exact Or.inl (Or.inr hs')
  · rw [(hs s).leased, (hs s).bare, (hs s).inbound]
    rcases (hs s).inbound'.1 hs' with hs' | hs'
    · exact (h.given s hs').imp Or.inl (Or.imp Or.inl Or.inl)
    · exact Or.inl (Or.inr hs')
  · rw [hl]
    exact (hfound s hs').imp_right (Or.imp (List.mem_append_right _) (hfree s))
  · rw [hl]
    exact List.subset_append_left _ _
  · rw [hl] at hs'
    exact (List.mem_append.1 hs').imp_right fun hs' => hgone s (Or.inl hs')
  · have hnodup : w.inbound.Nodup := List.nodup_iff_count_le_one.2 fun s => by
      have hle := hw.count_le s
      omega
    have hreturned : (w.inbound.filter (· ∈ w'.freeSlots)).Perm returned := by
      apply (List.perm_ext_iff_of_nodup (hnodup.filter _) h.nodup).2
      intro s
      rw [List.mem_filter, decide_eq_true_eq]
      constructor
      · rintro ⟨hs', hfree'⟩
        rcases hfound s hs' with hs' | hs' | hs'
        · exact absurd hfree' (not_mem_free hw' (Or.inl hs'))
        · refine absurd hfree' (not_mem_free hw' (Or.inr ?_))
          rw [hl]
          exact List.mem_append_right _ hs'
        · exact hs'
      · exact fun hs' => ⟨hgone s (Or.inr hs'), hfree s hs'⟩
    have hcounted := h.counted
    rw [hu.1, hu.2, hreturned.length_eq]
    omega

end

theorem step_conveys {w w' : World ε} (h : w.Reachable) (hs : w.Step w') : Conveys w w' := by
  have hw := whole_of_reachable h
  have ht := tended_of_reachable h
  have hw' := whole_of_reachable (h.step hs)
  cases hs with
  | client a a' clients rest k k' losses new hc hk =>
    have hmem : k ∈ clients := hc.mem_iff.2 List.mem_cons_self
    obtain ⟨returned, hconveys⟩ := Client.step_conveys (ht.clients k hmem) (hw.known k hmem)
      (hw.partition.of_perm (pieces_perm hc)) hk
    have hsum := (hc.map Client.unreturned).sum_nat
    exact client_conveys hw hw' (splits_of_client hw hc hk) rfl ⟨hsum, rfl⟩ hconveys
  | addPool a clients losses strategy policy backoffMicros =>
    exact (regroups_addPool a clients losses strategy policy backoffMicros).conveys hw'
  | join a clients losses => exact (regroups_join a clients losses).conveys hw'
  | handOver a clients rest giver taker kept h losses hc hh =>
    exact (regroups_handOver losses hc hh).conveys hw'

end World

end SlotPool
