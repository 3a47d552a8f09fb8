import SlotPool.Proofs.Ownership

/-!
# One client among others

`World.Has` says that in some reachable world there is a client that holds such things and is in
such a call. Each step that the client can take leads to another such world.
-/

namespace SlotPool

open Memory

variable {ε : Type} {rest : List Client} {a a' : Arena ε} {held held' : List Held}
  {call call' : Option (PoolId × Call)}

/-! ## A client among others -/

/-- The call that disposes of a thing, if one is needed. -/
def Disposal.call? : Disposal → Option (PoolId × Call)
  | .call id c => some (id, c)
  | _ => none

namespace World

/-- A reachable world has such a client beside the others. -/
def Has (rest : List Client) (a : Arena ε) (held : List Held) (call : Option (PoolId × Call)) :
    Prop :=
  ∃ l clients losses, Reachable ⟨a, clients, losses⟩ ∧ clients.Perm (⟨l, call⟩ :: rest) ∧
    l.Perm held

namespace Has

theorem perm (h : Has rest a held call) (hp : held.Perm held') : Has rest a held' call := by
  obtain ⟨l, clients, losses, hr, hc, hl⟩ := h
  exact ⟨l, clients, losses, hr, hc, hl.trans hp⟩

theorem step (h : Has rest a held call) (hs : ∀ l, l.Perm held → ∃ l' new,
    Client.Step a ⟨l, call⟩ a' ⟨l', call'⟩ new ∧ l'.Perm held') : Has rest a' held' call' := by
  obtain ⟨l, clients, losses, hr, hc, hl⟩ := h
  obtain ⟨l', new, hstep, hl'⟩ := hs l hl
  exact ⟨l', _, _, hr.step (.client a a' clients rest _ _ losses new hc hstep), List.Perm.refl _,
    hl'⟩

theorem known (h : Has rest a held call) {x : Held} (hx : x ∈ held) {id : PoolId}
    (hid : x.pool? = some id) : a.HasPool id := by
  obtain ⟨l, clients, losses, hr, hc, hl⟩ := h
  exact ((whole_of_reachable hr).known _ (hc.mem_iff.2 List.mem_cons_self)).held x
    (hl.mem_iff.2 hx) id hid

theorem exists_partition (h : Has rest a held call) {x : Held} (hx : x ∈ held) :
    ∃ ps, Partition a.memory ps ∧ x.pieces ⊆ ps := by
  obtain ⟨l, clients, losses, hr, hc, hl⟩ := h
  refine ⟨_, (whole_of_reachable hr).partition, fun q hq => ?_⟩
  refine List.mem_append_right _ (List.mem_append_left _ ?_)
  refine List.mem_flatMap.2 ⟨⟨l, call⟩, ?_, ?_⟩
  · exact hc.mem_iff.2 List.mem_cons_self
  · exact List.mem_append_left _ (List.mem_flatMap.2 ⟨x, hl.mem_iff.2 hx, hq⟩)

theorem sound (h : Has rest a held call) {x : Held} (hx : x ∈ held) :
    ∀ q ∈ x.pieces, q.Sound a.memory := by
  obtain ⟨ps, hps, hsub⟩ := h.exists_partition hx
  exact fun q hq => hps.sound q (hsub hq)

theorem lt_size (h : Has rest a held call) {x : Held} (hx : x ∈ held) {s : Slot}
    (hs : s ∈ x.slots a.memory) : s.index < a.memory.size := by
  obtain ⟨ps, hps, hsub⟩ := h.exists_partition hx
  exact hps.lt_size s (mem_slotsOf_of_subset hsub hs)

theorem vetted (h : Has rest a held call) {x : Held} (hx : x ∈ held) : x.Vetted a.memory := by
  obtain ⟨l, clients, losses, hr, hc, hl⟩ := h
  exact ((tended_of_reachable hr).clients _ (hc.mem_iff.2 List.mem_cons_self)).held x
    (hl.mem_iff.2 hx)

theorem owned (h : Has rest a held call) {x : Held} (hx : x ∈ held) (hb : x.isBare = false)
    {s : Slot} (hs : s ∈ x.slots a.memory) :
    ∃ id, x.pool? = some id ∧ a.memory.owner? s = some id := by
  obtain ⟨id, hid⟩ := owner?_ne_none (h.lt_size hx hs)
  exact ⟨id, (h.vetted hx hb s hs).symm.trans hid, hid⟩

theorem move {m : Memory ε} {before after : List Held} (h : Has rest a (before ++ held) none)
    (hm : Moves a.HasPool a.memory before m after) :
    Has rest { a with memory := m } (after ++ held) none :=
  h.step fun l hl => ⟨_, _, .move a l before after held m hl hm, List.Perm.refl _⟩

theorem ask (h : Has rest a held none) {id : PoolId} {p : Pool ε} (hp : a.pool? id = some p)
    {c : Call} (hc : c.IsRequest) : Has rest a held (some (id, c)) :=
  h.step fun l hl => ⟨l, _, .ask a l id p c hp hc, hl⟩

theorem give {x : Held} (h : Has rest a (x :: held) none) {id : PoolId} {p : Pool ε}
    (hp : a.pool? id = some p) {kind : HeldKind} {c : Call}
    (hc : Session.returning kind x = some (some c)) : Has rest a held (some (id, c)) :=
  h.step fun l hl => ⟨_, _, .give a l held x kind id p c hl hp hc, List.Perm.refl _⟩

theorem run {id : PoolId} {c : Call} (h : Has rest a held (some (id, c))) (granted : Bool)
    (hc : c.outcome? = none) :
    Has rest (a.step id granted c).1 held (some (id, (a.step id granted c).2)) :=
  h.step fun l hl => ⟨l, _, .run a _ l id granted c _ hc rfl, hl⟩

theorem exists_pool {id : PoolId} {c : Call} (h : Has rest a held (some (id, c))) :
    a.HasPool id := by
  obtain ⟨l, clients, losses, hr, hc, hl⟩ := h
  exact ((whole_of_reachable hr).known _ (hc.mem_iff.2 List.mem_cons_self)).call id c rfl

theorem laid (h : Has rest a held call) : a.memory.Laid := by
  obtain ⟨l, clients, losses, hr, hc, hl⟩ := h
  exact (tended_of_reachable hr).arena.laid

theorem exists_call_partition {id : PoolId} {c : Call} (h : Has rest a held (some (id, c))) :
    ∃ frame, Partition a.memory ((a.free ++ c.pieces) ++ frame) := by
  obtain ⟨l, clients, losses, hr, hperm, hl⟩ := h
  have hpart : Partition a.memory _ := (whole_of_reachable hr).partition.of_perm (pieces_perm hperm)
  exact ⟨_, Client.call_partition hpart⟩

/-- What a step breaks a rule with was given to the call by its caller. -/
theorem objects_of_run {id : PoolId} {c : Call} {v : Violation}
    (h : Has rest a held (some (id, c))) (granted : Bool) (hc : c.outcome? = none)
    (hv : (a.step id granted c).2.Objects (a.step id granted c).1.memory id v) :
    c.Objects a.memory id v := by
  obtain ⟨p, hp⟩ := h.exists_pool
  obtain ⟨p', e, hstep, -⟩ := Arena.step_eq hp rfl
  obtain ⟨others, hfree, -⟩ := Arena.free_perm hp
  obtain ⟨frame, hpart⟩ := h.exists_call_partition
  exact Call.step_objects (Arena.local_partition hfree hpart) hc hstep hv

theorem receive {id : PoolId} {slots : Grant}
    (h : Has rest a held (some (id, .finished (.acquired slots)))) {leased : Bool} {x : Held}
    (hx : Session.heldOf a.memory id leased slots = .ok x) : Has rest a (x :: held) none :=
  h.step fun l hl => ⟨_, _, .receive a l id slots leased x hx, hl.cons x⟩

theorem finish {id : PoolId} {o : Outcome} (h : Has rest a held (some (id, .finished o)))
    (ho : ∀ slots, o ≠ .acquired slots) : Has rest a held none :=
  h.step fun l hl => ⟨_, _, .finish a l id o ho, hl⟩

theorem lose {x : Held} (h : Has rest a (x :: held) none) (hx : ∀ id c, x.dropped ≠ .call id c) :
    Has rest a held none := by
  apply h.step
  intro l hl
  cases hb : x.isBare with
  | false => exact ⟨held, _, .expire a l held x hl hb hx, List.Perm.refl _⟩
  | true => exact ⟨held, _, .leak a l held x hl hb, List.Perm.refl _⟩

theorem drop {x : Held} (h : Has rest a (x :: held) none) :
    Has rest a held x.dropped.call? := by
  cases hd : x.dropped with
  | call id c =>
    obtain ⟨-, -, hpool⟩ := givenBy_of_dropped hd
    obtain ⟨p, hp⟩ := h.known List.mem_cons_self hpool
    exact h.step fun l hl => ⟨held, _, .drop a l held x id p c hl hp hd, List.Perm.refl _⟩
  | nothing => exact h.lose fun id c hcall => by simp [hd] at hcall
  | violation v => exact h.lose fun id c hcall => by simp [hd] at hcall

theorem makeEmpty (h : Has rest a held none) (kind : HeldKind) {x : Held}
    (hx : Session.emptyOf kind = some x) : Has rest a (x :: held) none :=
  h.move (.makeEmpty a.memory kind x hx)

theorem reset {x : Held} (h : Has rest a (x :: held) none) (hb : x.isBare = false) :
    Has rest a (x.emptied :: held) x.dropped.call? := by
  have hcall : ∀ id c, x.dropped = .call id c →
      Has rest a (x.emptied :: held) (some (id, c)) := by
    intro id c hd
    obtain ⟨-, -, hpool⟩ := givenBy_of_dropped hd
    obtain ⟨p, hp⟩ := h.known List.mem_cons_self hpool
    exact h.step fun l hl => ⟨_, _, .reset a l held x id p c hl hp hd, List.Perm.refl _⟩
  have hlose : (∀ id c, x.dropped ≠ .call id c) → Has rest a (x.emptied :: held) none := by
    intro hd
    have hnone := h.lose hd
    cases x with
    | slot s => simp [Held.isBare] at hb
    | stack st => simp [Held.isBare] at hb
    | lease l =>
      obtain ⟨slot, pool⟩ := l
      cases slot with
      | none => exact h
      | some s =>
        cases pool with
        | none => exact hnone.makeEmpty .lease rfl
        | some id => exact absurd rfl (hd id (.cleanOne s))
    | leaseStack l =>
      obtain ⟨st, pool⟩ := l
      cases pool with
      | none => exact hnone.makeEmpty .leaseStack rfl
      | some id =>
        have hid : a.HasPool id := h.known (x := .leaseStack ⟨st, some id⟩) (by simp) rfl
        exact hnone.move (.makeLeaseStack a.memory id hid)
  cases hd : x.dropped with
  | call id c => exact hcall id c hd
  | nothing => exact hlose fun id c hc => by simp [hd] at hc
  | violation v => exact hlose fun id c hc => by simp [hd] at hc

end Has

end World

/-! ## Registers -/

namespace Registers

def things (rs : Registers) : List Held := rs.map Prod.snd

def Distinct (rs : Registers) : Prop := (rs.map Prod.fst).Nodup

variable {rs : Registers} {name : String} {h : Held}

theorem get?_cons (n : String) (x : Held) (rs : Registers) (name : String) :
    get? ((n, x) :: rs) name = if n = name then some x else get? rs name := by
  rw [get?, List.lookup_cons, get?]
  by_cases hn : n = name
  · simp [hn]
  · have hne : (name == n) = false := by simpa using Ne.symm hn
    simp [hn, hne]

theorem remove_cons (n : String) (x : Held) (rs : Registers) (name : String) :
    remove ((n, x) :: rs) name = if n = name then rs.remove name else (n, x) :: rs.remove name := by
  rw [remove, List.filter_cons, remove]
  by_cases hn : n = name <;> simp [hn]

theorem remove_of_not_mem (hn : name ∉ rs.map Prod.fst) : rs.remove name = rs := by
  apply List.filter_eq_self.2
  intro r hr
  have hne : r.1 ≠ name := fun he => hn (List.mem_map.2 ⟨r, hr, he⟩)
  simpa using hne

theorem Distinct.remove (hd : rs.Distinct) (name : String) : (rs.remove name).Distinct :=
  hd.sublist (List.filter_sublist.map Prod.fst)

theorem Distinct.store (hd : rs.Distinct) (name : String) (h : Held) :
    (rs.store name h).Distinct := by
  refine List.nodup_cons.2 ⟨?_, hd.remove name⟩
  simp [Registers.remove]

theorem remove_of_get? (hg : rs.get? name = none) : rs.remove name = rs := by
  induction rs with
  | nil => rfl
  | cons r rs ih =>
    obtain ⟨n, x⟩ := r
    rw [get?_cons] at hg
    split at hg
    · simp at hg
    · rename_i hn
      rw [remove_cons, if_neg hn, ih hg]

theorem get?_remove_self (rs : Registers) (name : String) : (rs.remove name).get? name = none := by
  induction rs with
  | nil => rfl
  | cons r rs ih =>
    obtain ⟨n, x⟩ := r
    rw [remove_cons]
    split
    · exact ih
    · rename_i hn
      rw [get?_cons, if_neg hn, ih]

theorem things_perm (hd : rs.Distinct) (hg : rs.get? name = some h) :
    rs.things.Perm (h :: (rs.remove name).things) := by
  induction rs with
  | nil => simp [get?] at hg
  | cons r rs ih =>
    obtain ⟨n, x⟩ := r
    obtain ⟨hn, hd⟩ := List.nodup_cons.1 hd
    rw [get?_cons] at hg
    rw [remove_cons]
    split at hg
    · rename_i he
      subst he
      obtain rfl : x = h := Option.some.inj hg
      rw [if_pos rfl, remove_of_not_mem hn]
      exact List.Perm.refl _
    · rename_i hne
      rw [if_neg hne]
      exact ((ih hd hg).cons x).trans (List.Perm.swap h x _)

theorem get?_remove_of_ne {other : String} (hne : other ≠ name) (rs : Registers) :
    (rs.remove name).get? other = rs.get? other := by
  induction rs with
  | nil => rfl
  | cons r rs ih =>
    obtain ⟨n, x⟩ := r
    rw [remove_cons, get?_cons]
    split
    · rename_i hn
      rw [if_neg (by rintro rfl; exact hne hn), ih]
    · rw [get?_cons, ih]

end Registers

end SlotPool
