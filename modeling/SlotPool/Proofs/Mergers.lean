import SlotPool.Proofs.Misplaced
import SlotPool.Proofs.Refills

/-!
# Merging leases is all or nothing

A lease is merged into a stack under a lease unless both have pools and these are different. If it
is merged, all of its slots go over, and no pool notices. If not, all of them go back to their pool,
and the stack is as before.
-/

namespace SlotPool

open Memory

variable {ε : Type} {rest : List Client} {a : Arena ε} {held : List Held} {id own other : PoolId}
  {p : Pool ε} {m : Memory ε} {x : Held} {l : LeaseStack}

/-! ## The pool of both -/

/-- The leases have no pools that are different. -/
def LeaseStack.Fits (l : LeaseStack) (source : Option PoolId) : Prop :=
  ∀ own other, source = some own → l.pool = some other → own = other

theorem LeaseStack.Fits.adopt_eq {source : Option PoolId} (h : l.Fits source) :
    l.adopt source = .ok { l with pool := l.pool.or source } := by
  obtain ⟨stack, pool⟩ := l
  cases source with
  | none => simp [adopt]
  | some own =>
    cases pool with
    | none => rfl
    | some other =>
      obtain rfl : own = other := h own other rfl rfl
      simp [adopt]

theorem LeaseStack.adopt_eq_error (hx : x.pool? = some own) (hl : l.pool = some other)
    (hne : own ≠ other) : l.adopt x.pool? = .error (.crossMerge own other) := by
  simp [adopt, hx, hl, Ne.symm hne]

/-! ## Putting slots into a stack under a lease -/

/-- The stack under the lease `l` has got what `x` held, and these are its slots now. -/
structure Joined (m : Memory ε) (l : LeaseStack) (x : Held) (contents : List Slot)
    (out : Memory ε × LeaseStack) : Prop where
  stack : out.2.stack.Spans out.1 contents
  pool : out.2.pool = l.pool
  relinks : Relinks m out.1 (x.slots m ++ l.stack.slots m)

section

variable (hl : l.stack.Spans m (l.stack.slots m)) (hsound : ∀ q ∈ x.pieces, q.Sound m)
  (hlt : ∀ s ∈ x.slots m, s.index < m.size) (hd : (x.slots m).Disjoint (l.stack.slots m))

include hl hlt hd in
theorem LeaseStack.pushLease_joined {one : Lease} (hx : x = .lease one) :
    Joined m l x (x.slots m ++ l.stack.slots m) (l.pushLease m one) := by
  subst hx
  obtain ⟨slot, pool⟩ := one
  cases slot with
  | none => exact ⟨hl, rfl, Relinks.refl m _⟩
  | some s =>
    have hslots : (Held.lease ⟨some s, pool⟩).slots m = [s] := rfl
    rw [hslots] at hlt hd ⊢
    constructor
    · exact Stack.push_spans hl (hlt s (by simp)) (hd (by simp))
    · rfl
    · exact (Stack.push_relinks m l.stack s).mono (by simp [hslots])

include hl hsound hd in
theorem LeaseStack.append_joined {more : LeaseStack} (hx : x = .leaseStack more) :
    Joined m l x (x.slots m ++ l.stack.slots m) (l.append m more) := by
  subst hx
  have hslots : (Held.leaseStack more).slots m = more.stack.slots m := by
    simp [Held.slots, Held.pieces]
  have hmore : more.stack.Spans m (more.stack.slots m) :=
    hsound (.chain more.stack) (by simp [Held.pieces])
  rw [hslots] at hd ⊢
  constructor
  · exact Stack.append_spans hl hmore hd
  · rfl
  · exact (Stack.append_relinks l.stack hmore).mono (by simp [hslots])

/-- The slot of a lease, if it has one, at its place among `l`. -/
def Stack.placed (order : Array ε → Array ε → Ordering) (m : Memory ε) :
    List Slot → List Slot → List Slot
  | [s], l => insertBefore (fun t => decide (order (m.value s) (m.value t) = .lt)) s l
  | k, l => k ++ l

include hl hlt hd in
theorem LeaseStack.insertLease_joined {one : Lease} (hx : x = .lease one)
    (order : Array ε → Array ε → Ordering) :
    Joined m l x (Stack.placed order m (x.slots m) (l.stack.slots m))
      (l.insertLease order m one) := by
  subst hx
  obtain ⟨slot, pool⟩ := one
  cases slot with
  | none => exact ⟨hl, rfl, Relinks.refl m _⟩
  | some s =>
    have hslots : (Held.lease ⟨some s, pool⟩).slots m = [s] := rfl
    rw [hslots] at hlt hd ⊢
    constructor
    · exact Stack.insert_spans order hl (hlt s (by simp)) (hd (by simp))
    · rfl
    · exact Stack.insert_relinks order s hl

end

/-! ## What is dropped -/

theorem World.Has.disposed_refilled (h : Has rest a (x :: held) none) (hb : x.isBare = false)
    (hx : x.pool? = some own) (allocator : Allocator) :
    ∃ p p', a.pool? own = some p ∧ (a.disposed allocator x.dropped).pool? own = some p' ∧
      Refilled own p a.memory (x.slots a.memory) p' (a.disposed allocator x.dropped).memory ∧
      ∀ other, other ≠ own → (a.disposed allocator x.dropped).pool? other = a.pool? other := by
  obtain ⟨p, hp⟩ := h.known List.mem_cons_self hx
  have htakes := h.takes hp fun s hs => (h.vetted List.mem_cons_self hb s hs).trans hx
  have hsound := h.sound List.mem_cons_self
  cases x with
  | slot s => simp [Held.isBare] at hb
  | stack st => simp [Held.isBare] at hb
  | lease one =>
    obtain ⟨slot, pool⟩ := one
    obtain rfl : pool = some own := hx
    cases slot with
    | none => exact ⟨p, p, hp, hp, Refilled.refl htakes.toReady, fun _ _ => rfl⟩
    | some s =>
      obtain ⟨a', p', hdone, hrefilled⟩ := exists_refilled_one hp htakes allocator
      obtain ⟨made, hover⟩ := hdone.ended
      have hdisposed : a.disposed allocator (Held.lease ⟨some s, some own⟩).dropped = a' := by
        simp only [Held.dropped, Lease.dropped, Arena.disposed, hover]
      rw [hdisposed]
      exact ⟨p, p', hp, hdone.pool, hrefilled, hdone.others⟩
  | leaseStack more =>
    obtain ⟨st, pool⟩ := more
    obtain rfl : pool = some own := hx
    have hslots : (Held.leaseStack ⟨st, some own⟩).slots a.memory = st.slots a.memory := by
      simp [Held.slots, Held.pieces]
    have hst : st.Spans a.memory (st.slots a.memory) :=
      hsound (.chain st) (by simp [Held.pieces])
    rw [hslots] at htakes ⊢
    cases hempty : st.isEmpty with
    | true =>
      have hnone := hst.isEmpty_iff.1 hempty
      have hdropped : (Held.leaseStack ⟨st, some own⟩).dropped = .nothing := by
        simp only [Held.dropped, LeaseStack.dropped, hempty, if_true]
      rw [hnone, hdropped]
      exact ⟨p, p, hp, hp, Refilled.refl htakes.toReady, fun _ _ => rfl⟩
    | false =>
      obtain ⟨a', p', hdone, hrefilled⟩ := exists_refilled_many hp hst htakes allocator
      obtain ⟨made, hover⟩ := hdone.ended
      have hdisposed :
          a.disposed allocator (Held.leaseStack ⟨st, some own⟩).dropped = a' := by
        simp [Held.dropped, LeaseStack.dropped, hempty, Arena.disposed, hover]
      rw [hdisposed]
      exact ⟨p, p', hp, hdone.pool, hrefilled, hdone.others⟩

/-! ## What a client does to merge -/

namespace Session

/-- Moves what is in `b` to its place in `a`, in any order. -/
def insertBy (order : Array ε → Array ε → Ordering) (s : Session ε) (a b : Place) :
    Session ε × Execution ε :=
  s.merging a b fun s a target source =>
    match target, source with
    | .stack st, .slot sl =>
      let (s, st) := s.withMemory fun m => st.insert order m sl
      (s.update a (.stack st), .done)
    | .leaseStack l, .lease other =>
      s.mergeLease a l other.pool other.dropped fun l m => l.insertLease order m other
    | _, source => s.refuseDropping .wrongKind source

theorem start_insert (s : Session ε) (a b : Place) (cmp : Comparison) :
    s.start (.insert a b cmp) = s.insertBy (s.item.compare cmp) a b := by
  show s.insert a b cmp = s.insertBy (s.item.compare cmp) a b
  unfold insert insertBy merging taking
  cases s.find b <;> rfl

/-- By `op` a client merges the lease `x`, which is in the register `source`, into the stack under a
lease in the register `target`. `place` says where its slots are to be. -/
inductive Merges (target source : String) : Held → (Session ε → Session ε × Execution ε) →
    (Memory ε → List Slot → List Slot → List Slot) → Prop where
  | push {x : Held} (hb : x.isBare = false) :
      Merges target source x (start · (.push (some target) (some source))) fun _ k l => k ++ l
  | insert (one : Lease) (order : Array ε → Array ε → Ordering) :
      Merges target source (.lease one) (insertBy order · (some target) (some source))
        (Stack.placed order)

/-- What comes of `op` while nothing else happens. -/
def carryOut (allocator : Allocator) (s : Session ε) (op : Session ε → Session ε × Execution ε) :
    Session ε × Except Failure (Reply ε) :=
  (op s).1.complete allocator (op s).2

theorem perform_eq (allocator : Allocator) (s : Session ε) (c : Command ε) :
    s.perform allocator c = s.carryOut allocator (start · c) := rfl

/-- The lease `x` was merged into the stack under the lease `l`, whose slots are `contents` now. No
pool is changed, so that nothing was given back. -/
structure Merged (s s' : Session ε) (target source : String) (l : LeaseStack) (x : Held)
    (contents : List Slot) : Prop where
  kept : ∃ l', s'.registers.get? target = some (.leaseStack l') ∧
    l'.stack.Spans s'.memory contents ∧ l'.pool = l.pool.or x.pool?
  gone : s'.registers.get? source = none
  others : ∀ name, name ≠ target → name ≠ source →
    s'.registers.get? name = s.registers.get? name
  pools : s'.arena.pools = s.arena.pools
  free : ∀ id p, s.arena.pool? id = some p → p.free.slots s'.memory = p.free.slots s.memory
  value : ∀ sl, s'.memory.value sl = s.memory.value sl

/-- The lease `x` of the pool `own` was not merged into the stack under the lease `l`. It has given
all of its slots back, and the stack and all other pools are as they were. -/
structure Unmerged (s s' : Session ε) (target source : String) (l : LeaseStack) (x : Held)
    (own : PoolId) : Prop where
  kept : s'.registers.get? target = some (.leaseStack l)
  contents : l.stack.Spans s'.memory (l.stack.slots s.memory)
  gone : s'.registers.get? source = none
  others : ∀ name, name ≠ source → s'.registers.get? name = s.registers.get? name
  given : ∃ p p', s.arena.pool? own = some p ∧ s'.arena.pool? own = some p' ∧
    Refilled own p s.memory (x.slots s.memory) p' s'.memory
  untouched : ∀ id p, id ≠ own → s.arena.pool? id = some p →
    s'.arena.pool? id = some p ∧ p.free.slots s'.memory = p.free.slots s.memory
  value : ∀ sl, sl ∉ x.slots s.memory → s'.memory.value sl = s.memory.value sl

variable {s : Session ε} {target source : String} {op : Session ε → Session ε × Execution ε}
  {place : Memory ε → List Slot → List Slot → List Slot}

theorem Merges.not_bare (hm : Merges target source x op place) : x.isBare = false := by
  cases hm with
  | push hb => exact hb
  | insert one order => rfl

theorem Merges.exists_join (hm : Merges target source x op place) (hne : target ≠ source)
    (ht : s.registers.get? target = some (.leaseStack l))
    (hx : s.registers.get? source = some x) :
    ∃ join : LeaseStack → Memory ε → Memory ε × LeaseStack,
      op s = mergeLease { s with registers := s.registers.remove source } target l x.pool?
        x.dropped join ∧
      ∀ l' : LeaseStack, l'.stack.Spans s.memory (l'.stack.slots s.memory) →
        (∀ q ∈ x.pieces, q.Sound s.memory) →
        (∀ sl ∈ x.slots s.memory, sl.index < s.memory.size) →
        (x.slots s.memory).Disjoint (l'.stack.slots s.memory) →
        Joined s.memory l' x (place s.memory (x.slots s.memory) (l'.stack.slots s.memory))
          (join l' s.memory) := by
  have ht' : (s.registers.remove source).get? target = some (.leaseStack l) := by
    rw [Registers.get?_remove_of_ne hne, ht]
  cases hm with
  | push hb =>
    cases x with
    | slot sl => simp [Held.isBare] at hb
    | stack st => simp [Held.isBare] at hb
    | lease one =>
      refine ⟨fun l m => l.pushLease m one, ?_, fun l' hl _ hlt hd => ?_⟩
      · simp only [Session.start, Session.push, Session.merging, Session.taking, find, hx, ht']
        rfl
      · exact LeaseStack.pushLease_joined hl hlt hd rfl
    | leaseStack more =>
      refine ⟨fun l m => l.append m more, ?_, fun l' hl hsound _ hd => ?_⟩
      · simp only [Session.start, Session.push, Session.merging, Session.taking, find, hx, ht']
        rfl
      · exact LeaseStack.append_joined hl hsound hd rfl
  | insert one order =>
    refine ⟨fun l m => l.insertLease order m one, ?_, fun l' hl _ hlt hd => ?_⟩
    · simp only [insertBy, Session.merging, Session.taking, find, hx, ht']
      rfl
    · exact LeaseStack.insertLease_joined hl hlt hd rfl order

theorem Holds.out_both (h : Holds rest s []) (hne : target ≠ source)
    (ht : s.registers.get? target = some (.leaseStack l))
    (hx : s.registers.get? source = some x) : World.Has rest s.arena
      (x :: .leaseStack l :: ((s.registers.remove source).remove target).things) none := by
  have ht' : (s.registers.remove source).get? target = some (.leaseStack l) := by
    rw [Registers.get?_remove_of_ne hne, ht]
  exact (h.out hx).perm ((Registers.things_perm (h.distinct.remove source) ht').cons x)

theorem Holds.merges (h : Holds rest s []) (hne : target ≠ source)
    (ht : s.registers.get? target = some (.leaseStack l))
    (hx : s.registers.get? source = some x) (hm : Merges target source x op place)
    (hfits : l.Fits x.pool?) (allocator : Allocator) :
    (op s).2 = .done ∧ ∃ s', s.carryOut allocator op = (s', .ok .done) ∧
      Merged s s' target source l x
        (place s.memory (x.slots s.memory) (l.stack.slots s.memory)) := by
  obtain ⟨join, hstart, hjoin⟩ := hm.exists_join hne ht hx
  have hboth := h.out_both hne ht hx
  have hswap := hboth.perm (List.Perm.swap _ _ _)
  have hslots : (Held.leaseStack l).slots s.memory = l.stack.slots s.memory := by
    simp [Held.slots, Held.pieces]
  have hl : l.stack.Spans s.memory (l.stack.slots s.memory) :=
    hswap.sound List.mem_cons_self (.chain l.stack) (by simp [Held.pieces])
  have hjoined := hjoin { l with pool := l.pool.or x.pool? } hl
    (hboth.sound List.mem_cons_self) (fun sl hs => hboth.lt_size List.mem_cons_self hs)
    (hslots ▸ hboth.apart List.mem_cons_self)
  generalize hout : join { l with pool := l.pool.or x.pool? } s.memory = out at hjoined
  have hdone : op s = (⟨s.item, { s.arena with memory := out.1 },
      (s.registers.remove source).store target (.leaseStack out.2)⟩, .done) := by
    rw [hstart, Session.mergeLease, hfits.adopt_eq, ← hout]
    rfl
  refine ⟨by rw [hdone], _, by rw [carryOut, hdone]; rfl, ?_⟩
  constructor
  · refine ⟨out.2, ?_, hjoined.stack, hjoined.pool⟩
    rw [Registers.get?_store, if_pos rfl]
  · rw [Registers.get?_store, if_neg hne, Registers.get?_remove_self]
  · intro name hname hname'
    rw [Registers.get?_store, if_neg (Ne.symm hname), Registers.get?_remove_of_ne hname']
  · rfl
  · intro id p hp
    have hapart : (p.free.slots s.memory).Disjoint
        (x.slots s.memory ++ l.stack.slots s.memory) := by
      rw [List.disjoint_append_right]
      exact ⟨List.disjoint_symm (hboth.apart_free hp),
        List.disjoint_symm (hslots ▸ hswap.apart_free hp)⟩
    exact ((hboth.free_sound hp).frame hjoined.relinks hapart).slots_eq
  · exact value_of_unlinked hjoined.relinks.unlinked

theorem Holds.refuses_merge (h : Holds rest s []) (hne : target ≠ source)
    (ht : s.registers.get? target = some (.leaseStack l))
    (hx : s.registers.get? source = some x) (hm : Merges target source x op place)
    (hown : x.pool? = some own) (hother : l.pool = some other) (hdiff : own ≠ other)
    (allocator : Allocator) :
    ∃ s', s.carryOut allocator op = (s', .error (.violation (.crossMerge own other))) ∧
      Unmerged s s' target source l x own := by
  obtain ⟨join, hstart, -⟩ := hm.exists_join hne ht hx
  have hboth := h.out_both hne ht hx
  have hswap := hboth.perm (List.Perm.swap _ _ _)
  have hslots : (Held.leaseStack l).slots s.memory = l.stack.slots s.memory := by
    simp [Held.slots, Held.pieces]
  have hl : l.stack.Spans s.memory (l.stack.slots s.memory) :=
    hswap.sound List.mem_cons_self (.chain l.stack) (by simp [Held.pieces])
  have hdropped : op s = ({ s with registers := s.registers.remove source },
      .disposing x.dropped (.error (.violation (.crossMerge own other)))) := by
    rw [hstart, Session.mergeLease, LeaseStack.adopt_eq_error hown hother hdiff]
  have hdone := complete_dropped (s := { s with registers := s.registers.remove source })
    hboth.drop (hboth.lawful List.mem_cons_self) allocator
    (.error (.violation (.crossMerge own other)))
  obtain ⟨p, p', hp, hp', hrefilled, hothers⟩ :=
    hboth.disposed_refilled hm.not_bare hown allocator
  refine ⟨_, by rw [carryOut, hdropped]; exact hdone, ?_⟩
  constructor
  · exact (Registers.get?_remove_of_ne hne _).trans ht
  · exact hrefilled.frame hl (List.disjoint_symm (hslots ▸ hboth.apart List.mem_cons_self))
  · exact Registers.get?_remove_self _ source
  · exact fun name hname => Registers.get?_remove_of_ne hname _
  · exact ⟨p, p', hp, hp', hrefilled⟩
  · intro id q hid hq
    refine ⟨(hothers id hid).trans hq, ?_⟩
    exact (hrefilled.frame (hboth.free_sound hq)
      (List.disjoint_symm (hboth.apart_free hq))).slots_eq
  · exact fun sl hs => hrefilled.value hs

/-- Merging is refused just where both leases have pools and these are different. Then all slots of
the lease go back to its pool, and the stack is as before. Otherwise the slots go over to the stack,
which has the pool of both then, and nothing is given back. -/
theorem merge_all_or_nothing (h : Holds rest s []) (hne : target ≠ source)
    (ht : s.registers.get? target = some (.leaseStack l))
    (hx : s.registers.get? source = some x) (hm : Merges target source x op place)
    (allocator : Allocator) :
    ((∃ v, (s.carryOut allocator op).2 = .error (.violation v)) ↔
      ∃ own other, x.pool? = some own ∧ l.pool = some other ∧ own ≠ other) ∧
    (∀ own other, x.pool? = some own → l.pool = some other → own ≠ other →
      ∃ s', s.carryOut allocator op = (s', .error (.violation (.crossMerge own other))) ∧
        Unmerged s s' target source l x own) ∧
    (l.Fits x.pool? → (op s).2 = .done ∧ ∃ s', s.carryOut allocator op = (s', .ok .done) ∧
      Merged s s' target source l x
        (place s.memory (x.slots s.memory) (l.stack.slots s.memory))) := by
  refine ⟨⟨fun ⟨v, hv⟩ => ?_, fun ⟨own, other, hown, hother, hdiff⟩ => ?_⟩,
    fun own other hown hother hdiff => ?_, fun hfits => ?_⟩
  · by_contra hnone
    have hfits : l.Fits x.pool? := fun own other hown hother =>
      by_contra fun hdiff => hnone ⟨own, other, hown, hother, hdiff⟩
    obtain ⟨-, s', hdone, -⟩ := h.merges hne ht hx hm hfits allocator
    rw [hdone] at hv
    simp at hv
  · obtain ⟨s', hdone, -⟩ := h.refuses_merge hne ht hx hm hown hother hdiff allocator
    exact ⟨_, congrArg Prod.snd hdone⟩
  · exact h.refuses_merge hne ht hx hm hown hother hdiff allocator
  · exact h.merges hne ht hx hm hfits allocator

/-! ## Leases of two pools -/

/-- Beside those of `leasingWork` two stacks of two slots each, one of each pool. -/
def mergingWork : List (Command Int) := leasingWork ++ [
  .acquireStack 1 (some 2) true (some "c"), .acquireStack 0 (some 2) true (some "d"),
  .writeEach (some "d") (some [.all 7, .all 9])]

def single : Held := .lease ⟨some ⟨1⟩, some ⟨0⟩⟩

def couple : LeaseStack := ⟨⟨some ⟨7⟩, some ⟨2⟩, 2⟩, some ⟨1⟩⟩

def rising : LeaseStack := ⟨⟨some ⟨9⟩, some ⟨0⟩, 2⟩, some ⟨0⟩⟩

theorem merge_all_or_nothing_single :
    ∃ s, Rests (.number 7) s ∧ s.registers.get? "a" = some single ∧
      s.registers.get? "b" = some three ∧ s.registers.get? "c" = some (.leaseStack couple) ∧
      s.registers.get? "d" = some (.leaseStack rising) ∧
      (∃ s', s.perform granting crossing = (s', .error (.violation (.crossMerge ⟨0⟩ ⟨1⟩))) ∧
        Unmerged s s' "b" "a" ⟨⟨some ⟨5⟩, some ⟨3⟩, 3⟩, some ⟨1⟩⟩ single ⟨0⟩) ∧
      (∃ s', s.perform granting (.push (some "c") (some "b")) = (s', .ok .done) ∧
        Merged s s' "c" "b" couple three [⟨5⟩, ⟨4⟩, ⟨3⟩, ⟨7⟩, ⟨2⟩]) ∧
      ∃ s', s.perform granting (.insert (some "d") (some "a") .ascending) = (s', .ok .done) ∧
        Merged s s' "d" "a" rising single [⟨9⟩, ⟨1⟩, ⟨0⟩] := by
  obtain ⟨s, hrests, hs⟩ := exists_rests (.number 7) granting mergingWork
    (fun s => ((s.registers.get? "a", s.registers.get? "b", s.registers.get? "c",
      s.registers.get? "d"), three.slots s.memory ++ couple.stack.slots s.memory,
      Stack.placed (s.item.compare .ascending) s.memory (single.slots s.memory)
        (rising.stack.slots s.memory)))
    (show _ = some ((some single, some three, some (.leaseStack couple),
        some (.leaseStack rising)), [⟨5⟩, ⟨4⟩, ⟨3⟩, ⟨7⟩, ⟨2⟩], [⟨9⟩, ⟨1⟩, ⟨0⟩]) by
      decide +kernel)
  simp only [Prod.mk.injEq] at hs
  obtain ⟨⟨ha, hb, hc, hd⟩, hfront, hplaced⟩ := hs
  refine ⟨s, hrests, ha, hb, hc, hd, ?_, ?_, ?_⟩
  · obtain ⟨-, hrefused, -⟩ := merge_all_or_nothing hrests.holds (by decide) hb ha (.push rfl)
      granting
    exact hrefused _ _ rfl rfl (by decide)
  · obtain ⟨-, -, hmerged⟩ := merge_all_or_nothing hrests.holds (by decide) hc hb (.push rfl)
      granting
    obtain ⟨-, s', hdone, hmerged⟩ := hmerged (by rintro own other ⟨⟩ ⟨⟩; rfl)
    rw [hfront] at hmerged
    exact ⟨s', hdone, hmerged⟩
  · obtain ⟨-, -, hmerged⟩ := merge_all_or_nothing hrests.holds (by decide) hd ha
      (.insert _ (s.item.compare .ascending)) granting
    obtain ⟨-, s', hdone, hmerged⟩ := hmerged (by rintro own other ⟨⟩ ⟨⟩; rfl)
    rw [hplaced] at hmerged
    rw [perform_eq, carryOut, start_insert]
    exact ⟨s', hdone, hmerged⟩

end Session

end SlotPool
