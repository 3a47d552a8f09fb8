import SlotPool.Proofs.Clients

/-!
# Commands are work of a client

What is in the registers of a session is what a client holds, and the call that a command makes is
the client's. Whatever a command does before its call, a client can do.

`Command.Breaks` says where a command breaks a rule: at the checks that it makes itself, and nowhere
when it drops something.
-/

namespace SlotPool

open Memory

variable {ε : Type} {rest : List Client} {a : Arena ε} {V : Violation → Prop}

theorem Stack.pop_none {m m' : Memory ε} {st st' : Stack} (h : st.pop m = (m', st', none)) :
    m = m' ∧ st = st' := by
  unfold pop at h
  cases hh : st.head with
  | none => simpa [hh] using h
  | some s => simp [hh] at h

theorem LeaseStack.pop_none {m m' : Memory ε} {l l' : LeaseStack}
    (h : l.pop m = (m', l', none)) : m = m' ∧ l = l' := by
  unfold pop at h
  rcases hp : l.stack.pop m with ⟨m₁, st, _ | s⟩
  · obtain ⟨rfl, rfl⟩ := Stack.pop_none hp
    simpa [hp] using h
  · simp [hp] at h

/-! ## Commands -/

namespace Execution

def call? : Execution ε → Option (PoolId × Call)
  | .calling id ⟨c, _⟩ _ => some (id, c)
  | .finished _ => none

theorem call?_disposing (d : Disposal) (answer : Except Failure (Reply ε)) :
    (disposing d answer).call? = d.call? := by
  cases d <;> rfl

/-- The command is answered with the broken rule, or will be when its call has made its checks. -/
def Voices (m : Memory ε) (v : Violation) : Execution ε → Prop
  | .finished answer => answer = .error (.violation v)
  | .calling id ⟨c, _⟩ sequel => c.Objects m id v ∨ sequel = .answer (.error (.violation v))

end Execution

/-- What is dropped breaks no rule, at once or when its slots are checked. -/
def Disposal.Lawful (m : Memory ε) : Disposal → Prop
  | .nothing => True
  | .call id c => ∀ v, ¬ c.Objects m id v
  | .violation _ => False

theorem World.Has.lawful {held : List Held} {call : Option (PoolId × Call)} {x : Held}
    (h : World.Has rest a held call) (hx : x ∈ held) : x.dropped.Lawful a.memory := by
  cases hd : x.dropped with
  | nothing => trivial
  | violation v =>
    obtain ⟨l, rfl, hl, hst⟩ := Held.of_dropped_violation hd
    have hspans : l.stack.Spans a.memory (l.stack.slots a.memory) :=
      h.sound hx (.chain l.stack) (by simp [Held.pieces])
    cases hhead : l.stack.head with
    | none => simp [Stack.isEmpty, hhead] at hst
    | some s =>
      rw [hspans.head] at hhead
      have hs : s ∈ (Held.leaseStack l).slots a.memory := by
        simpa [Held.slots, Held.pieces] using List.mem_of_mem_head? hhead
      obtain ⟨id, hid, -⟩ := h.owned hx rfl hs
      simp [Held.pool?, hl] at hid
  | call id c =>
    obtain ⟨hgiven, hb, hpool⟩ := givenBy_of_dropped hd
    have hc : c.outcome? = none := by cases hgiven <;> rfl
    refine Call.not_objects_of_owned hc fun s hs => ?_
    rw [Call.slots, hgiven.pieces_eq] at hs
    exact (h.vetted hx hb s hs).trans hpool

theorem Disposal.Lawful.of_voices {m : Memory ε} {d : Disposal} (h : d.Lawful m)
    {answer : Except Failure (Reply ε)} {v : Violation}
    (hv : (Execution.disposing d answer).Voices m v) : answer = .error (.violation v) := by
  cases d with
  | nothing => exact hv
  | violation w => exact absurd h id
  | call id c => exact Sequel.answer.inj (hv.resolve_left (h v))

/-- Where a command that is started in `s` breaks a rule. -/
inductive Command.Breaks (s : Session ε) : Command ε → Violation → Prop where
  | newPool {request : PoolRequest} {v : Violation}
      (hp : Session.makePool s.item request = .error (.violation v)) :
      Breaks s (.newPool request) v
  /-- A slot is given back to a pool that did not provide it. -/
  | release {p : Nat} {kind : HeldKind} {a : Place} {name : String} {x : Held} {c : Call}
      {v : Violation} (ha : s.find a = .ok (name, x))
      (hc : Session.returning kind x = some (some c)) (hv : c.Objects s.memory ⟨p⟩ v) :
      Breaks s (.release p kind a) v
  | leaseSlot {p : Nat} {a dest : Place} {name : String} {sl : Slot} {v : Violation}
      (ha : s.find a = .ok (name, .slot sl)) (hv : Lease.ofSlot s.memory ⟨p⟩ sl = .error v) :
      Breaks s (.leaseSlot p a dest) v
  | leaseStack {p : Nat} {a dest : Place} {name : String} {st : Stack} {v : Violation}
      (ha : s.find a = .ok (name, .stack st))
      (hv : LeaseStack.ofStack s.memory ⟨p⟩ st = .error v) :
      Breaks s (.leaseStack p a dest) v
  /-- A bare slot is pushed onto a lease of another pool, or of none. -/
  | pushBare {a b : Place} {target source : String} {l : LeaseStack} {sl : Slot} {v : Violation}
      (ha : s.find a = .ok (target, .leaseStack l)) (hb : s.find b = .ok (source, .slot sl))
      (hv : l.checkPush s.memory sl = .error v) : Breaks s (.push a b) v
  /-- Leases of two pools are merged. -/
  | merge {a b : Place} {target source : String} {l : LeaseStack} {x : Held} {v : Violation}
      (ha : s.find a = .ok (target, .leaseStack l)) (hb : s.find b = .ok (source, x))
      (hv : l.adopt x.pool? = .error v) : Breaks s (.push a b) v
  | insert {a b : Place} {cmp : Comparison} {target source : String} {l : LeaseStack} {x : Held}
      {v : Violation} (ha : s.find a = .ok (target, .leaseStack l))
      (hb : s.find b = .ok (source, x)) (hv : l.adopt x.pool? = .error v) :
      Breaks s (.insert a b cmp) v
  | read {a : Place} {name : String} {l : Lease} (ha : s.find a = .ok (name, .lease l))
      (hl : l.slot = none) : Breaks s (.read a) .emptyLease
  | write {a : Place} {content : Content ε} {name : String} {l : Lease}
      (ha : s.find a = .ok (name, .lease l)) (hl : l.slot = none) :
      Breaks s (.write a content) .emptyLease

namespace Session

/-- A session between commands as the client of a world. It has `hands` beside its registers. -/
structure Holds (rest : List Client) (s : Session ε) (hands : List Held) : Prop where
  distinct : s.registers.Distinct
  has : World.Has rest s.arena (hands ++ s.registers.things) none

/-- A session at a command as the client of a world. What the command is answered with breaks no
rule but those of which `V` holds. -/
structure IsClient (V : Violation → Prop) (rest : List Client) (x : Session ε × Execution ε) :
    Prop where
  distinct : x.1.registers.Distinct
  has : World.Has rest x.1.arena x.1.registers.things x.2.call?
  voiced : ∀ v, x.2.Voices x.1.memory v → V v

variable {s : Session ε} {hands : List Held} {x : Held}

theorem find_ok {a : Place} {name : String} (h : s.find a = .ok (name, x)) :
    a = some name ∧ s.registers.get? name = some x := by
  cases a with
  | none => simp [find] at h
  | some other =>
    cases hg : s.registers.get? other with
    | none => simp [find, hg] at h
    | some y =>
      obtain ⟨rfl, rfl⟩ : other = name ∧ y = x := by simpa [find, hg] using h
      exact ⟨rfl, hg⟩

theorem Holds.finished (h : Holds rest s []) (answer : Except Failure (Reply ε))
    (hV : ∀ v, answer = .error (.violation v) → V v) : IsClient V rest (s, .finished answer) :=
  ⟨h.distinct, h.has, hV⟩

theorem Holds.disposing (h : Holds rest s [x]) (answer : Except Failure (Reply ε))
    (hV : ∀ v, answer = .error (.violation v) → V v) :
    IsClient V rest (s, .disposing x.dropped answer) := by
  refine ⟨h.distinct, ?_, fun v hv => hV v ((h.has.lawful List.mem_cons_self).of_voices hv)⟩
  rw [Execution.call?_disposing]
  exact h.has.drop

theorem Holds.lose (h : Holds rest s [x]) (hx : ∀ id c, x.dropped ≠ .call id c) : Holds rest s [] :=
  ⟨h.distinct, h.has.lose hx⟩

theorem Holds.store (h : Holds rest s [x]) (dest : Place) (answer : Except Failure (Reply ε))
    (hV : ∀ v, answer = .error (.violation v) → V v) : IsClient V rest (s.store dest x answer) := by
  obtain ⟨item, arena, registers⟩ := s
  cases dest with
  | none => exact h.disposing _ (by simp)
  | some name =>
    cases hg : registers.get? name with
    | none =>
      simp only [Session.store, hg, update]
      refine ⟨h.distinct.store name x, ?_, hV⟩
      have hsame : registers.store name x = (name, x) :: registers := by
        rw [Registers.store, Registers.remove_of_get? hg]
      rw [hsame]
      exact h.has
    | some old =>
      simp only [Session.store, hg, update]
      have hhas : World.Has rest arena (old :: x :: (registers.remove name).things) none :=
        h.has.perm (((Registers.things_perm h.distinct hg).cons x).trans (List.Perm.swap old x _))
      refine ⟨h.distinct.store name x, ?_, fun v hv => ?_⟩
      · rw [Execution.call?_disposing]
        exact hhas.drop
      · exact hV v ((hhas.lawful List.mem_cons_self).of_voices hv)

theorem Holds.taking {a : Place} {k : Session ε → Held → Session ε × Execution ε}
    (h : Holds rest s []) (hk : ∀ name y, s.find a = .ok (name, y) →
      Holds rest { s with registers := s.registers.remove name } [y] →
      IsClient V rest (k { s with registers := s.registers.remove name } y)) :
    IsClient V rest (s.taking a k) := by
  unfold Session.taking
  rcases hf : s.find a with r | ⟨name, y⟩
  · exact h.finished _ (by simp)
  · refine hk name y hf ⟨h.distinct.remove name, h.has.perm ?_⟩
    exact Registers.things_perm h.distinct (find_ok hf).2

theorem Holds.viewing {a : Place} {k : Session ε → String → Held → Session ε × Execution ε}
    (h : Holds rest s []) (hk : ∀ name y, s.find a = .ok (name, y) →
      s.registers.get? name = some y → IsClient V rest (k s name y)) :
    IsClient V rest (s.viewing a k) := by
  unfold Session.viewing
  rcases hf : s.find a with r | ⟨name, y⟩
  · exact h.finished _ (by simp)
  · exact hk name y hf (find_ok hf).2

theorem find_of_remove {a : Place} {name other : String} {y : Held}
    (h : find { s with registers := s.registers.remove other } a = .ok (name, y)) :
    s.find a = .ok (name, y) := by
  obtain ⟨rfl, hg⟩ := find_ok h
  have hne : name ≠ other := by
    rintro rfl
    simp [Registers.get?_remove_self] at hg
  rw [Registers.get?_remove_of_ne hne] at hg
  simp only [find, hg]

theorem Holds.merging {a b : Place}
    {k : Session ε → String → Held → Held → Session ε × Execution ε} (h : Holds rest s [])
    (hk : ∀ s' name other target source, s'.arena = s.arena → Holds rest s' [source] →
      s'.registers.get? name = some target → s.find a = .ok (name, target) →
      s.find b = .ok (other, source) → IsClient V rest (k s' name target source)) :
    IsClient V rest (s.merging a b k) := by
  apply h.taking
  intro other source hb hs'
  rcases ha : find { s with registers := s.registers.remove other } a with r | ⟨name, target⟩
  · exact hs'.disposing _ (by simp)
  · exact hk _ name other target source rfl hs' (find_ok ha).2 (find_of_remove ha) hb

/-! ## Work on a register -/

variable {name : String} {y y' : Held} {hands' : List Held}

theorem Holds.out (h : Holds rest s hands) (hg : s.registers.get? name = some y) :
    World.Has rest s.arena (y :: hands ++ (s.registers.remove name).things) none := by
  refine h.has.perm (((Registers.things_perm h.distinct hg).append_left hands).trans ?_)
  exact List.perm_middle

theorem holds_update (hd : s.registers.Distinct)
    (h : World.Has rest s.arena (y :: hands ++ (s.registers.remove name).things) none) :
    Holds rest (s.update name y) hands := by
  obtain ⟨item, arena, registers⟩ := s
  exact ⟨hd.store name y, h.perm List.perm_middle.symm⟩

theorem Holds.work {m : Memory ε} {before after : List Held} (h : Holds rest s hands)
    (hg : s.registers.get? name = some y)
    (hm : Moves s.arena.HasPool s.arena.memory before m after) (hb : before.Perm (y :: hands))
    (ha : after.Perm (y' :: hands')) :
    Holds rest (update { s with arena := { s.arena with memory := m } } name y') hands' := by
  refine holds_update h.distinct ?_
  have hout := (h.out hg).perm (hb.symm.append_right (s.registers.remove name).things)
  exact (hout.move hm).perm (ha.append_right _)

theorem Holds.write (h : Holds rest s []) (hg : s.registers.get? name = some y) {sl : Slot}
    (hs : sl ∈ y.slots s.arena.memory) (content : Content ε) :
    Holds rest (s.writeTo sl content) [] := by
  obtain ⟨item, arena, registers⟩ := s
  refine ⟨h.distinct, ?_⟩
  have hout : World.Has rest arena ([y] ++ (registers.remove name).things) none := h.out hg
  have hmove := hout.move (.write arena.memory y sl content hs)
  exact hmove.perm (Registers.things_perm h.distinct hg).symm

theorem Holds.mergeLease {target : LeaseStack} (source : Held)
    {join : LeaseStack → Memory ε → Memory ε × LeaseStack} (h : Holds rest s [source])
    (hg : s.registers.get? name = some (.leaseStack target))
    (hV : ∀ v, target.adopt source.pool? = .error v → V v)
    (hj : ∀ target', target.adopt source.pool? = .ok target' →
      Moves s.arena.HasPool s.arena.memory [.leaseStack target, source]
        (join target' s.arena.memory).1 [.leaseStack (join target' s.arena.memory).2]) :
    IsClient V rest (s.mergeLease name target source.pool? source.dropped join) := by
  unfold Session.mergeLease
  cases ha : target.adopt source.pool? with
  | error v =>
    refine h.disposing _ fun w hw => hV w (ha.trans ?_)
    obtain rfl : v = w := by simpa using hw
    rfl
  | ok target' =>
    obtain ⟨item, arena, registers⟩ := s
    exact (h.work hg (hj target' ha) (List.Perm.refl _) (List.Perm.refl _)).finished _ (by simp)

theorem Holds.push (h : Holds rest s []) (a b : Place)
    (hV : ∀ v, (Command.push a b).Breaks s v → V v) : IsClient V rest (s.push a b) := by
  apply h.merging
  intro s' name other target source hsame hs' hg ha hb
  obtain ⟨item, arena, registers⟩ := s'
  obtain rfl : arena = s.arena := hsame
  cases target with
  | slot t => exact hs'.disposing _ (by simp)
  | lease l => exact hs'.disposing _ (by simp)
  | stack st =>
    cases source with
    | slot sl =>
      exact (hs'.work hg (.push s.arena.memory st sl) (List.Perm.refl _)
        (List.Perm.refl _)).finished _ (by simp)
    | _ => exact hs'.disposing _ (by simp)
  | leaseStack l =>
    have hmerge : ∀ v, l.adopt source.pool? = .error v → V v := fun v hv =>
      hV v (.merge ha hb hv)
    cases source with
    | slot sl =>
      simp only
      cases hl : l.checkPush (memory ⟨item, s.arena, registers⟩) sl with
      | error v =>
        refine (hs'.lose (by simp [Held.dropped])).finished _ fun w hw => hV w ?_
        obtain rfl : v = w := by simpa using hw
        exact .pushBare ha hb hl
      | ok u =>
        exact (hs'.work hg (.pushBare s.arena.memory l sl hl) (List.Perm.refl _)
          (List.Perm.refl _)).finished _ (by simp)
    | stack st => exact hs'.disposing _ (by simp)
    | lease other =>
      exact hs'.mergeLease (.lease other) hg hmerge fun target' hl =>
        .pushLease s.arena.memory l target' other hl
    | leaseStack other =>
      exact hs'.mergeLease (.leaseStack other) hg hmerge fun target' hl =>
        .mergeStack s.arena.memory l target' other hl

theorem Holds.insert (h : Holds rest s []) (a b : Place) (cmp : Comparison)
    (hV : ∀ v, (Command.insert a b cmp).Breaks s v → V v) : IsClient V rest (s.insert a b cmp) := by
  apply h.merging
  intro s' name other target source hsame hs' hg ha hb
  obtain ⟨item, arena, registers⟩ := s'
  obtain rfl : arena = s.arena := hsame
  cases target with
  | slot t => exact hs'.disposing _ (by simp)
  | lease l => exact hs'.disposing _ (by simp)
  | stack st =>
    cases source with
    | slot sl =>
      exact (hs'.work hg (.insert s.arena.memory _ st sl) (List.Perm.refl _)
        (List.Perm.refl _)).finished _ (by simp)
    | _ => exact hs'.disposing _ (by simp)
  | leaseStack l =>
    have hmerge : ∀ v, l.adopt source.pool? = .error v → V v := fun v hv =>
      hV v (.insert ha hb hv)
    cases source with
    | lease other =>
      exact hs'.mergeLease (.lease other) hg hmerge fun target' hl =>
        .insertLease s.arena.memory _ l target' other hl
    | _ => exact hs'.disposing _ (by simp)

theorem Holds.append (h : Holds rest s []) (a b : Place) : IsClient V rest (s.append a b) := by
  apply h.viewing
  rintro b source - hb
  apply h.viewing
  rintro a target - ha
  split
  · exact h.finished _ (by simp)
  rename_i hab
  cases target with
  | stack st =>
    cases source with
    | stack other =>
      obtain ⟨item, arena, registers⟩ := s
      -- Both stacks come out of their registers and are put back.
      have hb' : (registers.remove a).get? b = some (.stack other) := by
        rw [Registers.get?_remove_of_ne (Ne.symm hab)]
        exact hb
      have hd := h.distinct.remove a
      have hperm := (Registers.things_perm h.distinct ha).trans
        ((Registers.things_perm hd hb').cons (.stack st))
      have hout : World.Has rest arena ([.stack st, .stack other] ++
          ((registers.remove a).remove b).things) none := h.has.perm hperm
      have hthings : ∀ x x', ((registers.store a x).store b x').things =
          x' :: x :: ((registers.remove a).remove b).things := by
        intro x x'
        simp [Registers.store, Registers.remove_cons, hab, Registers.things]
      refine ⟨(h.distinct.store a _).store b _, ?_, by simp [Execution.Voices, Execution.done]⟩
      apply (hout.move (.append arena.memory st other)).perm
      exact (List.Perm.swap _ _ _).trans (List.Perm.of_eq (hthings _ _).symm)
    | _ => exact h.finished _ (by simp)
  | _ => exact h.finished _ (by simp)

theorem Holds.update_same (h : Holds rest s []) (hg : s.registers.get? name = some y) :
    Holds rest (s.update name y) [] :=
  holds_update h.distinct (h.out hg)

theorem Holds.pop (h : Holds rest s []) (a dest : Place) : IsClient V rest (s.pop a dest) := by
  apply h.viewing
  rintro a target - ha
  obtain ⟨item, arena, registers⟩ := s
  cases target with
  | stack st =>
    rcases hp : st.pop arena.memory with ⟨m, st', _ | sl⟩
    · obtain ⟨rfl, rfl⟩ := Stack.pop_none hp
      simp only [withMemory, hp]
      exact (h.update_same ha).finished _ (by simp)
    · simp only [withMemory, hp]
      refine (h.work ha (.pop arena.memory m st st' sl hp) ?_ ?_).store dest _ (by simp)
      · exact List.Perm.refl _
      · exact List.Perm.refl _
  | leaseStack l =>
    rcases hp : l.pop arena.memory with ⟨m, l', _ | one⟩
    · obtain ⟨rfl, rfl⟩ := LeaseStack.pop_none hp
      simp only [withMemory, hp]
      exact (h.update_same ha).finished _ (by simp)
    · simp only [withMemory, hp]
      refine (h.work ha (.popLease arena.memory m l l' one hp) ?_ ?_).store dest _ (by simp)
      · exact List.Perm.refl _
      · exact List.Perm.refl _
  | _ => exact h.finished _ (by simp)

theorem Holds.split (h : Holds rest s []) (a dest : Place) (count : Nat) :
    IsClient V rest (s.split a count dest) := by
  apply h.viewing
  rintro a target - ha
  obtain ⟨item, arena, registers⟩ := s
  have hsound := (h.out ha).sound List.mem_cons_self
  cases target with
  | stack st =>
    have hspans : st.Spans arena.memory (st.slots arena.memory) := hsound (.chain st) (by
      simp [Held.pieces])
    obtain ⟨m, front, rest', hs, -⟩ := Stack.split_spec hspans count
    simp only [withMemory, hs]
    refine (h.work ha (.split arena.memory m st front rest' count hs) ?_ ?_).store dest _ (by simp)
    · exact List.Perm.refl _
    · exact List.Perm.swap _ _ _
  | leaseStack l =>
    have hspans : l.stack.Spans arena.memory (l.stack.slots arena.memory) :=
      hsound (.chain l.stack) (by simp [Held.pieces])
    obtain ⟨m, front, rest', hs, -⟩ := Stack.split_spec hspans count
    have hl : l.split arena.memory count =
        (m, .ok (⟨front, l.pool⟩, { l with stack := rest' })) := by
      rw [LeaseStack.split, hs]
    simp only [withMemory, hl]
    refine (h.work ha (.splitLease arena.memory m l _ _ count hl) ?_ ?_).store dest _ (by simp)
    · exact List.Perm.refl _
    · exact List.Perm.swap _ _ _
  | _ => exact h.finished _ (by simp)

theorem Holds.take (h : Holds rest s []) (a dest : Place) : IsClient V rest (s.take a dest) := by
  apply h.viewing
  rintro a target - ha
  cases he : emptyOf (kindOf target) with
  | none => exact h.finished _ (by simp)
  | some empty =>
    have hmade := (h.out ha).makeEmpty (kindOf target) he
    have hput : Holds rest (s.update a empty) [target] := holds_update h.distinct hmade
    exact hput.store dest _ (by simp)

theorem Holds.detach (h : Holds rest s []) (a dest : Place) :
    IsClient V rest (s.detach a dest) := by
  apply h.viewing
  rintro a target - ha
  obtain ⟨item, arena, registers⟩ := s
  cases target with
  | lease l =>
    rcases hd : l.detach with ⟨l', _ | sl⟩
    · simp only [hd]
      exact h.finished _ (by simp)
    · simp only [hd]
      refine (h.work ha (.detachSlot arena.memory l l' sl hd) ?_ ?_).store dest _ (by simp)
      · exact List.Perm.refl _
      · exact List.Perm.refl _
  | leaseStack l =>
    refine (h.work ha (.detachStack arena.memory l) ?_ ?_).store dest _ (by simp)
    · exact List.Perm.refl _
    · exact List.Perm.refl _
  | _ => exact h.finished _ (by simp)

theorem Holds.reset (h : Holds rest s []) (a : Place) : IsClient V rest (s.reset a) := by
  apply h.viewing
  rintro a target - ha
  have hout := h.out ha
  have hreset := fun hb => hout.reset hb
  obtain ⟨item, arena, registers⟩ := s
  cases target with
  | slot sl => exact h.finished _ (by simp)
  | stack st => exact h.finished _ (by simp)
  | _ =>
    refine ⟨h.distinct.store a _, ?_, fun v hv => ?_⟩
    · rw [Execution.call?_disposing]
      exact hreset rfl
    · have hanswer := (hout.lawful List.mem_cons_self).of_voices hv
      simp at hanswer

/-! ## Writing -/

theorem Holds.onSlot {a : Place} {k : Session ε → Slot → Session ε × Execution ε}
    (h : Holds rest s []) (hV : ∀ name l, s.find a = .ok (name, .lease l) → l.slot = none →
      V .emptyLease) (hk : ∀ name y sl, s.registers.get? name = some y →
      sl ∈ y.slots s.arena.memory → IsClient V rest (k s sl)) : IsClient V rest (s.onSlot a k) := by
  apply h.viewing
  intro name y ha hg
  cases y with
  | slot sl => exact hk name _ sl hg (by simp [Held.slots, Held.pieces])
  | lease l =>
    obtain ⟨slot, pool⟩ := l
    cases slot with
    | none => exact h.finished _ (by simpa using hV name _ ha rfl)
    | some sl => exact hk name _ sl hg (by simp [Held.slots, Held.pieces])
  | _ => exact h.finished _ (by simp)

theorem Holds.writeAlong (h : Holds rest s []) (hg : s.registers.get? name = some y)
    (contents : List (Content ε)) {c : Cursor} {l : List Slot}
    (hl : ∀ t ∈ l, t ∈ y.slots s.arena.memory) (hc : c.next = l.head?)
    (hlinked : s.arena.memory.Linked l none) :
    Holds rest (s.withMemory fun m => writeAlong m c contents).1 [] := by
  obtain ⟨item, ⟨m, pools, journal⟩, registers⟩ := s
  induction contents generalizing m c l with
  | nil => exact h
  | cons content contents ih =>
    cases l with
    | nil =>
      have hstep : c.step m = (none, c) := by simp [Cursor.step, hc]
      simp only [withMemory, Session.writeAlong, hstep]
      exact ih hc m h hg hl hlinked
    | cons t l =>
      have hstep : c.step m = (some t, ⟨l.head?, c.remaining - 1⟩) := by
        simp [Cursor.step, hc, next?_eq_link?, hlinked.1]
      have hnext : Cursor.next ⟨l.head?, c.remaining - 1⟩ = l.head? := rfl
      have hcells := cells_write m t content
      simp only [withMemory, Session.writeAlong, hstep]
      refine ih hnext (content.write m t) (h.write hg (hl t (by simp)) content) hg ?_ ?_
      · intro u hu
        rw [Held.slots, slotsOf_congr fun q _ => Piece.slots_of_cells hcells q]
        exact hl u (by simp [hu])
      · exact hlinked.2.frame fun u _ => by rw [link?, link?, cell?, cell?, hcells]

theorem Holds.onStack {a : Place} {k : Session ε → Stack → Session ε × Execution ε}
    (h : Holds rest s []) (hk : ∀ name y st, s.registers.get? name = some y →
      y.pieces = [.chain st] → IsClient V rest (k s st)) : IsClient V rest (s.onStack a k) := by
  apply h.viewing
  rintro name y - hg
  cases y with
  | stack st => exact hk name _ st hg rfl
  | leaseStack l => exact hk name _ l.stack hg rfl
  | _ => exact h.finished _ (by simp)

theorem Holds.writeStack (h : Holds rest s []) (hg : s.registers.get? name = some y) {st : Stack}
    (hst : y.pieces = [.chain st]) (contents : List (Content ε)) :
    Holds rest (s.withMemory fun m => Session.writeAlong m (Cursor.ofStack st) contents).1 [] := by
  have hspans : st.Spans s.arena.memory (st.slots s.arena.memory) :=
    (h.out hg).sound List.mem_cons_self (.chain st) (by simp [hst])
  refine h.writeAlong hg contents ?_ hspans.head hspans.linked
  intro t ht
  simpa [Held.slots, hst] using ht

/-! ## Commands that make a call -/

theorem Holds.onPool {p : Nat} {k : PoolId → Pool ε → Session ε × Execution ε}
    (h : Holds rest s [])
    (hk : ∀ pool, s.arena.pool? ⟨p⟩ = some pool → IsClient V rest (k ⟨p⟩ pool)) :
    IsClient V rest (s.onPool p k) := by
  unfold Session.onPool
  cases hp : s.pool? p with
  | none => exact h.finished _ (by simp)
  | some pool => exact hk pool hp

theorem Holds.given {α : Type} {part : Option α} {r : Refusal}
    {k : Session ε → α → Session ε × Execution ε} (h : Holds rest s [])
    (hk : ∀ x, IsClient V rest (k s x)) : IsClient V rest (s.given part r k) := by
  cases part with
  | none => exact h.finished _ (by simp)
  | some x => exact hk x

theorem Holds.ask (h : Holds rest s []) {id : PoolId} {p : Pool ε} (hp : s.arena.pool? id = some p)
    {c : Call} (hc : c.IsRequest) (sequel : Sequel ε)
    (hV : ∀ v, sequel = .answer (.error (.violation v)) → V v) :
    IsClient V rest (s, .call id c sequel) :=
  ⟨h.distinct, h.has.ask hp hc, fun v hv =>
    hV v (hv.resolve_left fun ho => by cases hc <;> exact ho)⟩

theorem Holds.release (h : Holds rest s []) (p : Nat) (kind : HeldKind) (a : Place)
    (hV : ∀ v, (Command.release p kind a).Breaks s v → V v) :
    IsClient V rest (s.release p kind a) := by
  apply h.taking
  intro name y ha hs'
  rcases hr : returning kind y with _ | _ | c
  · exact hs'.disposing _ (by simp)
  · cases hp : pool? { s with registers := s.registers.remove name } p with
    | none => exact hs'.disposing _ (by simp)
    | some pool =>
      have hnone : ∀ id c, y.dropped ≠ .call id c := by
        cases kind <;> cases y <;> simp only [returning, Option.some.injEq, reduceCtorEq] at hr
        rename_i l
        obtain ⟨slot, lessor⟩ := l
        obtain rfl : slot = none := by simpa using hr
        simp [Held.dropped, Lease.dropped]
      exact (hs'.lose hnone).finished _ (by simp)
  · cases hp : pool? { s with registers := s.registers.remove name } p with
    | none => exact hs'.disposing _ (by simp)
    | some pool =>
      refine ⟨hs'.distinct, hs'.has.give hp hr, fun v hv => hV v ?_⟩
      exact .release ha hr (hv.resolve_right (by simp))

theorem Holds.leasing {p : Nat} {a dest : Place}
    {lease : Memory ε → PoolId → Held → Option (Except Violation Held)} (h : Holds rest s [])
    (hV : ∀ name y v, s.find a = .ok (name, y) → lease s.memory ⟨p⟩ y = some (.error v) → V v)
    (hl : ∀ there m id y r, lease m id y = some r → y.isBare = true ∧
      ∀ y', r = .ok y' → there id → Moves there m [y] m [y']) :
    IsClient V rest (s.leasing p a dest lease) := by
  apply h.taking
  intro name y ha hs'
  cases hr : lease (memory { s with registers := s.registers.remove name }) ⟨p⟩ y with
  | none => exact hs'.disposing _ (by simp)
  | some r =>
    obtain ⟨hbare, hmove⟩ := hl s.arena.HasPool s.memory ⟨p⟩ y r hr
    cases hp : pool? { s with registers := s.registers.remove name } p with
    | none => cases r <;> exact hs'.disposing _ (by simp)
    | some pool =>
      cases r with
      | error v =>
        have hnone : ∀ id c, y.dropped ≠ .call id c := by
          cases y <;> simp [Held.isBare] at hbare <;> simp [Held.dropped]
        refine (hs'.lose hnone).finished _ fun w hw => hV name y w ha (hr.trans ?_)
        obtain rfl : v = w := by simpa using hw
        rfl
      | ok y' =>
        have hhas := hs'.has.move (hmove y' rfl ⟨pool, hp⟩)
        exact Holds.store ⟨hs'.distinct, hhas⟩ dest _ (by simp)

theorem moves_ofSlot {there : PoolId → Prop} {m : Memory ε} {id : PoolId} {sl : Slot}
    (h : (Lease.ofSlot m id sl).map .lease = .ok x) (hid : there id) :
    Moves there m [.slot sl] m [x] := by
  cases hl : Lease.ofSlot m id sl with
  | error v => simp [hl, Except.map] at h
  | ok l =>
    obtain rfl : .lease l = x := by simpa [hl, Except.map] using h
    exact .leaseSlot m id sl l hid hl

theorem moves_ofStack {there : PoolId → Prop} {m : Memory ε} {id : PoolId} {st : Stack}
    (h : (LeaseStack.ofStack m id st).map .leaseStack = .ok x) (hid : there id) :
    Moves there m [.stack st] m [x] := by
  cases hl : LeaseStack.ofStack m id st with
  | error v => simp [hl, Except.map] at h
  | ok l =>
    obtain rfl : .leaseStack l = x := by simpa [hl, Except.map] using h
    exact .leaseStack m id st l hid hl

theorem Holds.leaseSlot (h : Holds rest s []) (p : Nat) (a dest : Place)
    (hV : ∀ v, (Command.leaseSlot p a dest).Breaks s v → V v) :
    IsClient V rest (s.leaseSlot p a dest) := by
  apply h.leasing
  · intro name y v ha hr
    cases y with
    | slot sl =>
      cases hl : Lease.ofSlot s.memory ⟨p⟩ sl with
      | error w =>
        obtain rfl : w = v := by simpa [hl, Except.map] using hr
        exact hV w (.leaseSlot ha hl)
      | ok l => simp [hl, Except.map] at hr
    | _ => simp at hr
  · intro there m id y r hr
    cases y with
    | slot sl =>
      obtain rfl : (Lease.ofSlot m id sl).map .lease = r := by simpa using hr
      exact ⟨rfl, fun y' hy' hid => moves_ofSlot hy' hid⟩
    | _ => simp at hr

theorem Holds.leaseStack (h : Holds rest s []) (p : Nat) (a dest : Place)
    (hV : ∀ v, (Command.leaseStack p a dest).Breaks s v → V v) :
    IsClient V rest (s.leaseStack p a dest) := by
  apply h.leasing
  · intro name y v ha hr
    cases y with
    | stack st =>
      cases hl : LeaseStack.ofStack s.memory ⟨p⟩ st with
      | error w =>
        obtain rfl : w = v := by simpa [hl, Except.map] using hr
        exact hV w (.leaseStack ha hl)
      | ok l => simp [hl, Except.map] at hr
    | _ => simp at hr
  · intro there m id y r hr
    cases y with
    | stack st =>
      obtain rfl : (LeaseStack.ofStack m id st).map .leaseStack = r := by simpa using hr
      exact ⟨rfl, fun y' hy' hid => moves_ofStack hy' hid⟩
    | _ => simp at hr

/-! ## Pools -/

def IsFresh (p : Pool ε) : Prop :=
  ∃ strategy policy backoffMicros, p = .fresh strategy policy backoffMicros

theorem isFresh_ofConfig {item : ItemType ε} {c : Config} {p : Pool ε}
    (h : makePool.ofConfig item c = .ok p) : IsFresh p := by
  unfold makePool.ofConfig Pool.ofBufferConfig Pool.ofConfig at h
  cases hv : c.validate with
  | error e =>
    split at h <;> simp [hv, bind, Except.bind] at h
  | ok u =>
    simp only [hv, bind, Except.bind] at h
    repeat' split at h
    all_goals first
      | exact ⟨_, _, _, (Except.ok.inj h).symm⟩
      | cases h

theorem isFresh_ofSizes {item : ItemType ε} {blockSize : Nat} {bufferSize : Nat} {p : Pool ε}
    (h : (if item.buffered then Pool.ofBufferSize item.layout bufferSize blockSize
      else Pool.ofBlockSize item.layout blockSize) = .ok p) : IsFresh p := by
  unfold Pool.ofBufferSize Pool.ofBlockSize at h
  repeat' split at h
  all_goals first
    | exact ⟨_, _, _, (Except.ok.inj h).symm⟩
    | cases h

theorem of_mapError_ok {α β γ : Type} {f : α → β} {x : Except α γ} {y : γ}
    (h : x.mapError f = .ok y) : x = .ok y := by
  cases x with
  | error e => cases h
  | ok z => exact congrArg Except.ok (Except.ok.inj h)

theorem makePool_fresh {item : ItemType ε} {request : PoolRequest} {p : Pool ε}
    (h : makePool item request = .ok p) : IsFresh p := by
  cases request with
  | sizes blockSize bufferSize beside =>
    cases beside with
    | none => exact isFresh_ofSizes (of_mapError_ok h)
    | some text =>
      simp only [makePool, bind, Except.bind] at h
      split at h
      · cases h
      · exact isFresh_ofSizes (of_mapError_ok h)
  | config c => exact isFresh_ofConfig (of_mapError_ok h)
  | document text =>
    have hd := of_mapError_ok h
    simp only [bind, Except.bind] at hd
    split at hd
    · cases hd
    · exact isFresh_ofConfig hd

theorem Holds.newPool (h : Holds rest s []) (request : PoolRequest)
    (hV : ∀ v, (Command.newPool request).Breaks s v → V v) :
    IsClient V rest (s.newPool request) := by
  unfold Session.newPool
  cases hp : makePool s.item request with
  | error f =>
    refine h.finished _ fun v hv => hV v (.newPool (hp.trans ?_))
    exact congrArg Except.error (Except.error.inj hv)
  | ok p =>
    obtain ⟨strategy, policy, backoffMicros, rfl⟩ := makePool_fresh hp
    obtain ⟨item, arena, registers⟩ := s
    obtain ⟨l, clients, losses, hr, hc, hl⟩ := h.has
    have hadd := hr.step (.addPool arena clients losses strategy policy backoffMicros)
    exact ⟨h.distinct, ⟨l, clients, losses, hadd, hc, hl⟩, by simp [Execution.Voices]⟩

/-! ## All commands -/

/-- A command that is started is work of a client, and no rule is broken but at its own checks. -/
theorem Holds.start (h : Holds rest s []) (c : Command ε) (hV : ∀ v, c.Breaks s v → V v) :
    IsClient V rest (s.start c) := by
  cases c
  all_goals rw [Session.start]
  case newPool request => exact h.newPool request hV
  case poolInfo p => exact h.onPool fun pool hp => h.finished _ (by simp)
  case poolTree p => exact h.onPool fun pool hp => h.finished _ (by simp)
  case stats p => exact h.onPool fun pool hp => h.ask hp .readStats _ (by simp)
  case acquire p leased content dest =>
    apply h.onPool
    intro pool hp
    split
    · exact h.finished _ (by simp)
    · exact h.ask hp .popOne _ (by simp)
  case acquireStack p count leased dest =>
    exact h.onPool fun pool hp => h.given fun n => h.ask hp (.popMany n) _ (by simp)
  case release p kind a => exact h.release p kind a hV
  case makeEmpty kind dest =>
    split
    · rename_i empty he
      have hmade : Holds rest s [empty] := ⟨h.distinct, h.has.makeEmpty kind he⟩
      exact hmade.store dest _ (by simp)
    · exact h.finished _ (by simp)
  case makeLeaseStack p dest =>
    apply h.onPool
    intro pool hp
    have hmade := h.has.move (.makeLeaseStack s.arena.memory ⟨p⟩ ⟨pool, hp⟩)
    exact Holds.store ⟨h.distinct, hmade⟩ dest _ (by simp)
  case leaseSlot p a dest => exact h.leaseSlot p a dest hV
  case leaseStack p a dest => exact h.leaseStack p a dest hV
  case drop a => exact h.taking fun name y _ hs' => hs'.disposing _ (by simp)
  case move a dest => exact h.taking fun name y _ hs' => hs'.store dest _ (by simp)
  case take a dest => exact h.take a dest
  case push a b => exact h.push a b hV
  case append a b => exact h.append a b
  case insert a b cmp => exact h.insert a b cmp hV
  case isSorted a cmp => exact h.onStack fun name y st hg hst => h.finished _ (by simp)
  case pop a dest => exact h.pop a dest
  case split a count dest => exact h.given fun n => h.split a dest n
  case peek a => exact h.onStack fun name y st hg hst => h.finished _ (by simp)
  case writeFront a content =>
    apply h.viewing
    rintro name y - hg
    cases y with
    | stack st =>
      simp only
      split
      · rename_i sl hhead
        refine (h.write hg ?_ content).finished _ (by simp)
        have hspans : st.Spans s.arena.memory (st.slots s.arena.memory) :=
          (h.out hg).sound List.mem_cons_self (.chain st) (by simp [Held.pieces])
        rw [hspans.head] at hhead
        simpa [Held.slots, Held.pieces] using List.mem_of_mem_head? hhead
      · exact h.finished _ (by simp)
    | _ => exact h.finished _ (by simp)
  case length a =>
    apply h.viewing
    rintro name y - hg
    cases y <;> exact h.finished _ (by simp)
  case summary a limit =>
    exact h.given fun n => h.onStack fun name y st hg hst => h.finished _ (by simp)
  case tree a => exact h.viewing fun name y _ hg => h.finished _ (by simp)
  case iterate a steps =>
    exact h.given fun n => h.onStack fun name y st hg hst => h.finished _ (by simp)
  case writeEach a contents =>
    apply h.onStack
    intro name y st hg hst
    apply h.given
    intro cs
    exact (h.writeStack hg hst cs).finished _ (by simp)
  case writeAll a content =>
    apply h.onStack
    intro name y st hg hst
    exact (h.writeStack hg hst _).finished _ (by simp)
  case read a =>
    refine h.onSlot (fun name l ha hl => hV _ (.read ha hl)) fun name y sl hg hs => ?_
    exact h.finished _ (by simp)
  case write a content =>
    refine h.onSlot (fun name l ha hl => hV _ (.write ha hl)) fun name y sl hg hs => ?_
    exact (h.write hg hs content).finished _ (by simp)
  case tryWrite a content =>
    apply h.viewing
    rintro name y - hg
    cases y with
    | lease l =>
      obtain ⟨slot, pool⟩ := l
      cases slot with
      | none => exact h.finished _ (by simp)
      | some sl =>
        exact (h.write hg (by simp [Held.slots, Held.pieces]) content).finished _ (by simp)
    | _ => exact h.finished _ (by simp)
  case reset a => exact h.reset a
  case detach a dest => exact h.detach a dest

end Session

end SlotPool
