import SlotPool.Proofs.Values

/-!
# Going through a stack and taking it apart

A cursor on a stack answers with the slots that so many pops would take off, in their order, and
then with none for ever. The count of the slots to come is right at every step. What is written on
the way changes the values of the stack's slots alone, so that the rest of the way is the same.
-/

namespace SlotPool

open Memory

variable {ε : Type} {m m' : Memory ε} {st : Stack} {c : Cursor} {l : List Slot}

/-! ## Pops -/

namespace Stack

/-- The answers to `count` pops, one after the other, and what they leave. -/
def pops (m : Memory ε) (st : Stack) : Nat → List (Option Slot) × Memory ε × Stack
  | 0 => ([], m, st)
  | count + 1 =>
    let (m, st, s) := st.pop m
    let (rest, m, st) := pops m st count
    (s :: rest, m, st)

end Stack

/-- The first `count` slots of a list, and no slot where it has ended. -/
def slotsUpTo (l : List Slot) (count : Nat) : List (Option Slot) :=
  (List.range count).map fun i => l[i]?

theorem slotsUpTo_nil_succ (count : Nat) :
    slotsUpTo [] (count + 1) = none :: slotsUpTo [] count := by
  simp [slotsUpTo, List.range_succ_eq_map, Function.comp_def]

theorem slotsUpTo_cons_succ (s : Slot) (l : List Slot) (count : Nat) :
    slotsUpTo (s :: l) (count + 1) = some s :: slotsUpTo l count := by
  simp [slotsUpTo, List.range_succ_eq_map, Function.comp_def]

theorem Stack.Spans.pops (h : st.Spans m l) (count : Nat) :
    (st.pops m count).1 = slotsUpTo l count := by
  induction count generalizing m st l with
  | zero => rfl
  | succ count ih =>
    cases l with
    | nil =>
      simp only [Stack.pops, pop_of_nil h, slotsUpTo_nil_succ]
      rw [ih h]
    | cons s l =>
      have hrest := pop_spans h
      rw [pop_of_cons h] at hrest
      simp only [Stack.pops, pop_of_cons h, slotsUpTo_cons_succ]
      rw [ih hrest]

/-! ## Steps -/

namespace Cursor

/-- The cursor has the slots of `l` still before it. -/
structure Before (m : Memory ε) (c : Cursor) (l : List Slot) : Prop where
  next : c.next = l.head?
  remaining : c.remaining = l.length
  linked : m.Linked l none

theorem before_ofStack (h : st.Spans m l) : (ofStack st).Before m l :=
  ⟨h.head, h.length, h.linked⟩

theorem Before.step_nil (h : c.Before m []) : c.step m = (none, c) := by
  have hnext : c.next = none := h.next
  simp only [step, hnext]

theorem Before.step_cons {s : Slot} (h : c.Before m (s :: l)) :
    c.step m = (some s, ⟨l.head?, l.length⟩) := by
  have hnext : c.next = some s := h.next
  have hlink : m.next? s = l.head? := by simp [next?_eq_link?, h.linked.1]
  simp only [step, hnext, hlink, h.remaining, List.length_cons, Nat.add_sub_cancel]

theorem Before.rest {s : Slot} (h : c.Before m (s :: l)) :
    Before m ⟨l.head?, l.length⟩ l :=
  ⟨rfl, rfl, h.linked.2⟩

theorem Before.of_cells (h : c.Before m l) (hcells : m'.cells = m.cells) : c.Before m' l :=
  ⟨h.next, h.remaining, h.linked.frame fun s _ => by rw [link?, link?, cell?, cell?, hcells]⟩

theorem Before.steps (h : c.Before m l) (count : Nat) :
    (c.steps m count).1 = slotsUpTo l count ∧ (c.steps m count).2.Before m (l.drop count) := by
  induction count generalizing c l with
  | zero => exact ⟨rfl, h⟩
  | succ count ih =>
    cases l with
    | nil =>
      obtain ⟨hanswers, hbefore⟩ := ih h
      simp only [Cursor.steps, h.step_nil, slotsUpTo_nil_succ, hanswers]
      rw [List.drop_nil] at hbefore ⊢
      exact ⟨trivial, hbefore⟩
    | cons s l =>
      obtain ⟨hanswers, hbefore⟩ := ih h.rest
      simp only [Cursor.steps, h.step_cons, slotsUpTo_cons_succ, hanswers]
      exact ⟨trivial, hbefore⟩

theorem Before.step_eq_none_iff (h : c.Before m l) : (c.step m).1 = none ↔ l = [] := by
  cases l with
  | nil => simp [h.step_nil]
  | cons s l => simp [h.step_cons]

theorem Before.step_counts (h : c.Before m l) {s : Slot} (hs : (c.step m).1 = some s) :
    (c.step m).2.remaining + 1 = c.remaining := by
  cases l with
  | nil =>
    rw [h.step_nil] at hs
    cases hs
  | cons t l => rw [h.step_cons, h.remaining, List.length_cons]

theorem steps_of_cells (h : m'.cells = m.cells) (c : Cursor) (count : Nat) :
    c.steps m' count = c.steps m count := by
  have hnext : m'.next? = m.next? := by
    funext s
    rw [next?, next?, cell?, cell?, h]
  induction count generalizing c with
  | zero => rfl
  | succ count ih => simp only [steps, step, hnext, ih]

end Cursor

/-! ## Writing on the way -/

/-- What becomes of a value when a content is written to it, if there is one. -/
def Content.onto? (content : Option (Content ε)) (v : Array ε) : Array ε :=
  match content with
  | none => v
  | some content => content.onto v

/-- The slots were written to, one content each in their order, and nothing else was changed. -/
structure WrittenAlong (m : Memory ε) (l : List Slot) (contents : List (Content ε))
    (m' : Memory ε) : Prop where
  cells : m'.cells = m.cells
  value : ∀ (i : Nat) s, l[i]? = some s → m'.value s = Content.onto? contents[i]? (m.value s)
  others : ∀ s, s ∉ l → m'.value s = m.value s

theorem WrittenAlong.refl (m : Memory ε) (l : List Slot) : WrittenAlong m l [] m :=
  ⟨rfl, fun _ _ _ => rfl, fun _ _ => rfl⟩

theorem WrittenAlong.cons {s : Slot} {content : Content ε} {contents : List (Content ε)}
    (hl : m.Laid) (hs : s.index < m.size) (hn : s ∉ l)
    (h : WrittenAlong (content.write m s) l contents m') :
    WrittenAlong m (s :: l) (content :: contents) m' := by
  have hwritten : (content.write m s).value s = content.onto (m.value s) := by
    obtain ⟨cell, hcell⟩ := exists_cell? hs
    exact Content.value_write_self hl hcell content
  refine ⟨h.cells.trans (cells_write m s content), fun i t ht => ?_, fun t ht => ?_⟩
  · cases i with
    | zero =>
      obtain rfl : s = t := Option.some.inj ht
      rw [h.others s hn, hwritten]
      rfl
    | succ i =>
      rw [List.getElem?_cons_succ] at ht ⊢
      have hne : s ≠ t := fun he => hn (he ▸ List.mem_of_getElem? ht)
      rw [h.value i t ht, value_write_of_ne hl hne]
  · rw [List.mem_cons, not_or] at ht
    obtain ⟨hne, ht⟩ := ht
    rw [h.others t ht, value_write_of_ne hl (Ne.symm hne)]

theorem Cursor.Before.writeAlong (hl : m.Laid) (h : c.Before m l) (hn : l.Nodup)
    (contents : List (Content ε)) :
    WrittenAlong m l contents (Session.writeAlong m c contents).1 ∧
      (Session.writeAlong m c contents).2 = (c.steps m contents.length).2 := by
  induction contents generalizing m c l with
  | nil => exact ⟨.refl m l, rfl⟩
  | cons content contents ih =>
    cases l with
    | nil =>
      obtain ⟨hwritten, hcursor⟩ := ih hl h hn
      simp only [Session.writeAlong, h.step_nil, List.length_cons, Cursor.steps]
      exact ⟨⟨hwritten.cells, by simp, hwritten.others⟩, hcursor⟩
    | cons s l =>
      obtain ⟨hs, hn⟩ := List.nodup_cons.1 hn
      have hcells := cells_write m s content
      obtain ⟨hwritten, hcursor⟩ := ih (hl.write s content) (h.rest.of_cells hcells) hn
      rw [steps_of_cells hcells] at hcursor
      simp only [Session.writeAlong, h.step_cons, List.length_cons, Cursor.steps]
      exact ⟨hwritten.cons hl (h.linked.lt_size s List.mem_cons_self) hs, hcursor⟩

/-! ## The stacks of a world -/

namespace World

/-- Whatever was pushed, split, merged or sorted before, a cursor on a stack answers as pops would,
with each of its slots once, and then with none. The links end there for whoever follows them,
also when the slots are made pristine on the way. The cursor's count is never less than the slots to
come. Contents that are written on the way come into the values of these slots, one each, and
nothing else is changed. -/
theorem iteration_agrees {w : World ε} (h : w.Reachable) {st : Stack}
    (hst : .chain st ∈ w.pieces) :
    (∀ count, ((Cursor.ofStack st).steps w.memory count).1 = (st.pops w.memory count).1 ∧
      (st.pops w.memory count).1 = slotsUpTo (st.slots w.memory) count) ∧
    ((st.slots w.memory).Nodup ∧ (st.slots w.memory).length = st.length ∧
      (∀ fuel, st.length ≤ fuel → w.memory.chainUpTo fuel st.head = st.slots w.memory) ∧
      ∀ id v l, st.slots (Call.cleanAll id v w.memory l).1 = st.slots w.memory) ∧
    (∀ k ≤ st.length,
      ((Cursor.ofStack st).steps w.memory k).2.sizeHint = (st.length - k, st.length - k)) ∧
    (∀ k s, (((Cursor.ofStack st).steps w.memory k).2.step w.memory).1 = some s →
      (((Cursor.ofStack st).steps w.memory k).2.step w.memory).2.remaining + 1 =
        ((Cursor.ofStack st).steps w.memory k).2.remaining) ∧
    (∀ k, (((Cursor.ofStack st).steps w.memory k).2.step w.memory).1 = none ↔ st.length ≤ k) ∧
    ∀ contents, WrittenAlong w.memory (st.slots w.memory) contents
        (Session.writeAlong w.memory (Cursor.ofStack st) contents).1 ∧
      (Session.writeAlong w.memory (Cursor.ofStack st) contents).2 =
        ((Cursor.ofStack st).steps w.memory contents.length).2 ∧
      ∀ other ∈ w.pieces,
        other.slots (Session.writeAlong w.memory (Cursor.ofStack st) contents).1 =
          other.slots w.memory := by
  have hspans : st.Spans w.memory (st.slots w.memory) :=
    (whole_of_reachable h).partition.sound (.chain st) hst
  have hlaid := (tended_of_reachable h).arena.laid
  have hsteps := (Cursor.before_ofStack hspans).steps
  have hlength := hspans.length
  refine ⟨fun count => ⟨?_, hspans.pops count⟩, ⟨hspans.nodup, hlength.symm, fun fuel hf => ?_,
    fun id v l => ?_⟩, fun k hk => ?_, fun k s hs => (hsteps k).2.step_counts hs, fun k => ?_,
    fun contents => ?_⟩
  · rw [(hsteps count).1, hspans.pops count]
  · rw [hspans.head, hspans.linked.chainUpTo, List.take_of_length_le (by omega)]
  · exact chain_of_cells (Call.cells_cleanAll id v w.memory l) st.head
  · rw [Cursor.sizeHint, (hsteps k).2.remaining, List.length_drop, hlength]
  · rw [(hsteps k).2.step_eq_none_iff, List.drop_eq_nil_iff, hlength]
  · obtain ⟨hwritten, hcursor⟩ :=
      (Cursor.before_ofStack hspans).writeAlong hlaid hspans.nodup contents
    exact ⟨hwritten, hcursor, fun other _ => other.slots_of_cells hwritten.cells⟩

theorem iteration_agrees_growing :
    ∃ st, growing.Reachable ∧ .chain st ∈ growing.pieces ∧ st.length = 4 ∧
      ((Cursor.ofStack st).steps growing.memory 5).1 =
        [some ⟨5⟩, some ⟨4⟩, some ⟨3⟩, some ⟨2⟩, none] ∧
      ((Cursor.ofStack st).steps growing.memory 3).2.sizeHint = (1, 1) ∧
      WrittenAlong growing.memory [⟨5⟩, ⟨4⟩, ⟨3⟩, ⟨2⟩] [.all 8, .all 9]
        (Session.writeAlong growing.memory (Cursor.ofStack st) [.all 8, .all 9]).1 := by
  have hmem : .chain ⟨some ⟨5⟩, some ⟨2⟩, 4⟩ ∈ growing.pieces := by decide +kernel
  have hslots : Stack.slots growing.memory ⟨some ⟨5⟩, some ⟨2⟩, 4⟩ = [⟨5⟩, ⟨4⟩, ⟨3⟩, ⟨2⟩] := by
    decide +kernel
  obtain ⟨hanswers, -, hhint, -, -, hwritten⟩ := iteration_agrees growing_reachable hmem
  obtain ⟨hsame, hpops⟩ := hanswers 5
  obtain ⟨hwritten, -⟩ := hwritten [.all 8, .all 9]
  rw [hslots] at hpops hwritten
  exact ⟨_, growing_reachable, hmem, rfl, hsame.trans hpops, hhint 3 (by decide), hwritten⟩

end World

end SlotPool
