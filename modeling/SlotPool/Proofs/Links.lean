import SlotPool.Stack.Ordered
import Mathlib.Data.List.Perm.Subperm
import Mathlib.Data.List.Nodup
import Mathlib.Tactic.Common

/-!
# Links between slots

Slots that are linked one to the next, as a list, and what a change of some links leaves as it was.
-/

namespace SlotPool.Memory

variable {ε : Type}

def link? (m : Memory ε) (s : Slot) : Option (Option Slot) := (m.cell? s).map (·.next)

def slots (m : Memory ε) : List Slot := (List.range m.size).map Slot.mk

/-- The memory as if no slot were in a stack. -/
def unlinked (m : Memory ε) : Memory ε :=
  { m with cells := m.cells.map fun c => { c with next := none } }

/-- `count` slots that lie side by side, from `first` on. -/
def sideBySide (first count : Nat) : List Slot := (List.range' first count).map Slot.mk

theorem mem_sideBySide (first count : Nat) (s : Slot) :
    s ∈ sideBySide first count ↔ first ≤ s.index ∧ s.index < first + count := by
  simp only [sideBySide, List.mem_map, List.mem_range'_1]
  constructor
  · rintro ⟨i, hi, rfl⟩
    exact hi
  · intro h
    exact ⟨s.index, h, rfl⟩

theorem sideBySide_succ (first count : Nat) :
    sideBySide first (count + 1) = ⟨first⟩ :: sideBySide (first + 1) count := by
  simp [sideBySide, List.range'_succ]

/-! ## One link -/

theorem next?_eq_link? (m : Memory ε) (s : Slot) : m.next? s = (m.link? s).join := by
  unfold next? link?
  cases m.cell? s <;> rfl

theorem link?_isSome (m : Memory ε) (s : Slot) : (m.link? s).isSome ↔ s.index < m.size := by
  simp [link?, cell?, size]

theorem lt_size_of_link? (m : Memory ε) (s : Slot) (n : Option Slot) (h : m.link? s = some n) :
    s.index < m.size :=
  (link?_isSome m s).1 (by simp [h])

theorem mem_slots (m : Memory ε) (s : Slot) : s ∈ m.slots ↔ s.index < m.size := by
  simp only [slots, List.mem_map, List.mem_range]
  constructor
  · rintro ⟨i, hi, rfl⟩
    exact hi
  · intro h
    exact ⟨s.index, h, rfl⟩

theorem slots_nodup (m : Memory ε) : m.slots.Nodup := by
  refine List.Nodup.map ?_ List.nodup_range
  intro i j h
  exact congrArg Slot.index h

theorem link?_setNext (m : Memory ε) (s : Slot) (n : Option Slot) (h : s.index < m.size) :
    (m.setNext s n).link? s = some n := by
  simp only [size] at h
  simp [link?, cell?, setNext, Array.getElem?_modify, Array.getElem?_eq_getElem h]

theorem link?_setNext_ne (m : Memory ε) (s t : Slot) (n : Option Slot) (h : t ≠ s) :
    (m.setNext s n).link? t = m.link? t := by
  have hi : s.index ≠ t.index := fun he => h (by cases s; cases t; simp_all)
  simp [link?, cell?, setNext, Array.getElem?_modify, hi]

@[simp]
theorem unlinked_setNext (m : Memory ε) (s : Slot) (n : Option Slot) :
    (m.setNext s n).unlinked = m.unlinked := by
  simp only [unlinked, setNext, mk.injEq, true_and]
  apply Array.ext_getElem?
  intro i
  rw [Array.getElem?_map, Array.getElem?_map, Array.getElem?_modify]
  by_cases hi : s.index = i
  · rw [if_pos hi, Option.map_map]
    rfl
  · rw [if_neg hi]

/-! ## Changed links -/

/-- At most the links of the slots in `l` were changed. -/
structure Relinks (m m' : Memory ε) (l : List Slot) : Prop where
  unlinked : m'.unlinked = m.unlinked
  link : ∀ s, s ∉ l → m'.link? s = m.link? s

theorem Relinks.refl (m : Memory ε) (l : List Slot) : Relinks m m l := ⟨rfl, fun _ _ => rfl⟩

theorem Relinks.mono {m m' : Memory ε} {l k : List Slot} (h : Relinks m m' l) (hs : l ⊆ k) :
    Relinks m m' k :=
  ⟨h.unlinked, fun s hk => h.link s fun hl => hk (hs hl)⟩

theorem Relinks.trans {m m' m'' : Memory ε} {l : List Slot} (h : Relinks m m' l)
    (h' : Relinks m' m'' l) : Relinks m m'' l :=
  ⟨h'.unlinked.trans h.unlinked, fun s hs => (h'.link s hs).trans (h.link s hs)⟩

theorem relinks_setNext (m : Memory ε) (s : Slot) (n : Option Slot) :
    Relinks m (m.setNext s n) [s] :=
  ⟨unlinked_setNext m s n, fun t ht => link?_setNext_ne m s t n (by simpa using ht)⟩

theorem unlinked_cell? (m : Memory ε) (s : Slot) :
    m.unlinked.cell? s = (m.cell? s).map fun c => { c with next := none } := by
  simp [unlinked, cell?]

theorem cell?_of_unlinked {m m' : Memory ε} (h : m'.unlinked = m.unlinked) {s : Slot} {c : Cell}
    (hc : m.cell? s = some c) :
    ∃ c', m'.cell? s = some c' ∧ c'.run = c.run ∧ c'.owner = c.owner := by
  have hcell := congrArg (fun m : Memory ε => m.cell? s) h
  simp only [unlinked_cell?, hc, Option.map_some] at hcell
  obtain ⟨c', hc', he⟩ := Option.map_eq_some_iff.1 hcell
  have hrun := congrArg Cell.run he
  have howner := congrArg Cell.owner he
  exact ⟨c', hc', hrun, howner⟩

theorem arrays_of_unlinked {m m' : Memory ε} (h : m'.unlinked = m.unlinked) :
    m'.arrays = m.arrays := by
  have := congrArg (fun m : Memory ε => m.arrays) h
  exact this

theorem size_of_unlinked {m m' : Memory ε} (h : m'.unlinked = m.unlinked) : m'.size = m.size := by
  have := congrArg (fun m : Memory ε => m.cells.size) h
  simpa [unlinked, size] using this

theorem slots_of_unlinked {m m' : Memory ε} (h : m'.unlinked = m.unlinked) :
    m'.slots = m.slots := by
  rw [slots, slots, size_of_unlinked h]

theorem run_of_unlinked {m m' : Memory ε} (h : m'.unlinked = m.unlinked) (s : Slot) :
    (m'.cell? s).map (·.run) = (m.cell? s).map (·.run) := by
  have := congrArg (fun m : Memory ε => (m.cell? s).map (·.run)) h
  simpa [unlinked_cell?, Function.comp_def] using this

theorem owner?_of_unlinked {m m' : Memory ε} (h : m'.unlinked = m.unlinked) (s : Slot) :
    m'.owner? s = m.owner? s := by
  have := congrArg (fun m : Memory ε => (m.cell? s).map (·.owner)) h
  simpa [unlinked_cell?, owner?, Function.comp_def] using this

theorem value_eq_elements (m : Memory ε) (s : Slot) :
    m.value s = (((m.cell? s).map (·.run)).map m.elements).getD #[] := by
  unfold value
  cases m.cell? s <;> rfl

theorem value_of_unlinked {m m' : Memory ε} (h : m'.unlinked = m.unlinked) (s : Slot) :
    m'.value s = m.value s := by
  have he : m'.elements = m.elements := by
    funext r
    simp only [elements, arrays_of_unlinked h]
  rw [value_eq_elements, value_eq_elements, run_of_unlinked h, he]

/-! ## Chains -/

/-- Each slot of the list is linked to the one after it, and the last one to `stop`. -/
def Linked (m : Memory ε) : List Slot → Option Slot → Prop
  | [], _ => True
  | s :: rest, stop => m.link? s = some (rest.head?.or stop) ∧ m.Linked rest stop

theorem Linked.lt_size {m : Memory ε} {l : List Slot} {stop : Option Slot} (h : m.Linked l stop) :
    ∀ s ∈ l, s.index < m.size := by
  induction l with
  | nil => simp
  | cons a rest ih =>
    intro s hs
    rcases List.mem_cons.1 hs with rfl | hs
    · exact lt_size_of_link? m s _ h.1
    · exact ih h.2 s hs

theorem Linked.frame {m m' : Memory ε} {l : List Slot} {stop : Option Slot} (h : m.Linked l stop)
    (hf : ∀ s ∈ l, m'.link? s = m.link? s) : m'.Linked l stop := by
  induction l with
  | nil => trivial
  | cons a rest ih =>
    refine ⟨?_, ih h.2 fun s hs => hf s (List.mem_cons_of_mem _ hs)⟩
    rw [hf a List.mem_cons_self, h.1]

theorem linked_append (m : Memory ε) (l k : List Slot) (stop : Option Slot) :
    m.Linked (l ++ k) stop ↔ m.Linked l (k.head?.or stop) ∧ m.Linked k stop := by
  induction l with
  | nil => simp [Linked]
  | cons a rest ih =>
    simp only [List.cons_append, Linked, ih, List.head?_append, Option.or_assoc, and_assoc]

theorem Linked.setNext_last {m : Memory ε} {l : List Slot} {s : Slot} {stop : Option Slot}
    (h : m.Linked (l ++ [s]) stop) (hs : s ∉ l) (stop' : Option Slot) :
    (m.setNext s stop').Linked (l ++ [s]) stop' := by
  rw [linked_append] at h ⊢
  refine ⟨h.1.frame fun t ht => link?_setNext_ne m s t _ ?_, ?_, trivial⟩
  · rintro rfl
    exact hs ht
  · exact link?_setNext m s _ (lt_size_of_link? m s _ h.2.1)

theorem chain_of_cells {m m' : Memory ε} (h : m'.cells = m.cells) (start : Option Slot) :
    m'.chain start = m.chain start := by
  have hnext : m'.next? = m.next? := by
    funext s
    rw [next?, next?, cell?, cell?, h]
  have hup : ∀ n start, m'.chainUpTo n start = m.chainUpTo n start := by
    intro n
    induction n with
    | zero => simp [chainUpTo]
    | succ n ih =>
      intro start
      cases start with
      | none => rfl
      | some s => rw [chainUpTo, chainUpTo, hnext, ih]
  rw [chain, chain, size, size, h, hup]

theorem chain_none (m : Memory ε) : m.chain none = [] := by
  unfold chain
  cases m.size <;> rfl

theorem Linked.chainUpTo {m : Memory ε} {l : List Slot} (h : m.Linked l none) (n : Nat) :
    m.chainUpTo n l.head? = l.take n := by
  induction l generalizing n with
  | nil => cases n <;> simp [Memory.chainUpTo]
  | cons a rest ih =>
    cases n with
    | zero => simp [Memory.chainUpTo]
    | succ n =>
      have hn : m.next? a = rest.head? := by simp [next?_eq_link?, h.1]
      simp [Memory.chainUpTo, hn, ih h.2]

theorem Linked.advance? {m : Memory ε} {s : Slot} {l : List Slot} {stop : Option Slot}
    (h : m.Linked (s :: l) stop) (i : Nat) (hi : i ≤ l.length) :
    m.advance? s i = (s :: l)[i]? := by
  induction l generalizing s i with
  | nil =>
    obtain rfl : i = 0 := by simpa using hi
    rfl
  | cons a rest ih =>
    cases i with
    | zero => rfl
    | succ i =>
      have hn : m.next? s = some a := by simp [next?_eq_link?, h.1]
      rw [Memory.advance?, hn, Option.bind_some, ih h.2 i (by simpa using hi)]
      simp

theorem length_le_size (m : Memory ε) (l : List Slot) (hn : l.Nodup)
    (hm : ∀ s ∈ l, s.index < m.size) : l.length ≤ m.size := by
  have hs : l ⊆ m.slots := fun s hs => (mem_slots m s).2 (hm s hs)
  simpa [slots] using (hn.subperm hs).length_le

theorem Linked.chain {m : Memory ε} {l : List Slot} (h : m.Linked l none) (hn : l.Nodup) :
    m.chain l.head? = l := by
  rw [Memory.chain, h.chainUpTo, List.take_of_length_le (length_le_size m l hn h.lt_size)]

end SlotPool.Memory
