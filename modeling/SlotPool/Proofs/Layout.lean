import SlotPool.Item
import SlotPool.Proofs.Links

/-!
# Where values lie

`Memory.Laid` says that the runs of different slots have no element in common and lie inside their
arrays. What is written to one slot then leaves the values of all others, and a new block has the
values that it was made with.
-/

namespace SlotPool.Memory

variable {ε : Type}

/-! ## Writing to an array -/

@[simp]
theorem size_fillFrom (a : Array ε) (start : Nat) (v : ε) (count : Nat) :
    (fillFrom a start v count).size = a.size := by
  induction count generalizing a start with
  | zero => rfl
  | succ count ih => simp [fillFrom, ih]

theorem getElem?_fillFrom_of_lt (a : Array ε) (start : Nat) (v : ε) (count i : Nat)
    (hi : i < start) : (fillFrom a start v count)[i]? = a[i]? := by
  induction count generalizing a start with
  | zero => rfl
  | succ count ih =>
    rw [fillFrom, ih _ _ (by omega), Array.getElem?_setIfInBounds_ne (by omega)]

theorem getElem?_fillFrom_of_le (a : Array ε) (start : Nat) (v : ε) (count i : Nat)
    (hi : start + count ≤ i) : (fillFrom a start v count)[i]? = a[i]? := by
  induction count generalizing a start with
  | zero => rfl
  | succ count ih =>
    rw [fillFrom, ih _ _ (by omega), Array.getElem?_setIfInBounds_ne (by omega)]

theorem getElem?_fillFrom (a : Array ε) (start : Nat) (v : ε) (count i : Nat) (hs : start ≤ i)
    (hi : i < start + count) (ha : i < a.size) : (fillFrom a start v count)[i]? = some v := by
  induction count generalizing a start with
  | zero => omega
  | succ count ih =>
    rw [fillFrom]
    rcases Nat.eq_or_lt_of_le hs with rfl | hlt
    · rw [getElem?_fillFrom_of_lt _ _ _ _ _ (by omega), Array.getElem?_setIfInBounds_self_of_lt ha]
    · exact ih _ _ (by omega) (by omega) (by simpa using ha)

@[simp]
theorem size_writeFrom (a : Array ε) (start : Nat) (vs : List ε) :
    (writeFrom a start vs).size = a.size := by
  induction vs generalizing a start with
  | nil => rfl
  | cons v vs ih => simp [writeFrom, ih]

theorem getElem?_writeFrom_of_lt (a : Array ε) (start : Nat) (vs : List ε) (i : Nat)
    (hi : i < start) : (writeFrom a start vs)[i]? = a[i]? := by
  induction vs generalizing a start with
  | nil => rfl
  | cons v vs ih =>
    rw [writeFrom, ih _ _ (by omega), Array.getElem?_setIfInBounds_ne (by omega)]

theorem getElem?_writeFrom_of_le (a : Array ε) (start : Nat) (vs : List ε) (i : Nat)
    (hi : start + vs.length ≤ i) : (writeFrom a start vs)[i]? = a[i]? := by
  induction vs generalizing a start with
  | nil => rfl
  | cons v vs ih =>
    simp only [List.length_cons] at hi
    rw [writeFrom, ih _ _ (by omega), Array.getElem?_setIfInBounds_ne (by omega)]

theorem getElem?_writeFrom (a : Array ε) (start : Nat) (vs : List ε) (i : Nat)
    (hi : i < vs.length) (ha : start + vs.length ≤ a.size) :
    (writeFrom a start vs)[start + i]? = vs[i]? := by
  induction vs generalizing a start i with
  | nil => simp at hi
  | cons v vs ih =>
    simp only [List.length_cons] at hi ha
    rw [writeFrom]
    cases i with
    | zero =>
      rw [getElem?_writeFrom_of_lt _ _ _ _ (by omega), Nat.add_zero,
        Array.getElem?_setIfInBounds_self_of_lt (by omega)]
      rfl
    | succ i =>
      rw [show start + (i + 1) = start + 1 + i by omega, ih _ _ i (by omega) (by simp; omega)]
      rfl

/-- The array is changed inside the run only. -/
def KeepsOutside (r : Run) (change : Array ε → Array ε) : Prop :=
  ∀ a, (change a).size = a.size ∧
    ∀ i, i < r.start ∨ r.start + r.length ≤ i → (change a)[i]? = a[i]?

theorem keepsOutside_fill (r : Run) (v : ε) :
    KeepsOutside r fun a => fillFrom a r.start v r.length := by
  refine fun a => ⟨by simp, fun i hi => ?_⟩
  rcases hi with hi | hi
  · exact getElem?_fillFrom_of_lt _ _ _ _ _ hi
  · exact getElem?_fillFrom_of_le _ _ _ _ _ hi

theorem keepsOutside_write (r : Run) (vs : List ε) :
    KeepsOutside r fun a => writeFrom a r.start (vs.take r.length) := by
  refine fun a => ⟨by simp, fun i hi => ?_⟩
  rcases hi with hi | hi
  · exact getElem?_writeFrom_of_lt _ _ _ _ hi
  · refine getElem?_writeFrom_of_le _ _ _ _ ?_
    rw [List.length_take]
    omega

/-! ## Runs -/

/-- Runs lie inside their arrays, and those of different slots have no element in common. -/
structure Laid (m : Memory ε) : Prop where
  within : ∀ s c, m.cell? s = some c →
    ∃ a, m.arrays[c.run.array]? = some a ∧ c.run.start + c.run.length ≤ a.size
  apart : ∀ s t c d, s ≠ t → m.cell? s = some c → m.cell? t = some d →
    c.run.array = d.run.array →
    c.run.start + c.run.length ≤ d.run.start ∨ d.run.start + d.run.length ≤ c.run.start

theorem laid_empty : Laid ({} : Memory ε) := by
  constructor <;> simp [cell?]

theorem Laid.of_unlinked {m m' : Memory ε} (h : m.Laid) (hu : m'.unlinked = m.unlinked) :
    m'.Laid := by
  have hrun : ∀ s c', m'.cell? s = some c' → ∃ c, m.cell? s = some c ∧ c.run = c'.run := by
    intro s c' hc
    have := run_of_unlinked hu s
    rw [hc] at this
    cases hm : m.cell? s with
    | none => simp [hm] at this
    | some c => exact ⟨c, rfl, by simpa [hm] using this.symm⟩
  have harr := arrays_of_unlinked hu
  constructor
  · intro s c' hc
    obtain ⟨c, hm, hr⟩ := hrun s c' hc
    rw [← hr, harr]
    exact h.within s c hm
  · intro s t c' d' hst hc hd
    obtain ⟨c, hm, hr⟩ := hrun s c' hc
    obtain ⟨d, hn, hr'⟩ := hrun t d' hd
    rw [← hr, ← hr']
    exact h.apart s t c d hst hm hn

/-! ## Changing a run -/

theorem cells_modifyRun (m : Memory ε) (s : Slot) (change : Run → Array ε → Array ε) :
    (m.modifyRun s change).cells = m.cells := by
  unfold modifyRun
  cases m.cell? s <;> rfl

theorem cell?_modifyRun (m : Memory ε) (s t : Slot) (change : Run → Array ε → Array ε) :
    (m.modifyRun s change).cell? t = m.cell? t := by
  rw [cell?, cells_modifyRun, cell?]

theorem Laid.modifyRun {m : Memory ε} (h : m.Laid) (s : Slot)
    (change : Run → Array ε → Array ε) (hk : ∀ r, KeepsOutside r (change r)) :
    (m.modifyRun s change).Laid := by
  constructor
  · intro t c hc
    rw [cell?_modifyRun] at hc
    obtain ⟨a, ha, hle⟩ := h.within t c hc
    unfold Memory.modifyRun
    cases hs : m.cell? s with
    | none => exact ⟨a, ha, hle⟩
    | some d =>
      simp only [Array.getElem?_modify, ha]
      split
      · exact ⟨_, rfl, by rw [(hk d.run a).1]; exact hle⟩
      · exact ⟨a, rfl, hle⟩
  · intro t u c d htu hc hd
    rw [cell?_modifyRun] at hc hd
    exact h.apart t u c d htu hc hd

theorem value_of_cell? {m : Memory ε} {s : Slot} {c : Cell} (hc : m.cell? s = some c) :
    m.value s = m.elements c.run := by
  simp [value, hc]

theorem elements_of_array {m : Memory ε} {r : Run} {a : Array ε}
    (ha : m.arrays[r.array]? = some a) :
    m.elements r = a.extract r.start (r.start + r.length) := by
  simp [elements, ha]

theorem value_modifyRun_of_ne {m : Memory ε} (h : m.Laid) {s t : Slot} (hst : s ≠ t)
    (change : Run → Array ε → Array ε) (hk : ∀ r, KeepsOutside r (change r)) :
    (m.modifyRun s change).value t = m.value t := by
  cases hs : m.cell? s with
  | none => simp [modifyRun, hs]
  | some c =>
    cases ht : m.cell? t with
    | none => simp [value, cell?_modifyRun, ht]
    | some d =>
      obtain ⟨a, ha, hle⟩ := h.within t d ht
      rw [value_of_cell? ht, value_of_cell? (cell?_modifyRun m s t change ▸ ht),
        elements_of_array ha]
      by_cases he : c.run.array = d.run.array
      · have hb : (m.modifyRun s change).arrays[d.run.array]? = some (change c.run a) := by
          simp [modifyRun, hs, Array.getElem?_modify, he, ha]
        rw [elements_of_array hb]
        obtain ⟨hsize, hout⟩ := hk c.run a
        have hd := h.apart s t c d hst hs ht he
        apply Array.ext_getElem?
        intro i
        simp only [Array.getElem?_extract, hsize]
        split
        · exact hout _ (by omega)
        · rfl
      · have hb : (m.modifyRun s change).arrays[d.run.array]? = some a := by
          simp [modifyRun, hs, Array.getElem?_modify, he, ha]
        rw [elements_of_array hb]

theorem value_fill_self {m : Memory ε} (h : m.Laid) {s : Slot} {c : Cell}
    (hs : m.cell? s = some c) (v : ε) :
    (m.fill s v).value s = Array.replicate c.run.length v := by
  obtain ⟨a, ha, hle⟩ := h.within s c hs
  have hb : (m.fill s v).arrays[c.run.array]? =
      some (fillFrom a c.run.start v c.run.length) := by
    simp [fill, modifyRun, hs, Array.getElem?_modify, ha]
  have hc : (m.fill s v).cell? s = some c := by rw [fill, cell?_modifyRun, hs]
  rw [value_of_cell? hc, elements_of_array hb]
  apply Array.ext_getElem?
  intro i
  simp only [Array.getElem?_extract, size_fillFrom, Array.getElem?_replicate]
  by_cases hi : i < c.run.length
  · rw [if_pos (by omega), if_pos hi]
    exact getElem?_fillFrom _ _ _ _ _ (by omega) (by omega) (by omega)
  · rw [if_neg (by omega), if_neg hi]

theorem cells_fill (m : Memory ε) (s : Slot) (v : ε) : (m.fill s v).cells = m.cells :=
  cells_modifyRun m s _

theorem Laid.fill {m : Memory ε} (h : m.Laid) (s : Slot) (v : ε) : (m.fill s v).Laid :=
  h.modifyRun s _ fun r => keepsOutside_fill r v

theorem value_fill_of_ne {m : Memory ε} (h : m.Laid) {s t : Slot} (hst : s ≠ t) (v : ε) :
    (m.fill s v).value t = m.value t :=
  value_modifyRun_of_ne h hst _ fun r => keepsOutside_fill r v

theorem cells_write (m : Memory ε) (s : Slot) (content : Content ε) :
    (content.write m s).cells = m.cells := by
  cases content <;> exact cells_modifyRun m s _

theorem Laid.write {m : Memory ε} (h : m.Laid) (s : Slot) (content : Content ε) :
    (content.write m s).Laid := by
  cases content with
  | all v => exact h.fill s v
  | first vs => exact h.modifyRun s _ fun r => keepsOutside_write r vs

theorem value_write_of_ne {m : Memory ε} (h : m.Laid) {s t : Slot} (hst : s ≠ t)
    (content : Content ε) : (content.write m s).value t = m.value t := by
  cases content with
  | all v => exact value_fill_of_ne h hst v
  | first vs => exact value_modifyRun_of_ne h hst _ fun r => keepsOutside_write r vs

/-! ## New blocks -/

section

variable (m : Memory ε) (owner : PoolId) (count width : Nat) (v : ε)

theorem size_addBlock : (m.addBlock owner count width v).size = m.size + count := by
  simp [addBlock, blockCells, size]

theorem slots_addBlock :
    (m.addBlock owner count width v).slots = m.slots ++ sideBySide m.size count := by
  rw [slots, size_addBlock, slots, sideBySide, ← List.map_append, List.range_eq_range',
    List.range_eq_range', ← List.range'_append_1, Nat.zero_add]

theorem cell?_addBlock_of_lt {s : Slot} (hs : s.index < m.size) :
    (m.addBlock owner count width v).cell? s = m.cell? s := by
  simp only [size] at hs
  simp [addBlock, cell?, Array.getElem?_append_left hs]

theorem cell?_addBlock_new {s : Slot} (hs : s ∈ sideBySide m.size count) :
    (m.addBlock owner count width v).cell? s =
      some { run := ⟨m.arrays.size, (s.index - m.size) * width, width⟩, owner } := by
  obtain ⟨hle, hlt⟩ := (mem_sideBySide _ _ _).1 hs
  simp only [size] at hle hlt
  have hi : s.index - m.cells.size < count := by omega
  simp [addBlock, cell?, blockCells, Array.getElem?_append_right hle, hi, size]

end

theorem lt_size_of_cell? {m : Memory ε} {s : Slot} {c : Cell} (hc : m.cell? s = some c) :
    s.index < m.size := by
  obtain ⟨h, -⟩ := Array.getElem?_eq_some_iff.1 hc
  exact h

theorem cell?_addBlock {m : Memory ε} {owner : PoolId} {count width : Nat} {v : ε} {s : Slot}
    {c : Cell} (hc : (m.addBlock owner count width v).cell? s = some c) :
    m.cell? s = some c ∨ s ∈ sideBySide m.size count ∧
      c = { run := ⟨m.arrays.size, (s.index - m.size) * width, width⟩, owner } := by
  have hlt := lt_size_of_cell? hc
  rw [size_addBlock] at hlt
  by_cases hs : s.index < m.size
  · rw [cell?_addBlock_of_lt _ _ _ _ _ hs] at hc
    exact Or.inl hc
  · have hmem : s ∈ sideBySide m.size count := (mem_sideBySide _ _ _).2 ⟨by omega, hlt⟩
    rw [cell?_addBlock_new _ _ _ _ _ hmem] at hc
    exact Or.inr ⟨hmem, (Option.some.inj hc).symm⟩

theorem arrays_addBlock (m : Memory ε) (owner : PoolId) (count width : Nat) (v : ε) :
    (m.addBlock owner count width v).arrays = m.arrays.push (Array.replicate (count * width) v) :=
  rfl

theorem run_in_block {count i : Nat} (width : Nat) (hi : i < count) :
    i * width + width ≤ count * width := by
  have := Nat.mul_le_mul_right width hi
  rwa [Nat.succ_mul] at this

theorem Laid.addBlock {m : Memory ε} (h : m.Laid) (owner : PoolId) (count width : Nat) (v : ε) :
    (m.addBlock owner count width v).Laid := by
  have harr : ∀ s c, m.cell? s = some c → c.run.array < m.arrays.size := by
    intro s c hc
    obtain ⟨a, ha, -⟩ := h.within s c hc
    exact (Array.getElem?_eq_some_iff.1 ha).1
  constructor
  · intro s c hc
    rw [arrays_addBlock]
    rcases cell?_addBlock hc with hc | ⟨hs, rfl⟩
    · obtain ⟨a, ha, hle⟩ := h.within s c hc
      exact ⟨a, by rw [Array.getElem?_push, if_neg (Nat.ne_of_lt (harr s c hc)), ha], hle⟩
    · have := (mem_sideBySide _ _ _).1 hs
      exact ⟨_, Array.getElem?_push_size, by simpa using run_in_block width (by omega)⟩
  · intro s t c d hst hc hd he
    rcases cell?_addBlock hc with hc | ⟨hs, rfl⟩ <;> rcases cell?_addBlock hd with hd | ⟨ht, rfl⟩
    · exact h.apart s t c d hst hc hd he
    · exact absurd (harr s c hc) (by simp [he])
    · exact absurd (harr t d hd) (by simp [← he])
    · -- Two slots of the new block: the one with the smaller index lies before the other.
      have hs := (mem_sideBySide _ _ _).1 hs
      have ht := (mem_sideBySide _ _ _).1 ht
      have hne : s.index ≠ t.index := fun hi => hst (by cases s; cases t; simp_all)
      rcases Nat.lt_or_gt_of_ne hne with hlt | hlt
      · exact Or.inl (run_in_block width (by omega))
      · exact Or.inr (run_in_block width (by omega))

theorem value_addBlock_of_lt {m : Memory ε} (h : m.Laid) (owner : PoolId) (count width : Nat)
    (v : ε) {s : Slot} (hs : s.index < m.size) :
    (m.addBlock owner count width v).value s = m.value s := by
  have hcell := cell?_addBlock_of_lt m owner count width v hs
  cases hc : m.cell? s with
  | none => simp [value, hcell, hc]
  | some c =>
    obtain ⟨a, ha, -⟩ := h.within s c hc
    have hb : (m.addBlock owner count width v).arrays[c.run.array]? = some a := by
      rw [arrays_addBlock, Array.getElem?_push,
        if_neg (Nat.ne_of_lt (Array.getElem?_eq_some_iff.1 ha).1), ha]
    rw [value_of_cell? hc, value_of_cell? (hcell.trans hc), elements_of_array ha,
      elements_of_array hb]

theorem value_addBlock_new (m : Memory ε) (owner : PoolId) (count width : Nat) (v : ε) {s : Slot}
    (hs : s ∈ sideBySide m.size count) :
    (m.addBlock owner count width v).value s = Array.replicate width v := by
  have hb : (m.addBlock owner count width v).arrays[m.arrays.size]? =
      some (Array.replicate (count * width) v) := Array.getElem?_push_size
  rw [value_of_cell? (cell?_addBlock_new m owner count width v hs), elements_of_array hb]
  have := (mem_sideBySide _ _ _).1 hs
  have hlt : s.index - m.size < count := by omega
  have hle := run_in_block width hlt
  apply Array.ext_getElem?
  intro i
  simp only [Array.getElem?_extract, Array.getElem?_replicate, Array.size_replicate]
  by_cases hi : i < width
  · rw [if_pos (by omega), if_pos (by omega), if_pos hi]
  · rw [if_neg (by omega), if_neg hi]

/-! ## What a change leaves -/

/-- Slots keep their owners and their places in the arrays, and those that are not in `touched` keep
their values. -/
structure Keeps (m m' : Memory ε) (touched : List Slot) : Prop where
  laid : m'.Laid
  cell : ∀ s c, m.cell? s = some c →
    ∃ c', m'.cell? s = some c' ∧ c'.run = c.run ∧ c'.owner = c.owner
  value : ∀ s, s.index < m.size → s ∉ touched → m'.value s = m.value s

theorem exists_cell? {m : Memory ε} {s : Slot} (hs : s.index < m.size) : ∃ c, m.cell? s = some c :=
  ⟨_, Array.getElem?_eq_getElem hs⟩

namespace Keeps

variable {m m' m'' : Memory ε} {touched : List Slot}

theorem refl (hl : m.Laid) (touched : List Slot) : Keeps m m touched :=
  ⟨hl, fun _ c hc => ⟨c, hc, rfl, rfl⟩, fun _ _ _ => rfl⟩

theorem size_le (h : Keeps m m' touched) (s : Slot) (hs : s.index < m.size) :
    s.index < m'.size := by
  obtain ⟨c, hc⟩ := exists_cell? hs
  obtain ⟨c', hc', -⟩ := h.cell s c hc
  exact lt_size_of_cell? hc'

theorem owner? (h : Keeps m m' touched) (s : Slot) (hs : s.index < m.size) :
    m'.owner? s = m.owner? s := by
  obtain ⟨c, hc⟩ := exists_cell? hs
  obtain ⟨c', hc', -, ho⟩ := h.cell s c hc
  rw [Memory.owner?, Memory.owner?, hc, hc', Option.map_some, Option.map_some, ho]

theorem trans (h : Keeps m m' touched) (h' : Keeps m' m'' touched) : Keeps m m'' touched := by
  refine ⟨h'.laid, fun s c hc => ?_, fun s hs ht => ?_⟩
  · obtain ⟨c', hc', hr, ho⟩ := h.cell s c hc
    obtain ⟨c'', hc'', hr', ho'⟩ := h'.cell s c' hc'
    exact ⟨c'', hc'', hr'.trans hr, ho'.trans ho⟩
  · rw [h'.value s (h.size_le s hs) ht, h.value s hs ht]

theorem mono {touched' : List Slot} (h : Keeps m m' touched) (ht : touched ⊆ touched') :
    Keeps m m' touched' :=
  { h with value := fun s hs hn => h.value s hs fun hm => hn (ht hm) }

theorem of_unlinked (hl : m.Laid) (hu : m'.unlinked = m.unlinked) (touched : List Slot) :
    Keeps m m' touched :=
  ⟨hl.of_unlinked hu, fun _ _ => cell?_of_unlinked hu, fun s _ _ => value_of_unlinked hu s⟩

theorem of_cells (hl : m'.Laid) (hc : m'.cells = m.cells)
    (hv : ∀ s, s ∉ touched → m'.value s = m.value s) : Keeps m m' touched := by
  refine ⟨hl, fun s c hs => ⟨c, ?_, rfl, rfl⟩, fun s _ ht => hv s ht⟩
  rw [cell?, hc]
  exact hs

theorem write (hl : m.Laid) (s : Slot) (content : Content ε) :
    Keeps m (content.write m s) [s] := by
  apply of_cells (hl.write s content) (cells_write m s content)
  intro t ht
  exact value_write_of_ne hl (by simpa using Ne.symm (List.ne_of_not_mem_cons ht)) content

theorem addBlock (hl : m.Laid) (owner : PoolId) (count width : Nat) (v : ε)
    (touched : List Slot) : Keeps m (m.addBlock owner count width v) touched := by
  refine ⟨hl.addBlock owner count width v, fun s c hc => ⟨c, ?_, rfl, rfl⟩, fun s hs _ => ?_⟩
  · rw [cell?_addBlock_of_lt _ _ _ _ _ (lt_size_of_cell? hc), hc]
  · exact value_addBlock_of_lt hl owner count width v hs

end Keeps

end SlotPool.Memory
