import SlotPool.Proofs.Conservation

/-!
# Calls keep free slots clean

A slot is clean for a pool if the pool provided it and its value is pristine. Whatever a call does,
the slots on the free stack stay clean, and so do those that the call may hand to its caller or put
on the free stack.
-/

namespace SlotPool

open Memory

variable {ε : Type}

/-- The pool provided the slot, and its value is pristine. -/
structure Clean (m : Memory ε) (id : PoolId) (strategy : Strategy ε) (s : Slot) : Prop where
  owner : m.owner? s = some id
  value : m.value s = Array.replicate strategy.shape.width strategy.pristine

theorem Clean.lt_size {m : Memory ε} {id : PoolId} {strategy : Strategy ε} {s : Slot}
    (h : Clean m id strategy s) : s.index < m.size := by
  obtain ⟨c, hc, -⟩ := Option.map_eq_some_iff.1 h.owner
  exact lt_size_of_cell? hc

theorem Clean.keeps {m m' : Memory ε} {id : PoolId} {strategy : Strategy ε} {s : Slot}
    {touched : List Slot} (h : Clean m id strategy s) (hk : Keeps m m' touched)
    (hs : s ∉ touched) : Clean m' id strategy s :=
  ⟨(hk.owner? s h.lt_size).trans h.owner, (hk.value s h.lt_size hs).trans h.value⟩

def Cell.IsOf (c : Cell) (id : PoolId) (strategy : Strategy ε) : Prop :=
  c.owner = id ∧ c.run.length = strategy.shape.width

namespace Call

/-! ## Cleaning -/

section

variable (id : PoolId) (v : ε)

theorem cleanAll_keeps {m : Memory ε} (hl : m.Laid) (l : List Slot) :
    Keeps m (cleanAll id v m l).1 l := by
  induction l generalizing m with
  | nil => exact Keeps.refl hl []
  | cons s l ih =>
    unfold cleanAll
    cases m.owner? s with
    | none => exact (ih hl).mono (List.subset_cons_self s l)
    | some owner =>
      dsimp only
      split
      · have hfill : Keeps m (m.fill s v) (s :: l) :=
          (Keeps.write hl s (.all v)).mono (by simp)
        exact hfill.trans ((ih hfill.laid).mono (List.subset_cons_self s l))
      · exact Keeps.refl hl _

theorem cleanAll_value {m : Memory ε} (hl : m.Laid) (l : List Slot)
    (h : (cleanAll id v m l).2 = none) (s : Slot) (hs : s ∈ l) (c : Cell)
    (hc : m.cell? s = some c) :
    c.owner = id ∧ (cleanAll id v m l).1.value s = Array.replicate c.run.length v := by
  induction l generalizing m with
  | nil => simp at hs
  | cons t l ih =>
    have hcell : (m.fill t v).cell? s = some c := by rw [cell?, cells_fill, ← hc, cell?]
    by_cases hsl : s ∈ l
    · unfold cleanAll at h ⊢
      cases ho : m.owner? t with
      | none =>
        simp only [ho] at h
        exact ih hl h hsl hc
      | some owner =>
        simp only [ho] at h ⊢
        split at h
        · rename_i he
          rw [if_pos he]
          exact ih (hl.fill t v) h hsl hcell
        · simp at h
    · obtain rfl : s = t := by simpa [hsl] using hs
      have ho : m.owner? s = some c.owner := by rw [owner?, hc, Option.map_some]
      unfold cleanAll at h ⊢
      simp only [ho] at h ⊢
      split at h
      · rename_i he
        rw [if_pos he, (cleanAll_keeps id v (hl.fill s v) l).value s (lt_size_of_cell? hcell) hsl]
        exact ⟨he, value_fill_self hl hc v⟩
      · simp at h

end

/-! ## One step -/

/-- The pieces whose slots are clean: all, but for what was just given by a client. -/
def vetted : Call → List Piece
  | cleanOne _ => []
  | cleanMany _ => []
  | c => c.pieces

theorem vetted_subset (c : Call) : c.vetted ⊆ c.pieces := by
  cases c <;> simp [vetted]

/-- The next step changes nothing but links. -/
def relinksOnly : Call → Bool
  | build _ => false
  | cleanOne _ => false
  | cleanMany _ => false
  | _ => true

theorem vetted_of_relinksOnly {c : Call} (hc : c.relinksOnly = true) : c.vetted = c.pieces := by
  cases c <;> simp [relinksOnly] at hc <;> rfl

section

variable {id : PoolId} {granted : Bool} {m m' : Memory ε} {p p' : Pool ε} {c c' : Call}
  {e : Option Event}

theorem unlinked_step (h : c.step id granted m p = (m', p', e, c'))
    (hc : c.relinksOnly = true) : m'.unlinked = m.unlinked := by
  have hm : (c.step id granted m p).1.unlinked = m.unlinked := by
    cases c with
    | popOne =>
      have hpop := Stack.unlinked_pop m p.free
      simp only [step]
      split <;> simp_all
    | popMany count =>
      have hsplit := Stack.unlinked_split m p.free count
      simp only [step]
      split
      · split <;> simp_all
      · rfl
    | carve count deficit taken fresh =>
      have hsplit := Stack.unlinked_split m fresh deficit
      simp only [step]
      split
      · rename_i m₁ needed surplus hs
        rw [hs] at hsplit
        exact (Stack.unlinked_append m₁ taken needed).trans hsplit
      · simp_all
    | publish fresh fault => exact Stack.unlinked_append m p.free fresh
    | surrender count taken surplus => exact Stack.unlinked_append m p.free surplus
    | restore taken fresh error =>
      exact (Stack.unlinked_append _ _ fresh).trans (Stack.unlinked_append m p.free taken)
    | pushOne s => exact Stack.unlinked_push m p.free s
    | appendMany st => exact Stack.unlinked_append m p.free st
    | claimGrowth =>
      simp only [step]
      split <;> rfl
    | observe left seen => cases left <;> rfl
    | build g => simp [relinksOnly] at hc
    | cleanOne s => simp [relinksOnly] at hc
    | cleanMany st => simp [relinksOnly] at hc
    | _ => rfl
  rw [h] at hm
  exact hm

theorem buildBlock_keeps (hl : m.Laid) (g : Growth) (touched : List Slot) :
    Keeps m (buildBlock id p.strategy m g).1 touched := by
  have hadd := Keeps.addBlock hl id p.strategy.blockSize p.strategy.shape.width
    p.strategy.pristine touched
  exact hadd.trans (Keeps.of_unlinked hadd.laid (Stack.unlinked_pushRange _ _ _ _) touched)

theorem step_keeps (h : c.step id granted m p = (m', p', e, c')) (hl : m.Laid) :
    Keeps m m' (c.slots m) := by
  by_cases hc : c.relinksOnly = true
  · exact Keeps.of_unlinked hl (unlinked_step h hc) _
  cases c with
  | build g =>
    obtain ⟨rfl, rfl, -, rfl⟩ := h
    exact buildBlock_keeps hl g _
  | cleanOne s =>
    obtain ⟨rfl, -⟩ := cleanOne_step h
    exact cleanAll_keeps id p.strategy.pristine hl [s]
  | cleanMany st =>
    obtain ⟨-, hst⟩ := cleanMany_step h
    split at hst
    · rw [hst.1]
      exact Keeps.refl hl _
    · rw [hst.1, slots, pieces, slotsOf_cons, slotsOf_nil, List.append_nil]
      exact cleanAll_keeps id p.strategy.pristine hl (st.slots m)
  | _ => simp [relinksOnly] at hc

theorem buildBlock_clean {g : Growth} {frame : List Piece} (hp : Partition m (g.pieces ++ frame))
    (hl : m.Laid) (hclean : ∀ s ∈ slotsOf m g.pieces, Clean m id p.strategy s) :
    ∀ s ∈ slotsOf (buildBlock id p.strategy m g).1 (buildBlock id p.strategy m g).2.pieces,
      Clean (buildBlock id p.strategy m g).1 id p.strategy s := by
  have hkeeps := Keeps.addBlock hl id p.strategy.blockSize p.strategy.shape.width
    p.strategy.pristine []
  have hu : (buildBlock id p.strategy m g).1.unlinked = _ := Stack.unlinked_pushRange
    (m.addBlock id p.strategy.blockSize p.strategy.shape.width p.strategy.pristine) g.fresh
    m.size p.strategy.blockSize
  obtain ⟨hadd, hsame⟩ := Shifts.addBlock m id p.strategy.blockSize p.strategy.shape.width
    p.strategy.pristine (g.pieces ++ frame) hp
  have hpushed := hadd.of_perm (List.perm_append_comm_assoc _ _ _)
  rw [← List.append_assoc] at hpushed
  have hperm := (buildBlock_pushes id p.strategy m g).slots_perm hpushed (size_of_unlinked hu)
  intro s hs
  refine Clean.keeps ?_ (Keeps.of_unlinked hkeeps.laid hu []) (by simp)
  have hmem := hperm.subset hs
  rw [slotsOf_append, slotsOf_singles, List.mem_append] at hmem
  rcases hmem with hmem | hmem
  · rw [slotsOf_congr fun q hq => hsame q (List.mem_append_left _ hq)] at hmem
    exact (hclean s hmem).keeps hkeeps (by simp)
  · refine ⟨?_, value_addBlock_new _ _ _ _ _ hmem⟩
    rw [owner?, cell?_addBlock_new _ _ _ _ _ hmem, Option.map_some]

theorem step_new_cell (h : c.step id granted m p = (m', p', e, c')) {s : Slot} {cell : Cell}
    (hcell : m'.cell? s = some cell) (hs : ¬ s.index < m.size) : cell.IsOf id p.strategy := by
  have hsize := lt_size_of_cell? hcell
  by_cases hc : c.relinksOnly = true
  · rw [size_of_unlinked (unlinked_step h hc)] at hsize
    exact absurd hsize hs
  cases c with
  | build g =>
    obtain ⟨rfl, rfl, -, rfl⟩ := h
    obtain ⟨cell', hcell', hrun, howner⟩ :=
      cell?_of_unlinked (Stack.unlinked_pushRange _ _ _ _).symm hcell
    rcases cell?_addBlock hcell' with hold | ⟨-, rfl⟩
    · exact absurd (lt_size_of_cell? hold) hs
    · exact ⟨howner.symm, congrArg Run.length hrun.symm⟩
  | cleanOne t =>
    obtain ⟨rfl, -⟩ := cleanOne_step h
    rw [size, cells_cleanAll] at hsize
    exact absurd hsize hs
  | cleanMany st =>
    obtain ⟨-, hst⟩ := cleanMany_step h
    split at hst
    · rw [hst.1] at hsize
      exact absurd hsize hs
    · rw [hst.1, size, cells_cleanAll] at hsize
      exact absurd hsize hs
  | _ => simp [relinksOnly] at hc

theorem cleanAll_clean (ps : List Piece) {frame : List Piece}
    (hp : Partition m (.chain p.free :: (ps ++ frame)))
    (hl : m.Laid)
    (hw : ∀ s cell, m.cell? s = some cell → cell.owner = id →
      cell.run.length = p.strategy.shape.width)
    (hfree : ∀ s ∈ p.free.slots m, Clean m id p.strategy s)
    (hm : m' = (cleanAll id p.strategy.pristine m (slotsOf m ps)).1) :
    (∀ s ∈ p.free.slots m', Clean m' id p.strategy s) ∧
      ((cleanAll id p.strategy.pristine m (slotsOf m ps)).2 = none →
        ∀ s ∈ slotsOf m' ps, Clean m' id p.strategy s) := by
  have hkeeps := cleanAll_keeps id p.strategy.pristine hl (slotsOf m ps)
  have hcells := cells_cleanAll id p.strategy.pristine m (slotsOf m ps)
  have hsame := (Shifts.of_cells hcells [] _ hp).2
  rw [← hm] at hkeeps hcells hsame
  have hslots : slotsOf m' ps = slotsOf m ps := slotsOf_congr fun q hq => hsame q (by simp [hq])
  have hstack : p.free.slots m' = p.free.slots m := hsame (.chain p.free) (by simp)
  refine ⟨fun s hs => ?_, fun hnone s hs => ?_⟩
  · rw [hstack] at hs
    apply (hfree s hs).keeps hkeeps
    intro hmem
    have hsplit : Partition m ([.chain p.free] ++ (ps ++ frame)) := hp
    exact hsplit.disjoint (by simpa using hs) (by simp [hmem])
  · rw [hslots] at hs
    have hlt := hp.lt_size s (by simp [hs])
    obtain ⟨cell, hcell⟩ := exists_cell? hlt
    obtain ⟨howner, hvalue⟩ := cleanAll_value id p.strategy.pristine hl _ hnone s hs cell hcell
    rw [hw s cell hcell howner, ← hm] at hvalue
    refine ⟨?_, hvalue⟩
    rw [hkeeps.owner? s hlt, owner?, hcell, Option.map_some, howner]

theorem clean_of_afterCleaning {ps : List Piece} {found : Option Violation} {next : Call}
    (hnext : next.vetted = ps) (hfree : ∀ s ∈ p.free.slots m', Clean m' id p.strategy s)
    (hps : found = none → ∀ s ∈ slotsOf m' ps, Clean m' id p.strategy s)
    (hc : AfterCleaning found next c') :
    ∀ s ∈ slotsOf m' (.chain p.free :: c'.vetted), Clean m' id p.strategy s := by
  intro s hs
  rw [slotsOf_cons, List.mem_append] at hs
  rcases hs with hs | hs
  · exact hfree s hs
  cases found with
  | none =>
    obtain rfl : c' = next := hc
    rw [hnext] at hs
    exact hps rfl s hs
  | some v =>
    obtain rfl : c' = finished (.broken v) := hc
    simp [vetted, pieces] at hs

theorem step_clean (h : c.step id granted m p = (m', p', e, c')) {frame : List Piece}
    (hp : Partition m ((.chain p.free :: c.pieces) ++ frame)) (hl : m.Laid)
    (hw : ∀ s cell, m.cell? s = some cell → cell.owner = id →
      cell.run.length = p.strategy.shape.width)
    (hclean : ∀ s ∈ slotsOf m (.chain p.free :: c.vetted), Clean m id p.strategy s) :
    ∀ s ∈ slotsOf m' (.chain p'.free :: c'.vetted), Clean m' id p.strategy s := by
  have hshift := step_shifts id granted h
  by_cases hc : c.relinksOnly = true
  · have hu := unlinked_step h hc
    have hperm := hshift.slots_perm hp (size_of_unlinked hu)
    intro s hs
    have hmem : s ∈ slotsOf m (.chain p.free :: c.pieces) := by
      apply hperm.subset
      rw [slotsOf_cons, List.mem_append] at hs
      rw [slotsOf_cons, slotsOf_append, List.mem_append, List.mem_append]
      exact hs.imp_right fun hs => Or.inl (mem_slotsOf_of_subset (vetted_subset c') hs)
    rw [← vetted_of_relinksOnly hc] at hmem
    exact (hclean s hmem).keeps (Keeps.of_unlinked hl hu []) (by simp)
  cases c with
  | build g =>
    obtain ⟨rfl, rfl, -, rfl⟩ := h
    have hkeeps : Keeps m (buildBlock id p.strategy m g).1 [] := buildBlock_keeps hl g []
    have hp' : Partition m (g.pieces ++ (.chain p.free :: frame)) :=
      hp.of_perm List.perm_middle.symm
    have hstack : p.free.slots (buildBlock id p.strategy m g).1 = p.free.slots m :=
      (buildBlock_shifts id p.strategy m g _ hp').2 (.chain p.free) List.mem_cons_self
    intro s hs
    rw [slotsOf_cons, List.mem_append] at hs
    rcases hs with hs | hs
    · refine (hclean s ?_).keeps hkeeps (by simp)
      rw [slotsOf_cons, List.mem_append, Piece.slots_chain, ← hstack]
      exact Or.inl hs
    · refine buildBlock_clean hp' hl (fun s hs => hclean s ?_) s ?_
      · rw [slotsOf_cons, List.mem_append]
        exact Or.inr hs
      · rw [← (continues_nextBlock _).pieces_eq]
        exact mem_slotsOf_of_subset (vetted_subset _) hs
  | cleanOne t =>
    obtain ⟨hm, rfl, hc'⟩ := cleanOne_step h
    obtain ⟨hfree, ht⟩ := cleanAll_clean [.single t] hp hl hw
      (fun s hs => hclean s (by simpa [vetted] using hs)) hm
    exact clean_of_afterCleaning rfl hfree ht hc'
  | cleanMany st =>
    obtain ⟨rfl, hst⟩ := cleanMany_step h
    split at hst
    · obtain ⟨rfl, rfl⟩ := hst
      exact hclean
    · obtain ⟨hm, hc'⟩ := hst
      have hslots : slotsOf m [.chain st] = st.slots m := by simp
      rw [← hslots] at hm hc'
      obtain ⟨hfree, ht⟩ := cleanAll_clean [.chain st] hp hl hw
        (fun s hs => hclean s (by simpa [vetted] using hs)) hm
      exact clean_of_afterCleaning rfl hfree ht hc'
  | _ => simp [relinksOnly] at hc

end

end Call

end SlotPool
