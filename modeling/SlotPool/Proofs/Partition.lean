import SlotPool.Proofs.Layout
import SlotPool.Proofs.Spans

/-!
# Who has which slot

The slots of a memory lie in pieces: stacks, and single slots. `Partition` says that every slot lies
in exactly one piece, once. `Shifts` is a change of some pieces that keeps every partition with them
in it, and leaves the slots of all other pieces as they were, in their order.
-/

namespace SlotPool

open Memory

variable {ε : Type}

inductive Piece where
  | chain (st : Stack)
  | single (s : Slot)
deriving DecidableEq, Repr

namespace Piece

def slots (m : Memory ε) : Piece → List Slot
  | chain st => st.slots m
  | single s => [s]

/-- The links of a stack lead through its slots. -/
def Sound (m : Memory ε) : Piece → Prop
  | chain st => st.Spans m (st.slots m)
  | single _ => True

@[simp]
theorem slots_chain (m : Memory ε) (st : Stack) : (chain st).slots m = st.slots m := rfl

@[simp]
theorem slots_single (m : Memory ε) (s : Slot) : (single s).slots m = [s] := rfl

@[simp]
theorem sound_single (m : Memory ε) (s : Slot) : (single s).Sound m := trivial

theorem slots_of_cells {m m' : Memory ε} (h : m'.cells = m.cells) (p : Piece) :
    p.slots m' = p.slots m := by
  cases p with
  | single s => rfl
  | chain st => exact chain_of_cells h st.head

theorem sound_of_spans {m : Memory ε} {st : Stack} {l : List Slot} (h : st.Spans m l) :
    (chain st).Sound m := by
  rw [Sound, h.slots_eq]
  exact h

end Piece

def slotsOf (m : Memory ε) (ps : List Piece) : List Slot := ps.flatMap (·.slots m)

@[simp]
theorem slotsOf_nil (m : Memory ε) : slotsOf m [] = [] := rfl

@[simp]
theorem slotsOf_cons (m : Memory ε) (p : Piece) (ps : List Piece) :
    slotsOf m (p :: ps) = p.slots m ++ slotsOf m ps := by
  simp [slotsOf]

@[simp]
theorem slotsOf_append (m : Memory ε) (ps qs : List Piece) :
    slotsOf m (ps ++ qs) = slotsOf m ps ++ slotsOf m qs := by
  simp [slotsOf]

theorem slotsOf_perm (m : Memory ε) {ps qs : List Piece} (h : ps.Perm qs) :
    (slotsOf m ps).Perm (slotsOf m qs) :=
  h.flatMap_right _

@[simp]
theorem slotsOf_singles (m : Memory ε) (l : List Slot) : slotsOf m (l.map .single) = l := by
  simp [slotsOf, List.flatMap_map, Piece.slots]

theorem mem_slotsOf_of_subset {m : Memory ε} {ps qs : List Piece} (h : ps ⊆ qs) {s : Slot}
    (hs : s ∈ slotsOf m ps) : s ∈ slotsOf m qs := by
  obtain ⟨p, hp, hs⟩ := List.mem_flatMap.1 hs
  exact List.mem_flatMap.2 ⟨p, h hp, hs⟩

theorem slotsOf_congr {m m' : Memory ε} {ps : List Piece}
    (h : ∀ p ∈ ps, p.slots m' = p.slots m) : slotsOf m' ps = slotsOf m ps := by
  simp only [slotsOf, List.flatMap]
  rw [List.map_congr_left h]

/-- Every slot lies in one of the pieces, and nowhere else. -/
structure Partition (m : Memory ε) (ps : List Piece) : Prop where
  sound : ∀ p ∈ ps, p.Sound m
  perm : (slotsOf m ps).Perm m.slots

namespace Partition

theorem of_perm {m : Memory ε} {ps qs : List Piece} (h : Partition m ps) (hp : ps.Perm qs) :
    Partition m qs :=
  ⟨fun p hq => h.sound p (hp.mem_iff.2 hq), (slotsOf_perm m hp.symm).trans h.perm⟩

theorem nodup {m : Memory ε} {ps : List Piece} (h : Partition m ps) : (slotsOf m ps).Nodup :=
  h.perm.nodup_iff.2 m.slots_nodup

theorem lt_size {m : Memory ε} {ps : List Piece} (h : Partition m ps) (s : Slot)
    (hs : s ∈ slotsOf m ps) : s.index < m.size :=
  (mem_slots m s).1 (h.perm.mem_iff.1 hs)

theorem disjoint {m : Memory ε} {ps qs : List Piece} (h : Partition m (ps ++ qs)) :
    (slotsOf m ps).Disjoint (slotsOf m qs) := by
  have := h.nodup
  rw [slotsOf_append] at this
  exact (List.nodup_append'.1 this).2.2

end Partition

/-- From `m` to `m'` the pieces `ps` become `qs`, whatever the other pieces are. -/
def Shifts (m m' : Memory ε) (ps qs : List Piece) : Prop :=
  ∀ frame, Partition m (ps ++ frame) →
    Partition m' (qs ++ frame) ∧ ∀ p ∈ frame, p.slots m' = p.slots m

namespace Shifts

theorem refl (m : Memory ε) (ps : List Piece) : Shifts m m ps ps :=
  fun _ h => ⟨h, fun _ _ => rfl⟩

theorem of_perm (m : Memory ε) {ps qs : List Piece} (hp : ps.Perm qs) : Shifts m m ps qs :=
  fun frame h => ⟨h.of_perm (hp.append_right frame), fun _ _ => rfl⟩

theorem trans {m m' m'' : Memory ε} {ps qs rs : List Piece} (h : Shifts m m' ps qs)
    (h' : Shifts m' m'' qs rs) : Shifts m m'' ps rs := by
  intro frame hp
  obtain ⟨hq, hf⟩ := h frame hp
  obtain ⟨hr, hf'⟩ := h' frame hq
  exact ⟨hr, fun p hm => (hf' p hm).trans (hf p hm)⟩

theorem append_right {m m' : Memory ε} {ps qs : List Piece} (h : Shifts m m' ps qs)
    (rs : List Piece) : Shifts m m' (ps ++ rs) (qs ++ rs) := by
  intro frame hp
  rw [List.append_assoc] at hp ⊢
  obtain ⟨hq, hf⟩ := h (rs ++ frame) hp
  exact ⟨hq, fun p hm => hf p (List.mem_append_right _ hm)⟩

theorem perm_left {m m' : Memory ε} {ps ps' qs : List Piece} (h : Shifts m m' ps qs)
    (hp : ps'.Perm ps) : Shifts m m' ps' qs :=
  (of_perm m hp).trans h

theorem perm_right {m m' : Memory ε} {ps qs qs' : List Piece} (h : Shifts m m' ps qs)
    (hp : qs.Perm qs') : Shifts m m' ps qs' :=
  h.trans (of_perm m' hp)

theorem append_left {m m' : Memory ε} {ps qs : List Piece} (h : Shifts m m' ps qs)
    (rs : List Piece) : Shifts m m' (rs ++ ps) (rs ++ qs) :=
  ((h.append_right rs).perm_left List.perm_append_comm).perm_right List.perm_append_comm

theorem cons {m m' : Memory ε} {ps qs : List Piece} (p : Piece) (h : Shifts m m' ps qs) :
    Shifts m m' (p :: ps) (p :: qs) :=
  h.append_left [p]

theorem of_relinks {m m' : Memory ε} {ps qs : List Piece} (touched : List Slot)
    (h : (∀ p ∈ ps, p.Sound m) → (slotsOf m ps).Nodup → (∀ s ∈ slotsOf m ps, s.index < m.size) →
      Relinks m m' touched ∧ touched ⊆ slotsOf m ps ∧ (∀ q ∈ qs, q.Sound m') ∧
        (slotsOf m' qs).Perm (slotsOf m ps)) :
    Shifts m m' ps qs := by
  intro frame hp
  have hnodup := hp.nodup
  rw [slotsOf_append] at hnodup
  obtain ⟨hr, ht, hq, hperm⟩ := h (fun p hm => hp.sound p (List.mem_append_left _ hm))
    (List.nodup_append'.1 hnodup).1
    (fun s hs => hp.lt_size s (by rw [slotsOf_append]; exact List.mem_append_left _ hs))
  have hframe : ∀ p ∈ frame, p.slots m' = p.slots m ∧ p.Sound m' := by
    intro p hm
    cases p with
    | single s => exact ⟨rfl, trivial⟩
    | chain st =>
      have hs : st.Spans m (st.slots m) := hp.sound (.chain st) (List.mem_append_right _ hm)
      have hs' := hs.frame hr fun s hs hst =>
        hp.disjoint (ht hst) (List.mem_flatMap.2 ⟨.chain st, hm, hs⟩)
      exact ⟨hs'.slots_eq, Piece.sound_of_spans hs'⟩
  refine ⟨⟨?_, ?_⟩, fun p hm => (hframe p hm).1⟩
  · intro p hm
    rcases List.mem_append.1 hm with hm | hm
    · exact hq p hm
    · exact (hframe p hm).2
  · rw [slotsOf_append, slotsOf_congr fun p hm => (hframe p hm).1, slots_of_unlinked hr.unlinked]
    apply (hperm.append_right _).trans
    rw [← slotsOf_append]
    exact hp.perm

theorem of_sound {m m' : Memory ε} {ps qs : List Piece}
    (h : (∀ p ∈ ps, p.Sound m) → Shifts m m' ps qs) : Shifts m m' ps qs :=
  fun frame hp => h (fun p hm => hp.sound p (List.mem_append_left _ hm)) frame hp

theorem slots_perm {m m' : Memory ε} {ps qs frame : List Piece} (h : Shifts m m' ps qs)
    (hp : Partition m (ps ++ frame)) (hs : m'.size = m.size) :
    (slotsOf m' qs).Perm (slotsOf m ps) := by
  obtain ⟨hq, hf⟩ := h frame hp
  have hperm := hq.perm
  rw [slotsOf_append, slotsOf_congr hf, slots, hs] at hperm
  have hperm' := hp.perm.symm
  rw [slotsOf_append] at hperm'
  exact (List.perm_append_right_iff _).1 (hperm.trans hperm')

theorem slots_subset {m m' : Memory ε} {ps qs frame : List Piece} (h : Shifts m m' ps qs)
    (hp : Partition m (ps ++ frame)) (hs : ∀ s : Slot, s.index < m.size → s.index < m'.size) :
    slotsOf m ps ⊆ slotsOf m' qs := by
  obtain ⟨hq, hf⟩ := h frame hp
  intro s hm
  have hlt : s.index < m.size :=
    hp.lt_size s (mem_slotsOf_of_subset (List.subset_append_left _ _) hm)
  have hm' : s ∈ slotsOf m' (qs ++ frame) := hq.perm.mem_iff.2 ((mem_slots m' s).2 (hs s hlt))
  rw [slotsOf_append, slotsOf_congr hf] at hm'
  exact (List.mem_append.1 hm').resolve_right (hp.disjoint hm)

/-! ## Stacks -/

section

variable (m : Memory ε) (st other : Stack) (s : Slot)

theorem empty : Shifts m m [] [.chain .empty] := by
  have he := Stack.spans_empty m
  refine of_relinks [] fun _ _ _ => ⟨Relinks.refl m [], by simp, ?_, ?_⟩
  · simpa using Piece.sound_of_spans he
  · simp [he.slots_eq]

theorem discard (h : st.isEmpty = true) : Shifts m m [.chain st] [] := by
  refine of_relinks [] fun hsound _ _ => ⟨Relinks.refl m [], by simp, by simp, ?_⟩
  have hst : st.Spans m (st.slots m) := hsound (.chain st) (by simp)
  simp [hst.isEmpty_iff.1 h]

theorem scatter (ps : List Piece) : Shifts m m ps ((slotsOf m ps).map .single) := by
  refine of_relinks [] fun _ _ _ => ⟨Relinks.refl m [], by simp, ?_, ?_⟩
  · simp
  · simp

theorem push : Shifts m (st.push m s).1 [.chain st, .single s] [.chain (st.push m s).2] := by
  apply of_relinks [s]
  intro hsound hnodup hsize
  have hst : st.Spans m (st.slots m) := hsound (.chain st) (by simp)
  simp only [slotsOf_cons, slotsOf_nil, Piece.slots_chain, Piece.slots_single,
    List.append_nil] at hnodup hsize ⊢
  have hn : s ∉ st.slots m := fun hs => (List.nodup_append'.1 hnodup).2.2 hs (by simp)
  have hs := Stack.push_spans hst (hsize s (by simp)) hn
  refine ⟨Stack.push_relinks m st s, by simp, by simpa using Piece.sound_of_spans hs, ?_⟩
  rw [hs.slots_eq]
  exact List.perm_append_singleton s _ |>.symm

theorem pushRange (first count : Nat) :
    Shifts m (st.pushRange m first count).1 (.chain st :: (sideBySide first count).map .single)
      [.chain (st.pushRange m first count).2] := by
  induction count generalizing m st first with
  | zero => exact refl m _
  | succ count ih =>
    rw [sideBySide_succ, List.map_cons]
    have hpush := (push m st ⟨first⟩).append_right ((sideBySide (first + 1) count).map .single)
    exact hpush.trans (ih (st.push m ⟨first⟩).1 (st.push m ⟨first⟩).2 (first + 1))

theorem insert (cmp : Array ε → Array ε → Ordering) :
    Shifts m (st.insert cmp m s).1 [.chain st, .single s] [.chain (st.insert cmp m s).2] := by
  apply of_relinks (s :: st.slots m)
  intro hsound hnodup hsize
  have hst : st.Spans m (st.slots m) := hsound (.chain st) (by simp)
  simp only [slotsOf_cons, slotsOf_nil, Piece.slots_chain, Piece.slots_single,
    List.append_nil] at hnodup hsize ⊢
  have hn : s ∉ st.slots m := fun hs => (List.nodup_append'.1 hnodup).2.2 hs (by simp)
  have hs := Stack.insert_spans cmp hst (hsize s (by simp)) hn
  refine ⟨Stack.insert_relinks cmp s hst, ?_, by simpa using Piece.sound_of_spans hs, ?_⟩
  · exact (List.perm_append_singleton s _).symm.subset
  · rw [hs.slots_eq]
    exact (Stack.insertBefore_perm _ s _).trans (List.perm_append_singleton s _).symm

theorem append : Shifts m (st.append m other).1 [.chain st, .chain other]
    [.chain (st.append m other).2] := by
  apply of_relinks (other.slots m)
  intro hsound hnodup _
  have hst : st.Spans m (st.slots m) := hsound (.chain st) (by simp)
  have ho : other.Spans m (other.slots m) := hsound (.chain other) (by simp)
  simp only [slotsOf_cons, slotsOf_nil, Piece.slots_chain, List.append_nil] at hnodup ⊢
  have hs := Stack.append_spans hst ho (List.disjoint_comm.1 (List.nodup_append'.1 hnodup).2.2)
  refine ⟨Stack.append_relinks st ho, by simp, by simpa using Piece.sound_of_spans hs, ?_⟩
  rw [hs.slots_eq]
  exact List.perm_append_comm

theorem pop {m' : Memory ε} {st' : Stack} {s : Slot} (h : st.pop m = (m', st', some s)) :
    Shifts m m' [.chain st] [.chain st', .single s] := by
  apply of_relinks (st.slots m)
  intro hsound _ _
  have hst : st.Spans m (st.slots m) := hsound (.chain st) (by simp)
  simp only [slotsOf_cons, slotsOf_nil, Piece.slots_chain, Piece.slots_single, List.append_nil]
  cases hl : st.slots m with
  | nil =>
    rw [hl] at hst
    simp [Stack.pop_of_nil hst] at h
  | cons a l =>
    rw [hl] at hst
    have hr := Stack.pop_relinks hst
    have hs := Stack.pop_spans hst
    have ha : a = s := by simpa using congrArg (·.2.2) ((Stack.pop_of_cons hst).symm.trans h)
    rw [h] at hr hs
    refine ⟨hr, List.Subset.refl _, by simpa using Piece.sound_of_spans hs, ?_⟩
    rw [hs.slots_eq, ha]
    exact List.perm_append_singleton s l

theorem split {m' : Memory ε} {front rest : Stack} {n : Nat}
    (h : st.split m n = (m', .ok (front, rest))) :
    Shifts m m' [.chain st] [.chain front, .chain rest] := by
  apply of_relinks (st.slots m)
  intro hsound _ _
  have hst : st.Spans m (st.slots m) := hsound (.chain st) (by simp)
  simp only [slotsOf_cons, slotsOf_nil, Piece.slots_chain, List.append_nil]
  obtain ⟨m₁, front₁, rest₁, heq, hfront, hrest, hr⟩ := Stack.split_spec hst n
  obtain ⟨rfl, rfl, rfl⟩ : m₁ = m' ∧ front₁ = front ∧ rest₁ = rest := by
    simpa using heq.symm.trans h
  refine ⟨hr, List.Subset.refl _, ?_, ?_⟩
  · simpa using ⟨Piece.sound_of_spans hfront, Piece.sound_of_spans hrest⟩
  · rw [hfront.slots_eq, hrest.slots_eq, List.take_append_drop]

end

theorem split_ok {m : Memory ε} {ps : List Piece} (h : Partition m ps) (st : Stack)
    (hst : .chain st ∈ ps) (n : Nat) :
    ∃ m' front rest, st.split m n = (m', .ok (front, rest)) := by
  obtain ⟨m', front, rest, hs, -⟩ := Stack.split_spec (h.sound _ hst) n
  exact ⟨m', front, rest, hs⟩

/-! ## Values and blocks -/

theorem of_cells {m m' : Memory ε} (h : m'.cells = m.cells) (ps : List Piece) :
    Shifts m m' ps ps := by
  have hslots := Piece.slots_of_cells h
  have hlink : ∀ s, m'.link? s = m.link? s := fun s => by rw [link?, link?, cell?, cell?, h]
  have hsound : ∀ p : Piece, p.Sound m → p.Sound m' := by
    intro p hp
    cases p with
    | single s => trivial
    | chain st =>
      have hs : st.Spans m' (st.slots m) :=
        { hp with linked := hp.linked.frame fun s _ => hlink s }
      exact Piece.sound_of_spans hs
  intro frame hp
  refine ⟨⟨fun p hm => hsound p (hp.sound p hm), ?_⟩, fun p _ => hslots p⟩
  rw [slotsOf_congr fun p _ => hslots p, slots, show m'.size = m.size by rw [size, size, h]]
  exact hp.perm

theorem addBlock (m : Memory ε) (owner : PoolId) (count width : Nat) (v : ε) :
    Shifts m (m.addBlock owner count width v) [] ((sideBySide m.size count).map .single) := by
  intro frame hp
  rw [List.nil_append] at hp
  have hpiece : ∀ p ∈ frame, p.slots (m.addBlock owner count width v) = p.slots m ∧
      p.Sound (m.addBlock owner count width v) := by
    intro p hm
    cases p with
    | single s => exact ⟨rfl, trivial⟩
    | chain st =>
      have hst : st.Spans m (st.slots m) := hp.sound (.chain st) hm
      have hlink : ∀ s ∈ st.slots m, (m.addBlock owner count width v).link? s = m.link? s := by
        intro s hs
        rw [link?, link?, cell?_addBlock_of_lt _ _ _ _ _ (hst.lt_size s hs)]
      have hs : st.Spans (m.addBlock owner count width v) (st.slots m) :=
        { hst with linked := hst.linked.frame hlink }
      exact ⟨hs.slots_eq, Piece.sound_of_spans hs⟩
  refine ⟨⟨?_, ?_⟩, fun p hm => (hpiece p hm).1⟩
  · intro p hm
    rcases List.mem_append.1 hm with hm | hm
    · obtain ⟨s, -, rfl⟩ := List.mem_map.1 hm
      trivial
    · exact (hpiece p hm).2
  · rw [slotsOf_append, slotsOf_singles, slotsOf_congr fun p hm => (hpiece p hm).1, slots_addBlock]
    exact List.perm_append_comm.trans (hp.perm.append_right _)

end Shifts

end SlotPool
