import SlotPool.Lease
import SlotPool.Proofs.Family
import Mathlib.Data.List.TakeWhile

/-!
# Slots put in one by one are sorted

A stack that gets slots one by one, each where its value belongs, has them in order, and those that
compare equal in the order in which they came, if the comparison is a total preorder. There is but
one list like that, and so the stack is the stable sort of what it got. It is no matter whether the
slots come by themselves or under leases, or what happens elsewhere in the meantime.
-/

namespace SlotPool

open Memory Std

variable {ε : Type}

/-! ## Stable sorts -/

section

variable {α β : Type}

/-- `k` is `l` in order by `f`, and those that compare equal are in the order that `l` has them. -/
structure StablySorted (cmp : β → β → Ordering) (f : α → β) (l k : List α) : Prop where
  perm : k.Perm l
  ordered : k.Pairwise fun a b => cmp (f a) (f b) ≠ .gt
  stable : ∀ v, k.filter (fun a => cmp (f a) v = .eq) = l.filter (fun a => cmp (f a) v = .eq)

theorem ne_gt_iff_isLE {o : Ordering} : o ≠ .gt ↔ o.isLE = true := by
  cases o <;> simp

variable {cmp : β → β → Ordering} [TransCmp cmp] {f : α → β} {l k k' : List α} {s : α}

theorem eq_of_ne_gt {a b : β} (hab : cmp a b ≠ .gt) (hba : cmp b a ≠ .gt) : cmp a b = .eq := by
  have hswap : cmp b a = (cmp a b).swap := OrientedCmp.eq_swap
  rw [hswap] at hba
  cases h : cmp a b <;> simp_all

theorem mem_iff_of_filter_eq (a : α)
    (h : ∀ v, k.filter (fun a => cmp (f a) v = .eq) = k'.filter (fun a => cmp (f a) v = .eq)) :
    a ∈ k ↔ a ∈ k' := by
  have ha := congrArg (a ∈ ·) (h (f a))
  simpa [ReflCmp.compare_self] using ha

theorem eq_of_ordered (hk : k.Pairwise fun a b => cmp (f a) (f b) ≠ .gt)
    (hk' : k'.Pairwise fun a b => cmp (f a) (f b) ≠ .gt)
    (h : ∀ v, k.filter (fun a => cmp (f a) v = .eq) = k'.filter (fun a => cmp (f a) v = .eq)) :
    k = k' := by
  induction k generalizing k' with
  | nil =>
    refine (List.eq_nil_iff_forall_not_mem.2 fun a ha => ?_).symm
    exact List.not_mem_nil ((mem_iff_of_filter_eq a h).2 ha)
  | cons a k ih =>
    obtain _ | ⟨b, k'⟩ := k'
    · exact absurd ((mem_iff_of_filter_eq a h).1 List.mem_cons_self) List.not_mem_nil
    rw [List.pairwise_cons] at hk hk'
    -- Each of the first items is in the other list, and so neither is greater.
    have hab : cmp (f a) (f b) ≠ .gt := by
      rcases List.mem_cons.1 ((mem_iff_of_filter_eq b h).2 List.mem_cons_self) with rfl | hb
      · simp [ReflCmp.compare_self]
      · exact hk.1 b hb
    have hba : cmp (f b) (f a) ≠ .gt := by
      rcases List.mem_cons.1 ((mem_iff_of_filter_eq a h).1 List.mem_cons_self) with rfl | ha
      · simp [ReflCmp.compare_self]
      · exact hk'.1 a ha
    have hfirst := h (f a)
    rw [List.filter_cons_of_pos (by simp [ReflCmp.compare_self]),
      List.filter_cons_of_pos (by simpa using eq_of_ne_gt hba hab)] at hfirst
    obtain rfl : a = b := (List.cons.inj hfirst).1
    rw [ih hk.2 hk'.2 fun v => ?_]
    have hv := h v
    simp only [List.filter_cons] at hv
    split at hv
    · exact (List.cons.inj hv).2
    · exact hv

theorem stablySorted_mergeSort (cmp : β → β → Ordering) [TransCmp cmp] (f : α → β) (l : List α) :
    StablySorted cmp f l (l.mergeSort fun a b => (cmp (f a) (f b)).isLE) := by
  have htrans : ∀ a b c : α, (cmp (f a) (f b)).isLE = true → (cmp (f b) (f c)).isLE = true →
      (cmp (f a) (f c)).isLE = true := fun _ _ _ => TransCmp.isLE_trans
  have htotal : ∀ a b : α, ((cmp (f a) (f b)).isLE || (cmp (f b) (f a)).isLE) = true := by
    intro a b
    have hswap : cmp (f a) (f b) = (cmp (f b) (f a)).swap := OrientedCmp.eq_swap
    rw [hswap]
    cases cmp (f b) (f a) <;> rfl
  have hperm := List.mergeSort_perm l fun a b => (cmp (f a) (f b)).isLE
  refine ⟨hperm, ?_, fun v => ?_⟩
  · simpa only [ne_gt_iff_isLE] using List.pairwise_mergeSort htrans htotal l
  · -- The items of one class are a sorted part of the list, and so a part of the sorted list.
    have hequal : ∀ a ∈ l.filter (fun a => cmp (f a) v = .eq), cmp (f a) v = .eq :=
      fun a ha => by simpa using (List.mem_filter.1 ha).2
    have hclass : (l.filter fun a => cmp (f a) v = .eq).Pairwise
        fun a b => (cmp (f a) (f b)).isLE = true := by
      refine List.pairwise_of_forall_mem_list fun a ha b hb => ?_
      rw [TransCmp.eq_trans (hequal a ha) (OrientedCmp.eq_symm (hequal b hb))]
      rfl
    have hsub := (List.sublist_mergeSort htrans htotal hclass List.filter_sublist).filter
      fun a => cmp (f a) v = .eq
    simp only [List.filter_filter, Bool.and_self] at hsub
    exact (hsub.eq_of_length (hperm.filter _).length_eq.symm).symm

theorem StablySorted.eq_mergeSort (h : StablySorted cmp f l k) :
    k = l.mergeSort fun a b => (cmp (f a) (f b)).isLE :=
  have hsort := stablySorted_mergeSort cmp f l
  eq_of_ordered h.ordered hsort.ordered fun v => (h.stable v).trans (hsort.stable v).symm

/-! ## One more -/

theorem lt_of_mem_dropWhile {t : α} (h : l.Pairwise fun a b => cmp (f a) (f b) ≠ .gt)
    (ht : t ∈ l.dropWhile fun t => !decide (cmp (f s) (f t) = .lt)) :
    cmp (f s) (f t) = .lt := by
  induction l with
  | nil => simp at ht
  | cons a l ih =>
    rw [List.pairwise_cons] at h
    by_cases hlt : cmp (f s) (f a) = .lt
    · rw [List.dropWhile_cons_of_neg (by simpa using hlt)] at ht
      rcases List.mem_cons.1 ht with rfl | ht
      · exact hlt
      · exact TransCmp.lt_of_lt_of_isLE hlt (ne_gt_iff_isLE.1 (h.1 t ht))
    · rw [List.dropWhile_cons_of_pos (by simpa using hlt)] at ht
      exact ih h.2 ht

theorem StablySorted.insert (h : StablySorted cmp f l k) (s : α) :
    StablySorted cmp f (l ++ [s]) (k.takeWhile (fun t => !decide (cmp (f s) (f t) = .lt)) ++
      s :: k.dropWhile (fun t => !decide (cmp (f s) (f t) = .lt))) := by
  have hcut := List.takeWhile_append_dropWhile (p := fun t => !decide (cmp (f s) (f t) = .lt))
    (l := k)
  have hle : ∀ t ∈ k.takeWhile (fun t => !decide (cmp (f s) (f t) = .lt)),
      cmp (f t) (f s) ≠ .gt := by
    intro t ht hgt
    have hnot := List.mem_takeWhile_imp ht
    rw [OrientedCmp.gt_iff_lt] at hgt
    simp [hgt] at hnot
  have hlt : ∀ t ∈ k.dropWhile (fun t => !decide (cmp (f s) (f t) = .lt)),
      cmp (f s) (f t) = .lt := fun t ht => lt_of_mem_dropWhile h.ordered ht
  generalize k.takeWhile (fun t => !decide (cmp (f s) (f t) = .lt)) = front at hcut hle ⊢
  generalize k.dropWhile (fun t => !decide (cmp (f s) (f t) = .lt)) = back at hcut hlt ⊢
  have hordered := h.ordered
  rw [← hcut, List.pairwise_append] at hordered
  refine ⟨?_, ?_, fun v => ?_⟩
  · exact (List.perm_middle.trans ((hcut ▸ h.perm).cons s)).trans
      (List.perm_append_singleton s l).symm
  · refine List.pairwise_append.2 ⟨hordered.1, List.pairwise_cons.2 ⟨?_, hordered.2.1⟩, ?_⟩
    · intro t ht
      simp [hlt t ht]
    · intro a ha t ht
      rcases List.mem_cons.1 ht with rfl | ht
      · exact hle a ha
      · exact hordered.2.2 a ha t ht
  · rw [List.filter_append, List.filter_append, ← h.stable, ← hcut, List.filter_append]
    by_cases hs : cmp (f s) v = .eq
    · have hback : back.filter (fun a => cmp (f a) v = .eq) = [] := by
        refine List.filter_eq_nil_iff.2 fun t ht ht' => ?_
        have hst := TransCmp.lt_of_lt_of_eq (hlt t ht) (by simpa using ht')
        rw [hs] at hst
        cases hst
      rw [List.filter_cons_of_pos (by simpa using hs), hback, List.append_nil]
      simp [hs]
    · rw [List.filter_cons_of_neg (by simpa using hs)]
      simp [hs]

end

/-! ## Stacks that get slots one by one -/

namespace Stack

def entries (m : Memory ε) (st : Stack) : List (Slot × Array ε) :=
  (st.slots m).map fun s => (s, m.value s)

/-- The stack got these slots, with these values, one by one, each where its value belongs. What
happened in between left its links and its values alone. -/
inductive Collects (cmp : Array ε → Array ε → Ordering) :
    Memory ε → Stack → List (Slot × Array ε) → Prop where
  | start (m : Memory ε) : Collects cmp m empty []
  | meanwhile {m m' : Memory ε} {st : Stack} {vs : List (Slot × Array ε)}
      (h : Collects cmp m st vs)
      (hkept : ∀ s ∈ st.slots m, m'.link? s = m.link? s ∧ m'.value s = m.value s) :
      Collects cmp m' st vs
  | insert {m : Memory ε} {st : Stack} {vs : List (Slot × Array ε)} (h : Collects cmp m st vs)
      {s : Slot} (hs : s.index < m.size) (hn : s ∉ st.slots m) :
      Collects cmp (st.insert cmp m s).1 (st.insert cmp m s).2 (vs ++ [(s, m.value s)])

variable {cmp : Array ε → Array ε → Ordering} {m : Memory ε} {st : Stack} {s : Slot}
  {vs : List (Slot × Array ε)}

theorem entries_insert (cmp : Array ε → Array ε → Ordering) (h : st.Spans m (st.slots m))
    (hs : s.index < m.size) (hn : s ∉ st.slots m) :
    (st.insert cmp m s).2.entries (st.insert cmp m s).1 =
      (st.entries m).takeWhile (fun t => !decide (cmp (m.value s) t.2 = .lt)) ++
        (s, m.value s) ::
          (st.entries m).dropWhile (fun t => !decide (cmp (m.value s) t.2 = .lt)) := by
  have hvalue : (st.insert cmp m s).1.value = m.value :=
    funext fun t => value_of_unlinked (unlinked_insert cmp m st s) t
  rw [entries, entries, hvalue, (insert_spans cmp h hs hn).slots_eq, insertBefore,
    List.takeWhile_map, List.dropWhile_map, List.map_append, List.map_cons]
  rfl

theorem Spans.kept {m' : Memory ε} (h : st.Spans m (st.slots m))
    (hkept : ∀ s ∈ st.slots m, m'.link? s = m.link? s) : st.Spans m' (st.slots m) :=
  { h with linked := h.linked.frame hkept }

theorem Collects.spans (h : Collects cmp m st vs) : st.Spans m (st.slots m) := by
  induction h with
  | start m =>
    rw [(spans_empty m).slots_eq]
    exact spans_empty m
  | meanwhile h hkept ih =>
    have hspans := ih.kept fun s hs => (hkept s hs).1
    rwa [hspans.slots_eq]
  | insert h hs hn ih =>
    have hspans := insert_spans cmp ih hs hn
    rwa [hspans.slots_eq]

theorem Collects.stablySorted [TransCmp cmp] (h : Collects cmp m st vs) :
    StablySorted cmp Prod.snd vs (st.entries m) := by
  induction h with
  | start m =>
    rw [entries, (spans_empty m).slots_eq]
    exact ⟨.nil, .nil, fun _ => rfl⟩
  | @meanwhile m m' st vs h hkept ih =>
    have hspans := h.spans.kept fun s hs => (hkept s hs).1
    have hentries : st.entries m' = st.entries m := by
      rw [entries, entries, hspans.slots_eq]
      exact List.map_congr_left fun s hs => by rw [(hkept s hs).2]
    rwa [hentries]
  | insert h hs hn ih =>
    rw [entries_insert cmp h.spans hs hn]
    exact ih.insert _

theorem isAscending_iff [TransCmp cmp] : ∀ vs : List (Array ε),
    isAscending cmp vs = true ↔ vs.Pairwise fun a b => cmp a b ≠ .gt
  | [] => by simp [isAscending]
  | [a] => by simp [isAscending]
  | a :: b :: rest => by
    rw [isAscending, List.pairwise_cons, ← isAscending_iff (b :: rest)]
    by_cases hgt : cmp a b = .gt
    · simp [hgt]
    · rw [if_neg hgt]
      refine ⟨fun h => ⟨fun c hc => ?_, h⟩, fun h => h.2⟩
      rcases List.mem_cons.1 hc with rfl | hc
      · exact hgt
      · -- What is not less than the next value is not less than this one either.
        have hbc := (List.pairwise_cons.1 ((isAscending_iff (b :: rest)).1 h)).1 c hc
        exact ne_gt_iff_isLE.2
          (TransCmp.isLE_trans (ne_gt_iff_isLE.1 hgt) (ne_gt_iff_isLE.1 hbc))

/-- The stack is the stable sort of the slots and values. -/
structure Sorts (cmp : Array ε → Array ε → Ordering) (m : Memory ε) (st : Stack)
    (vs : List (Slot × Array ε)) : Prop
    extends StablySorted cmp Prod.snd vs (st.entries m) where
  wellFormed : st.WellFormed m
  entries_eq : st.entries m = vs.mergeSort fun a b => (cmp a.2 b.2).isLE
  values_eq : st.values m = (vs.map (·.2)).mergeSort fun a b => (cmp a b).isLE
  isSorted : st.isSorted cmp m = true

theorem values_eq_entries (m : Memory ε) (st : Stack) :
    st.values m = (st.entries m).map (·.2) := by
  rw [values, entries, List.map_map]
  rfl

theorem Collects.sorts [TransCmp cmp] (h : Collects cmp m st vs) : Sorts cmp m st vs := by
  have hsorted := h.stablySorted
  have hentries := hsorted.eq_mergeSort
  refine { hsorted with
    wellFormed := h.spans.wellFormed, entries_eq := hentries, values_eq := ?_, isSorted := ?_ }
  · rw [values_eq_entries, hentries]
    exact List.map_mergeSort fun _ _ _ _ => rfl
  · rw [isSorted, isAscending_iff, values_eq_entries]
    exact List.pairwise_map.2 hsorted.ordered

def insertAll (cmp : Array ε → Array ε → Ordering) (m : Memory ε) (st : Stack) :
    List Slot → Memory ε × Stack
  | [] => (m, st)
  | s :: rest =>
    let (m, st) := st.insert cmp m s
    insertAll cmp m st rest

theorem disjoint_insert {ss : List Slot} (cmp : Array ε → Array ε → Ordering)
    (h : st.Spans m (st.slots m)) (hs : s.index < m.size) (hn : s ∉ st.slots m)
    (hapart : ss.Disjoint (st.slots m)) (hns : s ∉ ss) :
    ss.Disjoint ((st.insert cmp m s).2.slots (st.insert cmp m s).1) := by
  rw [(insert_spans cmp h hs hn).slots_eq]
  intro t ht ht'
  rcases List.mem_cons.1 ((insertBefore_perm _ _ _).mem_iff.1 ht') with rfl | ht'
  · exact hns ht
  · exact hapart ht ht'

theorem Collects.all (h : Collects cmp m st vs) {ss : List Slot} (hnodup : ss.Nodup)
    (hss : ∀ s ∈ ss, s.index < m.size) (hapart : ss.Disjoint (st.slots m)) :
    Collects cmp (st.insertAll cmp m ss).1 (st.insertAll cmp m ss).2
      (vs ++ ss.map fun s => (s, m.value s)) := by
  induction ss generalizing m st vs with
  | nil => simpa [insertAll] using h
  | cons s ss ih =>
    rw [List.disjoint_cons_left] at hapart
    rw [List.nodup_cons] at hnodup
    rw [List.forall_mem_cons] at hss
    have hunlinked := unlinked_insert cmp m st s
    have hrest := ih (h.insert hss.1 hapart.1) hnodup.2
      (fun t ht => size_of_unlinked hunlinked ▸ hss.2 t ht)
      (disjoint_insert cmp h.spans hss.1 hapart.1 hapart.2 hnodup.1)
    simpa only [insertAll, List.map_cons, List.append_assoc, List.singleton_append,
      funext fun t => value_of_unlinked hunlinked t] using hrest

end Stack

/-! ## Stacks under a lease -/

namespace LeaseStack

/-- The stack under a lease got these slots, with these values, one by one, each under a lease of
its own, whose pool was taken on, and each where its value belongs. -/
inductive Collects (cmp : Array ε → Array ε → Ordering) :
    Memory ε → LeaseStack → List (Slot × Array ε) → Prop where
  | start (m : Memory ε) (pool : Option PoolId) : Collects cmp m { pool } []
  | meanwhile {m m' : Memory ε} {l : LeaseStack} {vs : List (Slot × Array ε)}
      (h : Collects cmp m l vs)
      (hkept : ∀ s ∈ l.stack.slots m, m'.link? s = m.link? s ∧ m'.value s = m.value s) :
      Collects cmp m' l vs
  | insert {m : Memory ε} {l l' : LeaseStack} {vs : List (Slot × Array ε)}
      (h : Collects cmp m l vs) {one : Lease} {s : Slot} (hone : one.slot = some s)
      (hs : s.index < m.size) (hn : s ∉ l.stack.slots m) (hadopt : l.adopt one.pool = .ok l') :
      Collects cmp (l'.insertLease cmp m one).1 (l'.insertLease cmp m one).2
        (vs ++ [(s, m.value s)])

def insertAll (cmp : Array ε → Array ε → Ordering) (m : Memory ε) (l : LeaseStack) :
    List Lease → Except Violation (Memory ε × LeaseStack)
  | [] => .ok (m, l)
  | one :: rest =>
    match l.adopt one.pool with
    | .error v => .error v
    | .ok l =>
      let (m, l) := l.insertLease cmp m one
      insertAll cmp m l rest

variable {cmp : Array ε → Array ε → Ordering} {m : Memory ε} {l l' : LeaseStack}
  {vs : List (Slot × Array ε)}

theorem stack_of_adopt {source : Option PoolId} (h : l.adopt source = .ok l') :
    l'.stack = l.stack := by
  obtain ⟨st, pool⟩ := l
  unfold adopt at h
  split at h
  · cases h
    rfl
  · cases h
    rfl
  · split at h
    · cases h
      rfl
    · cases h

theorem Collects.stack (h : Collects cmp m l vs) : l.stack.Collects cmp m vs := by
  induction h with
  | start m pool => exact .start m
  | meanwhile h hkept ih => exact ih.meanwhile hkept
  | @insert m l l' vs h one s hone hs hn hadopt ih =>
    have hinsert := ih.insert hs hn
    simpa only [insertLease, hone, stack_of_adopt hadopt] using hinsert

theorem adopt_own {id : PoolId} (h : l.pool = none ∨ l.pool = some id) :
    l.adopt (some id) = .ok { l with pool := some id } := by
  obtain ⟨st, pool⟩ := l
  rcases h with rfl | rfl
  · rfl
  · exact if_pos rfl

theorem Collects.all {id : PoolId} (h : Collects cmp m l vs)
    (hpool : l.pool = none ∨ l.pool = some id) {ss : List Slot} (hnodup : ss.Nodup)
    (hss : ∀ s ∈ ss, s.index < m.size) (hapart : ss.Disjoint (l.stack.slots m)) :
    ∃ m' l', l.insertAll cmp m (ss.map fun s => ⟨some s, some id⟩) = .ok (m', l') ∧
      Collects cmp m' l' (vs ++ ss.map fun s => (s, m.value s)) := by
  induction ss generalizing m l vs with
  | nil => exact ⟨m, l, rfl, by simpa using h⟩
  | cons s ss ih =>
    rw [List.disjoint_cons_left] at hapart
    rw [List.nodup_cons] at hnodup
    rw [List.forall_mem_cons] at hss
    have hunlinked := Stack.unlinked_insert cmp m l.stack s
    have hadopt := adopt_own hpool
    have hone : (⟨some s, some id⟩ : Lease).slot = some s := rfl
    obtain ⟨m', l', hall, hcollects⟩ := ih
      (h.insert hone hss.1 hapart.1 hadopt) (.inr rfl) hnodup.2
      (fun t ht => size_of_unlinked hunlinked ▸ hss.2 t ht)
      (Stack.disjoint_insert cmp h.stack.spans hss.1 hapart.1 hapart.2 hnodup.1)
    refine ⟨m', l', by simpa only [insertAll, List.map_cons, hadopt] using hall, ?_⟩
    simpa only [List.map_cons, List.append_assoc, List.singleton_append, insertLease,
      funext fun t => value_of_unlinked hunlinked t] using hcollects

end LeaseStack

/-! ## Orders that clients name -/

namespace ItemType

theorem transCmp_on {α β : Type} (cmp : β → β → Ordering) [TransCmp cmp] (f : α → β) :
    TransCmp fun a b => cmp (f a) (f b) where
  eq_swap := OrientedCmp.eq_swap
  isLE_trans := TransCmp.isLE_trans

theorem lexicographic_eq (order : ε → ε → Ordering) (as bs : List ε) :
    lexicographic order as bs = List.compareLex order as bs := by
  induction as generalizing bs with
  | nil => cases bs <;> rfl
  | cons a as ih =>
    cases bs with
    | nil => rfl
    | cons b bs =>
      rw [lexicographic, List.compareLex_cons_cons, ih]

theorem transCmp_lexicographic (order : ε → ε → Ordering) [TransCmp order] (f : Array ε → List ε) :
    TransCmp fun a b => lexicographic order (f a) (f b) := by
  have hlex := transCmp_on (List.compareLex order) f
  simpa only [← lexicographic_eq] using hlex

/-- All comparisons are total preorders but those that always find a difference. -/
theorem transCmp_compare (item : ItemType ε) [TransCmp item.order] [TransCmp item.keyOrder]
    {c : Comparison} (hlt : c ≠ .always .lt) (hgt : c ≠ .always .gt) :
    TransCmp (item.compare c) := by
  have hvalues : TransCmp item.compareValues := transCmp_lexicographic item.order Array.toList
  cases c with
  | ascending => exact hvalues
  | descending =>
    have hflip : item.compare .descending = fun a b => item.compareValues b a := by
      funext a b
      exact OrientedCmp.eq_swap.symm
    rw [hflip]
    infer_instance
  | byKey =>
    change TransCmp item.compareKeys
    unfold compareKeys
    split
    · exact transCmp_lexicographic item.order fun a => a.toList.take 1
    · exact transCmp_lexicographic item.keyOrder fun a => a.toList.take 1
  | always answer =>
    cases answer with
    | lt => exact absurd rfl hlt
    | gt => exact absurd rfl hgt
    | eq => exact { eq_swap := rfl, isLE_trans := fun _ _ => rfl }

end ItemType

/-! ## Any slots, in any order -/

/-- Slots that are put into an empty stack one by one are their stable sort, by themselves or under
leases, and a stack is taken to be sorted if no value is greater than a later one. -/
theorem Stack.insert_sorts (cmp : Array ε → Array ε → Ordering) [TransCmp cmp] :
    (∀ m st vs, Stack.Collects cmp m st vs → Sorts cmp m st vs) ∧
    (∀ m l vs, LeaseStack.Collects cmp m l vs → Sorts cmp m l.stack vs) ∧
    (∀ m (ss : List Slot), ss.Nodup → (∀ s ∈ ss, s.index < m.size) →
      Stack.Collects cmp (empty.insertAll cmp m ss).1 (empty.insertAll cmp m ss).2
        (ss.map fun s => (s, m.value s)) ∧
      ∀ id pool, pool = none ∨ pool = some id →
        ∃ m' l', LeaseStack.insertAll cmp m { pool } (ss.map fun s => ⟨some s, some id⟩) =
            .ok (m', l') ∧
          LeaseStack.Collects cmp m' l' (ss.map fun s => (s, m.value s))) ∧
    ∀ m (st : Stack),
      st.isSorted cmp m = true ↔ (st.values m).Pairwise fun a b => cmp a b ≠ .gt := by
  refine ⟨fun _ _ _ h => h.sorts, fun _ _ _ h => h.stack.sorts, fun m ss hnodup hss => ?_,
    fun m st => isAscending_iff (st.values m)⟩
  have hapart : ss.Disjoint (empty.slots m) := by
    rw [(spans_empty m).slots_eq]
    exact List.disjoint_nil_right ss
  exact ⟨(Collects.start m).all hnodup hss hapart, fun id pool hpool =>
    (LeaseStack.Collects.start m pool).all hpool hnodup hss hapart⟩

def Memory.numbers : Memory Int where
  arrays := #[#[12, 5, 17, 10, 3]]
  cells := Memory.blockCells 0 1 ⟨0⟩ 5

def Stack.tens : Memory Int × Stack :=
  empty.insertAll ((ItemType.number 0).compare .byKey) Memory.numbers (sideBySide 0 5)

theorem Stack.insert_sorts_tens :
    TransCmp ((ItemType.number 0).compare .byKey) ∧
    Sorts ((ItemType.number 0).compare .byKey) tens.1 tens.2
      ((sideBySide 0 5).map fun s => (s, Memory.numbers.value s)) ∧
    tens.2.values tens.1 = [#[5], #[3], #[12], #[17], #[10]] := by
  have : TransCmp (ItemType.number 0).order :=
    inferInstanceAs (TransCmp (Ord.compare : Int → Int → Ordering))
  have : TransCmp (ItemType.number 0).keyOrder :=
    ItemType.transCmp_on (Ord.compare : Int → Int → Ordering) (· / 10)
  have hcmp : TransCmp ((ItemType.number 0).compare .byKey) :=
    ItemType.transCmp_compare _ (by decide) (by decide)
  obtain ⟨hsorts, -, hall, -⟩ := insert_sorts ((ItemType.number 0).compare .byKey)
  obtain ⟨hcollects, -⟩ := hall Memory.numbers (sideBySide 0 5) (by decide) (by decide)
  exact ⟨hcmp, hsorts _ _ _ hcollects, by decide +kernel⟩

end SlotPool
