import SlotPool.Proofs.Spans
import Mathlib.Logic.Function.Basic

/-!
# Families of stacks

Stacks that share a memory and have no slot in common behave as so many lists. `Stack.WellFormed`
is what a stack's head, tail, length and links have to do with each other, `Family.run` a sequence
of operations, and `Piles.run` the same sequence on lists.
-/

namespace SlotPool

open Memory

variable {ε : Type}

/-! ## Well-formed stacks -/

/-- Head, tail, length and links agree. -/
structure Stack.WellFormed (m : Memory ε) (st : Stack) : Prop where
  head_none : st.length = 0 ↔ st.head = none
  tail_none : st.length = 0 ↔ st.tail = none
  /-- The links lead from the first slot to the last one. -/
  reaches : ∀ s ∈ st.head, m.advance? s (st.length - 1) = st.tail
  /-- The last slot is there and has no link. -/
  ends : ∀ s ∈ st.tail, m.link? s = some none
  /-- The links lead through no slot twice. -/
  nodup : (m.chainUpTo st.length st.head).Nodup

namespace Stack

theorem linked_of_reaches (m : Memory ε) (s t : Slot) (n : Nat) (h : m.advance? s n = some t)
    (ht : m.link? t = some none) :
    ∃ l, l.length = n ∧ m.Linked (s :: l) none ∧ (s :: l).getLast? = some t := by
  induction n generalizing s with
  | zero =>
    obtain rfl : s = t := by simpa [advance?] using h
    exact ⟨[], rfl, ⟨ht, trivial⟩, rfl⟩
  | succ n ih =>
    obtain ⟨u, hu, hn⟩ := Option.bind_eq_some_iff.1 h
    obtain ⟨l, hl, hlinked, hlast⟩ := ih u hn
    have hlink : m.link? s = some (some u) := by
      rw [next?_eq_link?] at hu
      cases hs : m.link? s <;> simp_all
    exact ⟨u :: l, by simp [hl], ⟨hlink, hlinked⟩, by rw [List.getLast?_cons_cons, hlast]⟩

theorem WellFormed.spans {m : Memory ε} {st : Stack} (h : st.WellFormed m) :
    st.Spans m (st.slots m) := by
  suffices hs : ∃ l, st.Spans m l by
    obtain ⟨l, hl⟩ := hs
    rwa [hl.slots_eq]
  cases hh : st.head with
  | none =>
    have hl := h.head_none.2 hh
    have ht := h.tail_none.1 hl
    exact ⟨[], by simp [hh], by simp [ht], hl, trivial, List.nodup_nil⟩
  | some s =>
    obtain ⟨n, hn⟩ : ∃ n, st.length = n + 1 :=
      Nat.exists_eq_succ_of_ne_zero fun h0 => by simp [h.head_none.1 h0] at hh
    obtain ⟨t, ht⟩ : ∃ t, st.tail = some t :=
      Option.ne_none_iff_exists'.1 fun h0 => by simp [h.tail_none.2 h0] at hn
    have hr := h.reaches s hh
    rw [hn, ht] at hr
    obtain ⟨l, hl, hlinked, hlast⟩ := linked_of_reaches m s t n hr (h.ends t ht)
    refine ⟨s :: l, by simp [hh], by rw [ht, hlast], by simp [hn, hl], hlinked, ?_⟩
    have hnodup := h.nodup
    rwa [hh, ← List.head?_cons (l := l), hlinked.chainUpTo,
      List.take_of_length_le (by simp [hn, hl])] at hnodup

theorem Spans.wellFormed {m : Memory ε} {st : Stack} {l : List Slot} (h : st.Spans m l) :
    st.WellFormed m := by
  refine ⟨by simp [h.length, h.head], by simp [h.length, h.tail], ?_, ?_, ?_⟩
  · intro s hs
    rw [h.head] at hs
    cases l with
    | nil => simp at hs
    | cons a l =>
      obtain rfl : a = s := by simpa using hs
      rw [h.length, h.linked.advance? _ (by simp), h.tail, List.getLast?_eq_getElem?]
  · intro s hs
    rw [h.tail] at hs
    obtain ⟨k, rfl⟩ := List.getLast?_eq_some_iff.1 hs
    exact ((linked_append _ _ _ _).1 h.linked).2.1
  · rw [h.head, h.linked.chainUpTo, h.length, List.take_length]
    exact h.nodup

end Stack

/-! ## Operations on a family -/

/-- An operation on the stacks at some places. A stack that comes to a place is there instead of
the one that was there before. -/
inductive StackOp (ι : Type) where
  | push (target : ι) (s : Slot)
  /-- Put all of the second stack in front of the first one. -/
  | append (target source : ι)
  | pop (target : ι)
  /-- Move the first `count` slots to another place. -/
  | popStack (target : ι) (count : Nat) (dest : ι)
  /-- Move all slots to another place. -/
  | take (target dest : ι)
  /-- Move head, tail and length to another place, and clear them here. -/
  | rebind (target dest : ι)

def StackOp.names {ι : Type} : StackOp ι → List ι
  | push target _ => [target]
  | append target source => [target, source]
  | pop target => [target]
  | popStack target _ dest => [target, dest]
  | take target dest => [target, dest]
  | rebind target dest => [target, dest]

/-- Stacks that share a memory, and slots that are in none of them but in someone's hands. -/
structure Family (ι ε : Type) where
  memory : Memory ε
  stack : ι → Stack
  loose : List Slot

/-- Lists of slots, one at each place. -/
structure Piles (ι : Type) where
  stack : ι → List Slot
  loose : List Slot

section

variable {ι : Type} [DecidableEq ι]

open Function (update)

/-- Only a slot that is in someone's hands can be pushed, and no stack can be appended to itself. -/
def Family.perform (f : Family ι ε) : StackOp ι → Except Violation (Family ι ε)
  | .push i s =>
    if s ∈ f.loose then
      let (memory, st) := (f.stack i).push f.memory s
      .ok { memory, stack := update f.stack i st, loose := f.loose.erase s }
    else .ok f
  | .append i j =>
    if i = j then .ok f
    else
      let (memory, st) := (f.stack i).append f.memory (f.stack j)
      .ok { f with memory, stack := update (update f.stack i st) j .empty }
  | .pop i =>
    let (memory, st, s) := (f.stack i).pop f.memory
    .ok { memory, stack := update f.stack i st, loose := s.toList ++ f.loose }
  | .popStack i count j =>
    match (f.stack i).split f.memory count with
    | (memory, .ok (front, rest)) =>
      .ok { f with memory, stack := update (update f.stack i rest) j front }
    | (_, .error v) => .error v
  | .take i j =>
    let st := f.stack i
    .ok { f with stack := update (update f.stack i .empty) j st }
  | .rebind i j =>
    let ⟨head, tail, length⟩ := f.stack i
    .ok { f with stack := update (update f.stack i .empty) j { head, tail, length } }

def Family.run (f : Family ι ε) : List (StackOp ι) → Except Violation (Family ι ε)
  | [] => .ok f
  | op :: ops =>
    match f.perform op with
    | .ok f => f.run ops
    | .error v => .error v

def Piles.perform (p : Piles ι) : StackOp ι → Piles ι
  | .push i s =>
    if s ∈ p.loose then
      { stack := update p.stack i (s :: p.stack i), loose := p.loose.erase s }
    else p
  | .append i j =>
    if i = j then p
    else { p with stack := update (update p.stack i (p.stack j ++ p.stack i)) j [] }
  | .pop i =>
    { stack := update p.stack i (p.stack i).tail
      loose := (p.stack i).head?.toList ++ p.loose }
  | .popStack i count j =>
    let front := (p.stack i).take count
    { p with stack := update (update p.stack i ((p.stack i).drop count)) j front }
  | .take i j => { p with stack := update (update p.stack i []) j (p.stack i) }
  | .rebind i j => { p with stack := update (update p.stack i []) j (p.stack i) }

def Piles.run (p : Piles ι) (ops : List (StackOp ι)) : Piles ι := ops.foldl Piles.perform p

/-! ## Separation -/

/-- No slot occurs twice. -/
structure Piles.Apart (p : Piles ι) : Prop where
  nodup : ∀ i, (p.stack i).Nodup
  disjoint : ∀ i j, i ≠ j → (p.stack i).Disjoint (p.stack j)
  loose_nodup : p.loose.Nodup
  loose_disjoint : ∀ i, (p.stack i).Disjoint p.loose

omit [DecidableEq ι] in
theorem Piles.Apart.loose_append {p : Piles ι} (h : p.Apart) (i : ι) :
    (p.stack i ++ p.loose).Nodup :=
  (h.nodup i).append h.loose_nodup (h.loose_disjoint i)

theorem Piles.Apart.update_one {p : Piles ι} (h : p.Apart) (i : ι) (a ls : List Slot)
    (hn : (a ++ ls).Nodup) (hs : a ++ ls ⊆ p.stack i ++ p.loose) :
    Apart { stack := update p.stack i a, loose := ls } := by
  have hna := List.nodup_append.1 hn
  -- Nothing of it is in another pile.
  have hout : ∀ k, k ≠ i → (p.stack k).Disjoint (a ++ ls) := by
    intro k hk s hsk hsa
    rcases List.mem_append.1 (hs hsa) with hi | hl
    · exact h.disjoint k i hk hsk hi
    · exact h.loose_disjoint k hsk hl
  refine ⟨?_, ?_, hna.2.1, ?_⟩
  · intro k
    by_cases hk : k = i
    · subst hk
      simpa using hna.1
    · simpa [hk] using h.nodup k
  · intro k l hkl
    by_cases hk : k = i
    · subst hk
      have := hout l (Ne.symm hkl)
      simp only [Function.update_self, Function.update_of_ne (Ne.symm hkl)]
      exact fun s hsa hsl => this hsl (List.mem_append_left _ hsa)
    · by_cases hl : l = i
      · subst hl
        simp only [Function.update_self, Function.update_of_ne hk]
        exact fun s hsk hsa => hout k hk hsk (List.mem_append_left _ hsa)
      · simpa [hk, hl] using h.disjoint k l hkl
  · intro k
    by_cases hk : k = i
    · subst hk
      simp only [Function.update_self]
      exact (List.nodup_append'.1 hn).2.2
    · simp only [Function.update_of_ne hk]
      exact fun s hsk hsl => hout k hk hsk (List.mem_append_right _ hsl)

theorem Piles.Apart.transfer {p : Piles ι} (h : p.Apart) (i j : ι) (a b : List Slot)
    (hab : (b ++ a).Perm (p.stack i)) :
    Apart { p with stack := update (update p.stack i a) j b } := by
  have hn : (a ++ (b ++ p.loose)).Nodup := by
    apply (h.loose_append i).perm
    rw [← List.append_assoc]
    exact ((List.perm_append_comm.trans hab).append_right p.loose).symm
  have h1 := h.update_one i a (b ++ p.loose) hn (by
    rw [← List.append_assoc]
    exact ((List.perm_append_comm.trans hab).append_right p.loose).subset)
  apply h1.update_one j b p.loose (List.nodup_append'.1 hn).2.1
  exact List.subset_append_right _ _

theorem Piles.perform_apart {p : Piles ι} (h : p.Apart) (op : StackOp ι) :
    (p.perform op).Apart := by
  cases op with
  | push i s =>
    by_cases hs : s ∈ p.loose
    · have hp : (s :: p.stack i ++ p.loose.erase s).Perm (p.stack i ++ p.loose) :=
        List.perm_middle.symm.trans ((List.perm_cons_erase hs).symm.append_left _)
      rw [perform, if_pos hs]
      exact h.update_one i _ _ ((h.loose_append i).perm hp.symm) hp.subset
    · rwa [perform, if_neg hs]
  | append i j =>
    by_cases hij : i = j
    · rwa [perform, if_pos hij]
    · have hn : (p.stack j ++ p.stack i ++ p.loose).Nodup := by
        rw [List.append_assoc]
        apply (h.nodup j).append (h.loose_append i)
        rw [List.disjoint_append_right]
        exact ⟨h.disjoint j i (Ne.symm hij), h.loose_disjoint j⟩
      have h1 := h.update_one j [] (p.stack j ++ p.loose) (h.loose_append j) (by simp)
      have h2 := h1.update_one i (p.stack j ++ p.stack i) p.loose hn (by simp [hij])
      rw [perform, if_neg hij, Function.update_comm hij]
      exact h2
  | pop i =>
    have hp : ((p.stack i).tail ++ ((p.stack i).head?.toList ++ p.loose)).Perm
        (p.stack i ++ p.loose) := by
      cases p.stack i with
      | nil => simp
      | cons s l => exact List.perm_middle
    exact h.update_one i _ _ ((h.loose_append i).perm hp.symm) hp.subset
  | popStack i count j =>
    exact h.transfer i j _ _ (by rw [List.take_append_drop])
  | take i j => exact h.transfer i j [] _ (by simp)
  | rebind i j => exact h.transfer i j [] _ (by simp)

/-! ## Refinement -/

namespace Family

def piles (f : Family ι ε) : Piles ι where
  stack i := (f.stack i).slots f.memory
  loose := f.loose

/-- All stacks are well-formed and no slot is in two places. -/
structure Sound (f : Family ι ε) : Prop where
  wellFormed : ∀ i, (f.stack i).WellFormed f.memory
  disjoint : ∀ i j, i ≠ j →
    ((f.stack i).slots f.memory).Disjoint ((f.stack j).slots f.memory)
  loose_nodup : f.loose.Nodup
  loose_slots : ∀ s ∈ f.loose, s.index < f.memory.size
  loose_disjoint : ∀ i, ((f.stack i).slots f.memory).Disjoint f.loose

/-- The stacks are the chains of the piles. -/
structure Models (f : Family ι ε) (p : Piles ι) : Prop where
  spans : ∀ i, (f.stack i).Spans f.memory (p.stack i)
  loose : f.loose = p.loose
  loose_slots : ∀ s ∈ p.loose, s.index < f.memory.size
  apart : p.Apart

omit [DecidableEq ι] in
theorem Sound.models {f : Family ι ε} (h : f.Sound) : f.Models f.piles where
  spans i := (h.wellFormed i).spans
  loose := rfl
  loose_slots := h.loose_slots
  apart := ⟨fun i => (h.wellFormed i).spans.nodup, h.disjoint, h.loose_nodup, h.loose_disjoint⟩

omit [DecidableEq ι] in
theorem Models.piles_eq {f : Family ι ε} {p : Piles ι} (h : f.Models p) : f.piles = p := by
  obtain ⟨stack, loose⟩ := p
  simp only [piles, Piles.mk.injEq]
  exact ⟨funext fun i => (h.spans i).slots_eq, h.loose⟩

omit [DecidableEq ι] in
theorem Models.sound {f : Family ι ε} {p : Piles ι} (h : f.Models p) : f.Sound := by
  have hp := h.piles_eq
  subst hp
  exact ⟨fun i => (h.spans i).wellFormed, h.apart.disjoint, h.apart.loose_nodup, h.loose_slots,
    h.apart.loose_disjoint⟩

theorem spans_update {m : Memory ε} {stack : ι → Stack} {lists : ι → List Slot} (i k : ι)
    {a : Stack} {l : List Slot} (ha : a.Spans m l) (h : k ≠ i → (stack k).Spans m (lists k)) :
    (update stack i a k).Spans m (update lists i l k) := by
  by_cases hk : k = i
  · subst hk
    simpa using ha
  · simpa [hk] using h hk

theorem push_models {f : Family ι ε} {p : Piles ι} (h : f.Models p) (i : ι) (s : Slot)
    (hs : s ∈ p.loose) :
    ∃ f', f.perform (.push i s) = .ok f' ∧ f'.Models (p.perform (.push i s)) ∧
      f'.memory.unlinked = f.memory.unlinked := by
  have hapart := Piles.perform_apart h.apart (.push i s)
  have hr := Stack.push_relinks f.memory (f.stack i) s
  have hspans := Stack.push_spans (h.spans i) (h.loose_slots s hs) fun hi =>
    h.apart.loose_disjoint i hi hs
  rw [Piles.perform, if_pos hs] at hapart ⊢
  refine ⟨_, by rw [perform, h.loose, if_pos hs], ?_, hr.unlinked⟩
  refine ⟨fun k => ?_, rfl, ?_, hapart⟩
  · refine spans_update i k hspans fun _ => (h.spans k).frame hr ?_
    simpa using fun hk => h.apart.loose_disjoint k hk hs
  · intro t ht
    rw [size_of_unlinked hr.unlinked]
    exact h.loose_slots t (List.mem_of_mem_erase ht)

theorem append_models {f : Family ι ε} {p : Piles ι} (h : f.Models p) (i j : ι) (hij : i ≠ j) :
    ∃ f', f.perform (.append i j) = .ok f' ∧ f'.Models (p.perform (.append i j)) ∧
      f'.memory.unlinked = f.memory.unlinked := by
  have hapart := Piles.perform_apart h.apart (.append i j)
  have hr := Stack.append_relinks (f.stack i) (h.spans j)
  have hspans := Stack.append_spans (h.spans i) (h.spans j) (h.apart.disjoint j i (Ne.symm hij))
  rw [Piles.perform, if_neg hij] at hapart ⊢
  refine ⟨_, by rw [perform, if_neg hij], ?_, hr.unlinked⟩
  refine ⟨fun k => ?_, h.loose, ?_, hapart⟩
  · apply spans_update j k (Stack.spans_empty _)
    intro hk
    exact spans_update i k hspans fun _ => (h.spans k).frame hr (h.apart.disjoint k j hk)
  · intro t ht
    rw [size_of_unlinked hr.unlinked]
    exact h.loose_slots t ht

theorem pop_models {f : Family ι ε} {p : Piles ι} (h : f.Models p) (i : ι) :
    ∃ f', f.perform (.pop i) = .ok f' ∧ f'.Models (p.perform (.pop i)) ∧
      f'.memory.unlinked = f.memory.unlinked := by
  have hapart := Piles.perform_apart h.apart (.pop i)
  have hr := Stack.pop_relinks (h.spans i)
  have hresult : (f.stack i).pop f.memory =
      (((f.stack i).pop f.memory).1, ((f.stack i).pop f.memory).2.1, (p.stack i).head?) ∧
      ((f.stack i).pop f.memory).2.1.Spans ((f.stack i).pop f.memory).1 (p.stack i).tail := by
    have hsp := h.spans i
    cases hl : p.stack i with
    | nil =>
      rw [hl] at hsp
      rw [Stack.pop_of_nil hsp]
      exact ⟨rfl, hsp⟩
    | cons s l =>
      rw [hl] at hsp
      have hspans := Stack.pop_spans hsp
      rw [Stack.pop_of_cons hsp] at hspans ⊢
      exact ⟨rfl, hspans⟩
  refine ⟨_, by rw [perform, hresult.1], ?_, hr.unlinked⟩
  refine ⟨fun k => ?_, by simp [Piles.perform, h.loose], ?_, hapart⟩
  · exact spans_update i k hresult.2 fun hk => (h.spans k).frame hr (h.apart.disjoint k i hk)
  · intro t ht
    rw [size_of_unlinked hr.unlinked]
    rcases List.mem_append.1 ht with ht | ht
    · exact (h.spans i).lt_size t (List.mem_of_mem_head? (by simpa using ht))
    · exact h.loose_slots t ht

theorem popStack_models {f : Family ι ε} {p : Piles ι} (h : f.Models p) (i j : ι) (count : Nat) :
    ∃ f', f.perform (.popStack i count j) = .ok f' ∧ f'.Models (p.perform (.popStack i count j)) ∧
      f'.memory.unlinked = f.memory.unlinked := by
  have hapart := Piles.perform_apart h.apart (.popStack i count j)
  obtain ⟨m', front, rest, hsplit, hfront, hrest, hr⟩ := Stack.split_spec (h.spans i) count
  refine ⟨_, by rw [perform, hsplit], ?_, hr.unlinked⟩
  refine ⟨fun k => ?_, h.loose, ?_, hapart⟩
  · apply spans_update j k hfront
    intro _
    exact spans_update i k hrest fun hk => (h.spans k).frame hr (h.apart.disjoint k i hk)
  · intro t ht
    rw [size_of_unlinked hr.unlinked]
    exact h.loose_slots t ht

theorem move_models {f : Family ι ε} {p : Piles ι} (h : f.Models p) (i j : ι) :
    Models { f with stack := update (update f.stack i .empty) j (f.stack i) }
      { p with stack := update (update p.stack i []) j (p.stack i) } := by
  refine ⟨fun k => ?_, h.loose, h.loose_slots, Piles.perform_apart h.apart (.take i j)⟩
  apply spans_update j k (h.spans i)
  intro _
  exact spans_update i k (Stack.spans_empty _) fun _ => h.spans k

/-- Every operation does to the piles what it does to the stacks. -/
theorem perform_models {f : Family ι ε} {p : Piles ι} (h : f.Models p) (op : StackOp ι) :
    ∃ f', f.perform op = .ok f' ∧ f'.Models (p.perform op) ∧
      f'.memory.unlinked = f.memory.unlinked := by
  cases op with
  | push i s =>
    by_cases hs : s ∈ p.loose
    · exact push_models h i s hs
    · refine ⟨f, by rw [perform, h.loose, if_neg hs], ?_, rfl⟩
      rwa [Piles.perform, if_neg hs]
  | append i j =>
    by_cases hij : i = j
    · refine ⟨f, by rw [perform, if_pos hij], ?_, rfl⟩
      rwa [Piles.perform, if_pos hij]
    · exact append_models h i j hij
  | pop i => exact pop_models h i
  | popStack i count j => exact popStack_models h i j count
  | take i j => exact ⟨_, rfl, move_models h i j, rfl⟩
  | rebind i j => exact ⟨_, rfl, move_models h i j, rfl⟩

theorem run_models {f : Family ι ε} {p : Piles ι} (h : f.Models p) (ops : List (StackOp ι)) :
    ∃ f', f.run ops = .ok f' ∧ f'.Models (p.run ops) ∧
      f'.memory.unlinked = f.memory.unlinked := by
  induction ops generalizing f p with
  | nil => exact ⟨f, rfl, h, rfl⟩
  | cons op ops ih =>
    obtain ⟨f₁, hf₁, hm₁, hu₁⟩ := perform_models h op
    obtain ⟨f₂, hf₂, hm₂, hu₂⟩ := ih hm₁
    exact ⟨f₂, by rw [run, hf₁, ← hf₂], hm₂, hu₂.trans hu₁⟩

end Family

theorem Piles.perform_of_not_named (p : Piles ι) (op : StackOp ι) (k : ι) (hk : k ∉ op.names) :
    (p.perform op).stack k = p.stack k := by
  cases op <;> simp only [StackOp.names, List.mem_cons, List.not_mem_nil, or_false, not_or] at hk
  case push i s => by_cases hs : s ∈ p.loose <;> simp [perform, hs, hk]
  case append i j => by_cases hij : i = j <;> simp [perform, hij, hk]
  all_goals simp [perform, hk]

theorem Piles.run_of_not_named (p : Piles ι) (ops : List (StackOp ι)) (k : ι)
    (hk : ∀ op ∈ ops, k ∉ op.names) : (p.run ops).stack k = p.stack k := by
  induction ops generalizing p with
  | nil => rfl
  | cons op ops ih =>
    rw [← perform_of_not_named p op k (hk op List.mem_cons_self)]
    exact ih (p.perform op) fun op' h' => hk op' (List.mem_cons_of_mem _ h')

/-- Any sequence of operations on well-formed stacks without a common slot does to the slots of the
stacks what its names say, and never finds a chain too short. The stacks stay well-formed and
apart. Values and owners stay, and so do the stacks that are not named. -/
theorem Family.run_refines (f : Family ι ε) (h : f.Sound) (ops : List (StackOp ι)) :
    ∃ f', f.run ops = .ok f' ∧ f'.Sound ∧ f'.piles = f.piles.run ops ∧
      (∀ s, f'.memory.value s = f.memory.value s ∧ f'.memory.owner? s = f.memory.owner? s) ∧
      ∀ k, (∀ op ∈ ops, k ∉ op.names) →
        (f'.stack k).slots f'.memory = (f.stack k).slots f.memory := by
  obtain ⟨f', hf', hm, hu⟩ := run_models h.models ops
  refine ⟨f', hf', hm.sound, hm.piles_eq, fun s => ?_, ?_⟩
  · exact ⟨value_of_unlinked hu s, owner?_of_unlinked hu s⟩
  · intro k hk
    rw [(hm.spans k).slots_eq, f.piles.run_of_not_named ops k hk]
    rfl

/-- Three slots, of which the first two are a stack and the last one is loose. -/
def Family.twoAndOne : Family Bool Nat where
  memory :=
    { arrays := #[#[10, 20, 30]]
      cells := #[⟨⟨0, 0, 1⟩, ⟨0⟩, some ⟨1⟩⟩, ⟨⟨0, 1, 1⟩, ⟨0⟩, none⟩, ⟨⟨0, 2, 1⟩, ⟨0⟩, none⟩] }
  stack i := if i then ⟨some ⟨0⟩, some ⟨1⟩, 2⟩ else .empty
  loose := [⟨2⟩]

theorem Family.twoAndOne_sound : twoAndOne.Sound := by
  have hs : ∀ i, (twoAndOne.stack i).Spans twoAndOne.memory (if i then [⟨0⟩, ⟨1⟩] else []) := by
    rintro (_ | _)
    · exact Stack.spans_empty _
    · exact ⟨rfl, rfl, rfl, ⟨rfl, rfl, trivial⟩, by decide⟩
  refine ⟨fun i => (hs i).wellFormed, ?_, by decide, by decide, ?_⟩
  · intro i j hij
    rw [(hs i).slots_eq, (hs j).slots_eq]
    revert i j
    simp
  · intro i
    rw [(hs i).slots_eq]
    cases i <;> simp [twoAndOne]

theorem Family.run_refines_twoAndOne :
    twoAndOne.Sound ∧ ∃ f', twoAndOne.run [.push true ⟨2⟩, .popStack true 2 false] = .ok f' ∧
      f'.Sound ∧ f'.piles.stack true = [⟨1⟩] ∧ f'.piles.stack false = [⟨2⟩, ⟨0⟩] := by
  obtain ⟨f', hf', hsound, hpiles, -⟩ :=
    run_refines twoAndOne twoAndOne_sound [.push true ⟨2⟩, .popStack true 2 false]
  refine ⟨twoAndOne_sound, f', hf', hsound, ?_, ?_⟩
  · rw [hpiles]
    decide
  · rw [hpiles]
    decide

end

end SlotPool
