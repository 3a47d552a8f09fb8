import SlotPool.BlockList
import Mathlib.Data.List.Nodup
import Mathlib.Data.List.Perm.Basic
import Mathlib.Tactic.Common

/-!
# Blocks that many threads add at once

Any number of threads add blocks to one list. They take their steps in any order, and publishing an
entry may fail as often as it likes. `Additions` keeps, beside the list, how far each thread has
come and which entries were published; `Additions.Sound` is what every step keeps of that.
-/

namespace SlotPool

variable {β : Type}

/-! ## The links of a list -/

namespace BlockList

def block? (l : BlockList β) (i : Nat) : Option β := l.entries[i]?.map (·.block)

/-- From `start` on, the links lead through these entries and then to an end. -/
inductive Chain (l : BlockList β) : Option Nat → List Nat → Prop where
  | nil : Chain l none []
  | cons {i : Nat} {e : BlockEntry β} {rest : List Nat} (he : l.entries[i]? = some e)
      (h : Chain l e.previous rest) : Chain l (some i) (i :: rest)

variable {l l' : BlockList β} {start : Option Nat} {is : List Nat}

theorem Chain.congr (h : l.Chain start is) (he : ∀ i ∈ is, l'.entries[i]? = l.entries[i]?) :
    l'.Chain start is := by
  induction h with
  | nil => exact .nil
  | @cons i e rest hi _ ih =>
    refine .cons ((he i List.mem_cons_self).trans hi) (ih fun j hj => ?_)
    exact he j (List.mem_cons_of_mem i hj)

theorem Chain.drainFrom (h : l.Chain start is) {fuel : Nat} (hf : is.length ≤ fuel) :
    (l.drainFrom fuel start).map some = is.map l.block? := by
  induction h generalizing fuel with
  | nil => cases fuel <;> rfl
  | @cons i e rest he _ ih =>
    obtain ⟨fuel, rfl⟩ : ∃ k, fuel = k + 1 :=
      ⟨fuel - 1, by simp only [List.length_cons] at hf; omega⟩
    have hrest := ih (Nat.le_of_succ_le_succ hf)
    simp only [BlockList.drainFrom, he, List.map_cons, hrest, block?, Option.map_some]

end BlockList

/-! ## One addition -/

namespace Adding

/-- The block for which no entry is made yet. -/
def waiting? : Adding β → Option β
  | make block => some block
  | _ => none

/-- The entry that is made, but not published. -/
def unpublished? : Adding β → Option Nat
  | read entry => some entry
  | link entry _ => some entry
  | publish entry _ => some entry
  | _ => none

/-- The entry is published, but not counted. -/
def isUncounted : Adding β → Bool
  | count => true
  | _ => false

def isFinished : Adding β → Bool
  | finished => true
  | _ => false

/-- The entry that was published in a step from the first stage to the second. -/
def published? : Adding β → Adding β → Option Nat
  | publish entry _, count => some entry
  | _, _ => none

end Adding

/-! ## Many additions -/

structure Additions (β : Type) where
  list : BlockList β := {}
  /-- How far each addition has come, in the order in which they began. -/
  threads : List (Adding β) := []
  /-- The blocks that were to be added. -/
  blocks : List β := []
  /-- The entries whose publication succeeded, newest first. -/
  published : List Nat := []

/-- What happens next. -/
inductive Turn (β : Type) where
  /-- A thread begins to add a block. -/
  | start (block : β)
  /-- A thread takes a step. If `spurious` says so, it fails to publish for no reason. -/
  | go (thread : Nat) (spurious : Bool)

namespace Additions

def turn (s : Additions β) : Turn β → Additions β
  | .start block => { s with threads := s.threads ++ [.make block], blocks := block :: s.blocks }
  | .go thread spurious =>
    match s.threads[thread]? with
    | none => s
    | some c =>
      let (list, c') := c.step spurious s.list
      { s with
        list
        threads := s.threads.set thread c'
        published := (c.published? c').toList ++ s.published }

/-- Takes turns, the first one first. -/
def turns (s : Additions β) (schedule : List (Turn β)) : Additions β := schedule.foldl turn s

theorem turn_go_of_none {s : Additions β} {thread : Nat} (h : s.threads[thread]? = none)
    (spurious : Bool) : s.turn (.go thread spurious) = s := by
  simp only [turn, h]

theorem turn_go_of_some {s : Additions β} {thread : Nat} {c : Adding β}
    (h : s.threads[thread]? = some c) (spurious : Bool) :
    s.turn (.go thread spurious) =
      { s with
        list := (c.step spurious s.list).1
        threads := s.threads.set thread (c.step spurious s.list).2
        published := (c.published? (c.step spurious s.list).2).toList ++ s.published } := by
  simp only [turn, h]

/-- No addition is on its way. -/
def IsQuiet (s : Additions β) : Prop := s.threads.all Adding.isFinished = true

instance (s : Additions β) : Decidable s.IsQuiet := inferInstanceAs (Decidable (_ = true))

/-- What holds of the list, whatever turns were taken. -/
structure Sound (s : Additions β) : Prop where
  chain : s.list.Chain s.list.newest s.published
  /-- Each entry is either published, once, or in the hands of one thread. -/
  entries : (s.published ++ s.threads.filterMap Adding.unpublished?).Perm
    (List.range s.list.entries.size)
  /-- An entry that a thread tries to publish is linked to what the thread has seen. -/
  linked : ∀ entry seen, .publish entry seen ∈ s.threads →
    ∃ block, s.list.entries[entry]? = some ⟨block, seen⟩
  counted : s.list.length + s.threads.countP Adding.isUncounted = s.published.length
  blocks : (s.list.entries.toList.map (·.block) ++
    s.threads.filterMap Adding.waiting?).Perm s.blocks

variable {s : Additions β} {l : BlockList β} {c : Adding β} {rest : List (Adding β)}
  {blocks : List β} {published : List Nat}

theorem sound_empty : ({} : Additions β).Sound where
  chain := .nil
  entries := .refl _
  linked := fun _ _ h => nomatch h
  counted := rfl
  blocks := .refl _

theorem Sound.perm (h : s.Sound) {threads : List (Adding β)} (hp : s.threads.Perm threads) :
    Sound { s with threads } where
  chain := h.chain
  entries := ((hp.filterMap _).symm.append_left _).trans h.entries
  linked := fun entry seen hm => h.linked entry seen (hp.mem_iff.2 hm)
  counted := by rw [← h.counted, hp.countP_eq]
  blocks := ((hp.filterMap _).symm.append_left _).trans h.blocks

theorem Sound.nodup (h : s.Sound) :
    (s.published ++ s.threads.filterMap Adding.unpublished?).Nodup :=
  h.entries.nodup_iff.2 List.nodup_range

theorem Sound.lt_size (h : s.Sound) {i : Nat} (hi : i ∈ s.published) : i < s.list.entries.size :=
  List.mem_range.1 (h.entries.mem_iff.1 (List.mem_append_left _ hi))

theorem Sound.owned (h : Sound ⟨l, c :: rest, blocks, published⟩) {entry : Nat}
    (hc : c.unpublished? = some entry) :
    entry ∉ published ∧ entry ∉ rest.filterMap Adding.unpublished? := by
  have hn := h.nodup
  rw [List.filterMap_cons_some hc, List.nodup_append] at hn
  obtain ⟨-, hn, hd⟩ := hn
  exact ⟨fun hp => hd entry hp entry List.mem_cons_self rfl, (List.nodup_cons.1 hn).1⟩

/-! ## One step -/

theorem Sound.begin (h : s.Sound) (block : β) :
    Sound { s with threads := .make block :: s.threads, blocks := block :: s.blocks } where
  chain := h.chain
  entries := h.entries
  linked := fun entry seen hm => h.linked entry seen (by simpa using hm)
  counted := by rw [← h.counted]; rfl
  blocks := List.perm_middle.trans (h.blocks.cons block)

theorem Sound.make {block : β} (h : Sound ⟨l, .make block :: rest, blocks, published⟩) :
    Sound ⟨{ l with entries := l.entries.push ⟨block, none⟩ }, .read l.entries.size :: rest,
      blocks, published⟩ where
  chain := h.chain.congr fun i hi => by
    have hlt : i < l.entries.size := h.lt_size hi
    simp only [Array.getElem?_push, Nat.ne_of_lt hlt, if_false]
  entries := by
    simp only [Array.size_push, List.range_succ]
    refine List.perm_middle.trans ((h.entries.cons _).trans ?_)
    exact (List.perm_append_singleton _ _).symm
  linked := fun entry seen hm => by
    obtain ⟨b, hb⟩ := h.linked entry seen (by simpa using hm)
    have hlt := (Array.getElem?_eq_some_iff.1 hb).1
    refine ⟨b, ?_⟩
    simpa only [Array.getElem?_push, Nat.ne_of_lt hlt, if_false] using hb
  counted := h.counted
  blocks := by
    refine List.Perm.trans ?_ h.blocks
    simp only [Array.toList_push, List.map_append, List.map_cons, List.map_nil, List.append_assoc,
      List.cons_append, List.nil_append]
    rfl

theorem Sound.relink {entry : Nat} (h : Sound ⟨l, c :: rest, blocks, published⟩)
    (hc : c.unpublished? = some entry) (seen : Option Nat) :
    Sound ⟨l, .link entry seen :: rest, blocks, published⟩ where
  chain := h.chain
  entries := by
    have he := h.entries
    rwa [List.filterMap_cons_some hc] at he
  linked := fun i seen' hm => h.linked i seen' (by simp only [List.mem_cons] at hm ⊢; simp_all)
  counted := by
    have hcount := h.counted
    cases c with
    | read | link | publish => exact hcount
    | make | count | finished => cases hc
  blocks := by
    have hblocks := h.blocks
    cases c with
    | read | link | publish => exact hblocks
    | make | count | finished => cases hc

theorem Sound.link {entry : Nat} {seen : Option Nat}
    (h : Sound ⟨l, .link entry seen :: rest, blocks, published⟩) :
    Sound ⟨{ l with entries := l.entries.modify entry fun e => { e with previous := seen } },
      .publish entry seen :: rest, blocks, published⟩ := by
  obtain ⟨hnp, hnr⟩ := h.owned rfl
  have hother : ∀ i, i ≠ entry →
      (l.entries.modify entry fun e => { e with previous := seen })[i]? = l.entries[i]? := by
    intro i hi
    simp only [Array.getElem?_modify, hi.symm, if_false]
  refine ⟨h.chain.congr fun i hi => hother i fun he => hnp (he ▸ hi), ?_, ?_, h.counted, ?_⟩
  · rw [Array.size_modify]
    exact h.entries
  · intro i seen' hm
    rcases List.mem_cons.1 hm with heq | hm
    · obtain ⟨rfl, rfl⟩ := Adding.publish.inj heq
      have hlt : i < l.entries.size :=
        List.mem_range.1 (h.entries.mem_iff.1 (List.mem_append_right _ List.mem_cons_self))
      exact ⟨_, by simp only [Array.getElem?_modify, if_true, Array.getElem?_eq_getElem hlt]; rfl⟩
    · have hi : i ≠ entry := fun he => hnr (List.mem_filterMap.2 ⟨_, hm, by rw [← he]; rfl⟩)
      obtain ⟨b, hb⟩ := h.linked i seen' (List.mem_cons_of_mem _ hm)
      exact ⟨b, (hother i hi).trans hb⟩
  · refine List.Perm.trans (.of_eq ?_) h.blocks
    congr 1
    apply List.ext_getElem?
    intro i
    simp only [List.getElem?_map, Array.getElem?_toList, Array.getElem?_modify]
    split
    · rw [Option.map_map]; rfl
    · rfl

theorem Sound.publish {entry : Nat}
    (h : Sound ⟨l, .publish entry l.newest :: rest, blocks, published⟩) :
    Sound ⟨{ l with newest := some entry }, .count :: rest, blocks, entry :: published⟩ where
  chain := by
    obtain ⟨block, he⟩ := h.linked entry l.newest List.mem_cons_self
    exact .cons he (h.chain.congr fun _ _ => rfl)
  entries := List.perm_middle.symm.trans h.entries
  linked := fun i seen hm => h.linked i seen (by simp only [List.mem_cons] at hm ⊢; simp_all)
  counted := by
    have hcount := h.counted
    simp only [List.countP_cons, Adding.isUncounted, List.length_cons] at hcount ⊢
    simp only [if_true, Bool.false_eq_true, if_false] at hcount ⊢
    omega
  blocks := h.blocks

theorem Sound.count (h : Sound ⟨l, .count :: rest, blocks, published⟩) :
    Sound ⟨{ l with length := l.length + 1 }, .finished :: rest, blocks, published⟩ where
  chain := h.chain.congr fun _ _ => rfl
  entries := h.entries
  linked := fun i seen hm => h.linked i seen (by simpa using hm)
  counted := by
    have hcount := h.counted
    simp only [List.countP_cons, Adding.isUncounted] at hcount ⊢
    simp only [if_true, Bool.false_eq_true, if_false] at hcount ⊢
    omega
  blocks := h.blocks

theorem Sound.step (spurious : Bool) (h : Sound ⟨l, c :: rest, blocks, published⟩) :
    Sound ⟨(c.step spurious l).1, (c.step spurious l).2 :: rest, blocks,
      (c.published? (c.step spurious l).2).toList ++ published⟩ := by
  cases c with
  | make block => exact h.make
  | read entry => exact h.relink rfl l.newest
  | link entry seen => exact h.link
  | publish entry seen =>
    by_cases hs : l.newest = seen ∧ spurious = false
    · obtain ⟨rfl, rfl⟩ := hs
      simp only [Adding.step, and_self, if_true]
      exact h.publish
    · simp only [Adding.step, if_neg hs]
      exact h.relink rfl l.newest
  | count => exact h.count
  | finished => exact h

theorem Sound.turn (h : s.Sound) (t : Turn β) : (s.turn t).Sound := by
  cases t with
  | start block => exact (h.begin block).perm (List.perm_append_singleton _ _).symm
  | go thread spurious =>
    cases hc : s.threads[thread]? with
    | none => exact (turn_go_of_none hc spurious).symm ▸ h
    | some c =>
      rw [turn_go_of_some hc]
      obtain ⟨hlt, rfl⟩ := List.getElem?_eq_some_iff.1 hc
      have hone := (h.perm (List.getElem_cons_eraseIdx_perm hlt).symm).step spurious
      exact hone.perm (List.set_perm_cons_eraseIdx hlt _).symm

/-! ## What a step leaves -/

/-- Nothing that is published is taken back, and no later step links it anew. -/
theorem Sound.turn_keeps (h : s.Sound) (t : Turn β) :
    s.published <:+ (s.turn t).published ∧
      ∀ i ∈ s.published, (s.turn t).list.entries[i]? = s.list.entries[i]? := by
  cases t with
  | start block => exact ⟨List.suffix_refl _, fun _ _ => rfl⟩
  | go thread spurious =>
    cases hc : s.threads[thread]? with
    | none =>
      rw [turn_go_of_none hc]
      exact ⟨List.suffix_refl _, fun _ _ => rfl⟩
    | some c =>
      rw [turn_go_of_some hc]
      refine ⟨List.suffix_append _ _, fun i hi => ?_⟩
      obtain ⟨hlt, hget⟩ := List.getElem?_eq_some_iff.1 hc
      have hone := h.perm (List.getElem_cons_eraseIdx_perm hlt).symm
      rw [hget] at hone
      cases c with
      | make block =>
        have hsize : i < s.list.entries.size := h.lt_size hi
        simp only [Adding.step, Array.getElem?_push, Nat.ne_of_lt hsize, if_false]
      | link entry seen =>
        have hne : entry ≠ i := fun he => (hone.owned rfl).1 (he ▸ hi)
        simp only [Adding.step, Array.getElem?_modify, hne, if_false]
      | publish entry seen => simp only [Adding.step]; split <;> rfl
      | read | count | finished => rfl

/-! ## Every schedule -/

theorem Sound.turns (h : s.Sound) (schedule : List (Turn β)) : (s.turns schedule).Sound := by
  induction schedule generalizing s with
  | nil => exact h
  | cons t schedule ih => exact ih (h.turn t)

theorem Sound.turns_keep (h : s.Sound) (schedule : List (Turn β)) :
    s.published <:+ (s.turns schedule).published ∧
      ∀ i ∈ s.published, (s.turns schedule).list.entries[i]? = s.list.entries[i]? := by
  induction schedule generalizing s with
  | nil => exact ⟨List.suffix_refl _, fun _ _ => rfl⟩
  | cons t schedule ih =>
    obtain ⟨hsuffix, hkept⟩ := h.turn_keeps t
    obtain ⟨hsuffix', hkept'⟩ := ih (h.turn t)
    refine ⟨hsuffix.trans hsuffix', fun i hi => ?_⟩
    exact (hkept' i (hsuffix.subset hi)).trans (hkept i hi)

theorem Sound.published_length_le (h : s.Sound) : s.published.length ≤ s.list.entries.size := by
  have hlen := h.entries.length_eq
  rw [List.length_append, List.length_range] at hlen
  omega

theorem Sound.drainFrom_eq_drain (h : s.Sound) {fuel : Nat} (hf : s.published.length ≤ fuel) :
    s.list.drainFrom fuel s.list.newest = s.list.drain := by
  apply List.map_injective_iff.2 fun _ _ => Option.some.inj
  exact (h.chain.drainFrom hf).trans (h.chain.drainFrom h.published_length_le).symm

theorem IsQuiet.forall_finished (hq : s.IsQuiet) {c : Adding β} (hc : c ∈ s.threads) :
    c = .finished := by
  have hf := List.all_eq_true.1 hq c hc
  cases c with
  | finished => rfl
  | _ => cases hf

theorem IsQuiet.filterMap_eq_nil {γ : Type} {f : Adding β → Option γ} (hq : s.IsQuiet)
    (hf : f .finished = none) : s.threads.filterMap f = [] :=
  List.filterMap_eq_nil_iff.2 fun _ hc => hq.forall_finished hc ▸ hf

theorem Sound.published_perm_of_quiet (h : s.Sound) (hq : s.IsQuiet) :
    s.published.Perm (List.range s.list.entries.size) := by
  have he := h.entries
  rwa [hq.filterMap_eq_nil rfl, List.append_nil] at he

theorem Sound.length_of_quiet (h : s.Sound) (hq : s.IsQuiet) :
    s.list.length = s.published.length := by
  have hzero : s.threads.countP Adding.isUncounted = 0 :=
    List.countP_eq_zero.2 fun c hc => by rw [hq.forall_finished hc]; exact Bool.false_ne_true
  simpa only [hzero, Nat.add_zero] using h.counted

theorem Sound.drain_perm_of_quiet (h : s.Sound) (hq : s.IsQuiet) :
    s.list.drain.Perm s.blocks := by
  have hall : (List.range s.list.entries.size).map s.list.block? =
      (s.list.entries.toList.map (·.block)).map some := by
    apply List.ext_getElem?
    intro i
    by_cases hi : i < s.list.entries.size
    · simp [BlockList.block?, hi]
    · simp [hi]
  have hdrain : (s.list.drain.map some).Perm (s.blocks.map some) := by
    calc s.list.drain.map some = s.published.map s.list.block? :=
          h.chain.drainFrom h.published_length_le
      _ |>.Perm ((List.range s.list.entries.size).map s.list.block?) :=
          (h.published_perm_of_quiet hq).map _
      _ = (s.list.entries.toList.map (·.block)).map some := hall
      _ |>.Perm (s.blocks.map some) := by
          have hb := h.blocks
          rw [hq.filterMap_eq_nil rfl, List.append_nil] at hb
          exact hb.map _
  exact (List.map_perm_map_iff fun _ _ => Option.some.inj).1 hdrain

/-! ## From an empty list on -/

/-- What has come of these turns. -/
def after (schedule : List (Turn β)) : Additions β := ({} : Additions β).turns schedule

theorem sound_after (schedule : List (Turn β)) : (after schedule).Sound :=
  sound_empty.turns schedule

theorem after_append (schedule later : List (Turn β)) :
    after (schedule ++ later) = (after schedule).turns later := List.foldl_append

/-- Threads add blocks in any order of their steps. The links lead from the newest entry through
those that were published, newest first and each once, to an end. Whatever happens later, they stay
the last ones and are not linked anew. Additions are counted after their entries are published, and
all are counted when none is on its way. The walk that frees the blocks takes each of them once, and
when no addition is on its way it takes all blocks that were to be added. -/
theorem published_blocks_stay (schedule later : List (Turn β)) :
    (after schedule).list.Chain (after schedule).list.newest (after schedule).published ∧
      (after schedule).published.Nodup ∧
      ((after schedule).published <:+ (after (schedule ++ later)).published ∧
        ∀ i ∈ (after schedule).published,
          (after (schedule ++ later)).list.entries[i]? = (after schedule).list.entries[i]?) ∧
      (after schedule).list.length ≤ (after schedule).published.length ∧
      ((∀ fuel, (after schedule).published.length ≤ fuel →
          (after schedule).list.drainFrom fuel (after schedule).list.newest =
            (after schedule).list.drain) ∧
        (after schedule).list.drain.map some =
          (after schedule).published.map (after schedule).list.block?) ∧
      ((after schedule).IsQuiet →
        (after schedule).list.length = (after schedule).published.length ∧
          (after schedule).published.Perm (List.range (after schedule).list.entries.size) ∧
          (after schedule).list.drain.Perm (after schedule).blocks) := by
  have h := sound_after schedule
  refine ⟨h.chain, h.nodup.of_append_left, ?_, ?_, ⟨fun fuel hf => h.drainFrom_eq_drain hf, ?_⟩, ?_⟩
  · rw [after_append]
    exact h.turns_keep later
  · have hcount := h.counted
    omega
  · exact h.chain.drainFrom h.published_length_le
  · intro hq
    exact ⟨h.length_of_quiet hq, h.published_perm_of_quiet hq, h.drain_perm_of_quiet hq⟩

/-- Two threads have read the same newest entry. The second one publishes first, and the first one
then fails twice: once since the newest entry is another one, and once for no reason. -/
def contended : List (Turn Nat) :=
  [.start 7, .start 8, .go 0 false, .go 1 false, .go 0 false, .go 1 false, .go 1 false, .go 0 false,
    .go 1 false, .go 0 false, .go 0 false, .go 0 true, .go 0 false, .go 0 false, .go 1 false,
    .go 0 false]

theorem published_blocks_stay_contended :
    (after contended).IsQuiet ∧ (after contended).published = [0, 1] ∧
      (after contended).list.drain = [7, 8] ∧ (after contended).list.length = 2 := by
  have hq : (after contended).IsQuiet := by decide
  have hlist : (after contended).published = [0, 1] := by decide
  have h := published_blocks_stay contended []
  refine ⟨hq, hlist, ?_, ?_⟩
  · have hdrain := h.2.2.2.2.1.2
    have hblocks : [0, 1].map (after contended).list.block? = [7, 8].map some := by decide
    rw [hlist, hblocks] at hdrain
    exact List.map_injective_iff.2 (fun _ _ => Option.some.inj) hdrain
  · rw [(h.2.2.2.2.2 hq).1, hlist]
    rfl

end Additions

/-! ## An addition without interruption -/

theorem BlockList.push_eq (l : BlockList β) (block : β) :
    l.push block = ⟨(l.entries.push ⟨block, none⟩).modify l.entries.size
      fun e => { e with previous := l.newest }, some l.entries.size, l.length + 1⟩ := by
  simp only [push, proceed, Adding.step, and_self, if_true]

namespace Additions

variable {s : Additions β}

theorem turns_push (s : Additions β) (block : β) :
    (s.turns (.start block :: List.replicate 5 (.go s.threads.length false))).list =
      s.list.push block := by
  simp [turns, turn, List.replicate, BlockList.push_eq, Adding.step]

theorem Sound.drain_push (h : s.Sound) (block : β) :
    (s.list.push block).drain = block :: s.list.drain := by
  have hsize : (s.list.push block).entries.size = s.list.entries.size + 1 := by
    rw [BlockList.push_eq, Array.size_modify, Array.size_push]
  have hnew : (s.list.push block).entries[s.list.entries.size]? =
      some ⟨block, s.list.newest⟩ := by
    simp only [BlockList.push_eq, Array.getElem?_modify, Array.getElem?_push_size, if_true,
      Option.map_some]
  have hold : ∀ i ∈ s.published, (s.list.push block).entries[i]? = s.list.entries[i]? := by
    intro i hi
    have hlt := h.lt_size hi
    simp only [BlockList.push_eq, Array.getElem?_modify, Array.getElem?_push, Nat.ne_of_lt hlt,
      (Nat.ne_of_lt hlt).symm, if_false]
  have hchain := BlockList.Chain.cons hnew (h.chain.congr hold)
  have hfuel : (s.list.entries.size :: s.published).length ≤ (s.list.push block).entries.size := by
    rw [hsize, List.length_cons]
    exact Nat.succ_le_succ h.published_length_le
  have hwalk := hchain.drainFrom hfuel
  have hnewest : (s.list.push block).newest = some s.list.entries.size := by
    rw [BlockList.push_eq]
  have hrest : s.published.map (s.list.push block).block? = s.published.map s.list.block? :=
    List.map_congr_left fun i hi => by rw [BlockList.block?, hold i hi, BlockList.block?]
  apply List.map_injective_iff.2 fun _ _ => Option.some.inj
  calc (s.list.push block).drain.map some
      = (s.list.entries.size :: s.published).map (s.list.push block).block? := by
        rw [BlockList.drain, hnewest, hwalk]
    _ = some block :: s.published.map s.list.block? := by
        rw [List.map_cons, hrest, BlockList.block?, hnew]; rfl
    _ = some block :: s.list.drain.map some := by
        rw [← h.chain.drainFrom h.published_length_le]; rfl

end Additions

end SlotPool
