import SlotPool.Proofs.Refills

/-!
# Many slots at once, or one after the other

A call for many slots comes to the same as so many calls for one slot, as long as enough are free.
A stack that is given back at once comes to the same as its slots that are given back one after the
other, the last one first. What is acquired and then given back leaves the free stack as it was.
-/

namespace SlotPool

open Memory

variable {ε : Type} {id : PoolId} {m m' m'' : Memory ε} {p p' p'' : Pool ε} {l k : List Slot}

/-! ## Calls one after the other -/

/-- Calls are made to a pool while nothing else happens, each of them after the last one is over.
Each comes to the outcome beside it. -/
inductive Arena.Performs (allocator : Allocator) (id : PoolId) :
    Arena ε → List (Call × Outcome) → Arena ε → Prop where
  | nil (a : Arena ε) : Performs allocator id a [] a
  | cons {a a' a'' : Arena ε} {p : Pool ε} {c : Call} {o : Outcome} {calls : List (Call × Outcome)}
      (h : a.Completes allocator id c a' p o) (hrest : Performs allocator id a' calls a'') :
      Performs allocator id a ((c, o) :: calls) a''

theorem Arena.Performs.append {allocator : Allocator} {a a' a'' : Arena ε}
    {calls more : List (Call × Outcome)} (h : Performs allocator id a calls a')
    (h' : Performs allocator id a' more a'') : Performs allocator id a (calls ++ more) a'' := by
  induction h with
  | nil a => exact h'
  | cons hc _ ih => exact .cons hc (ih h')

/-- Calls for one slot that get these slots. -/
def Call.gettingEach (l : List Slot) : List (Call × Outcome) :=
  l.map fun s => (.popOne, .acquired (.one s))

/-- Calls that give these slots back. -/
def Call.returningEach (l : List Slot) : List (Call × Outcome) :=
  l.map fun s => (.cleanOne s, .returned)

/-- The slots of the stack are taken off, from front to back. -/
inductive Stack.Unstacks : Memory ε → Stack → List Slot → Memory ε → Prop where
  | nil {m : Memory ε} {st : Stack} (h : st.pop m = (m, st, none)) : Unstacks m st [] m
  | cons {m m' m'' : Memory ε} {st st' : Stack} {s : Slot} {l : List Slot}
      (h : st.pop m = (m', st', some s)) (hrest : Unstacks m' st' l m'') :
      Unstacks m st (s :: l) m''

theorem Stack.Spans.exists_unstacks {st : Stack} (h : st.Spans m l) :
    ∃ m', Stack.Unstacks m st l m' ∧ Relinks m m' l := by
  induction l generalizing m st with
  | nil => exact ⟨m, .nil (Stack.pop_of_nil h), Relinks.refl m []⟩
  | cons s l ih =>
    obtain ⟨m', hrest, hr⟩ := ih (Stack.pop_spans h)
    rw [Stack.pop_of_cons h] at hrest hr
    refine ⟨m', .cons (Stack.pop_of_cons h) hrest, ?_⟩
    exact ((relinks_setNext m s none).mono (by simp)).trans (hr.mono (by simp))

/-- The pools are the same. One of them has the same slots free, in the same order, and all slots
have the same values. -/
structure Arena.Matches (id : PoolId) (a a' : Arena ε) : Prop where
  pools : ∀ other, a'.pool? other = a.pool? other
  free : ∀ p, a.pool? id = some p → p.free.slots a'.memory = p.free.slots a.memory
  value : ∀ s, a'.memory.value s = a.memory.value s

/-! ## Acquiring -/

/-- The slots `l` were acquired, and `k` are left. -/
structure Tapped (p : Pool ε) (m : Memory ε) (l k : List Slot) (p' : Pool ε) (m' : Memory ε) :
    Prop where
  left : p'.free.Spans m' k
  pool : p' = { p with
    free := p'.free
    counters := { p.counters with acquisitions := p.counters.acquisitions + l.length } }
  memory : Relinks m m' l

theorem Tapped.trans {s : Slot} (h : Tapped p m [s] (l ++ k) p' m')
    (h' : Tapped p' m' l k p'' m'') : Tapped p m (s :: l) k p'' m'' := by
  constructor
  · exact h'.left
  · have hpool := h'.pool
    rw [h.pool, Nat.add_assoc] at hpool
    rw [List.length_cons, Nat.add_comm l.length]
    exact hpool
  · exact (h.memory.mono (by simp)).trans (h'.memory.mono (by simp))

theorem Call.popOne_ends_tapped {allocator : Allocator} {made : Nat} {s : Slot}
    (h : p.free.Spans m (s :: k)) :
    Ends allocator id (fun m' p' o => o = .acquired (.one s) ∧ Tapped p m [s] k p' m') 2 m p
      .popOne made := by
  have hpop := Stack.pop_of_cons h
  have hspans := Stack.pop_spans h
  rw [hpop] at hspans
  have hstep : popOne.step id true m p =
      (m.setNext s none, { p with free := ⟨k.head?, k.getLast?, k.length⟩ }, none,
        .countAcquired 1 (.one s)) := by
    simp only [step, hpop]
  refine .step rfl rfl hstep (.step rfl rfl rfl (.finished 0 made ⟨rfl, ?_⟩))
  exact ⟨hspans, rfl, relinks_setNext m s none⟩

section

variable {a : Arena ε}

theorem exists_tapped_one (hp : a.pool? id = some p) {s : Slot}
    (hs : p.free.Spans a.memory (s :: k)) (allocator : Allocator) :
    ∃ a' p', a.Completes allocator id .popOne a' p' (.acquired (.one s)) ∧
      Tapped p a.memory [s] k p' a'.memory := by
  have hends : Call.Ends allocator id _ 2 a.memory p .popOne 0 := Call.popOne_ends_tapped hs
  obtain ⟨a', p', o, hdone, rfl, htapped⟩ := hends.completes hp (by
    rw [Arena.patience]
    omega)
  exact ⟨a', p', hdone, htapped⟩

theorem exists_tapped (hp : a.pool? id = some p) (hs : p.free.Spans a.memory (l ++ k))
    (allocator : Allocator) :
    ∃ a' p', Arena.Performs allocator id a (Call.gettingEach l) a' ∧ a'.pool? id = some p' ∧
      (∀ other, other ≠ id → a'.pool? other = a.pool? other) ∧
      Tapped p a.memory l k p' a'.memory := by
  induction l generalizing a p with
  | nil => exact ⟨a, p, .nil a, hp, fun _ _ => rfl, hs, rfl, Relinks.refl a.memory []⟩
  | cons s l ih =>
    obtain ⟨a₁, p₁, hone, htapped⟩ := exists_tapped_one hp hs allocator
    obtain ⟨a', p', hrest, hp', hothers, hmore⟩ := ih hone.pool htapped.left
    refine ⟨a', p', .cons hone hrest, hp', fun other hne => ?_, htapped.trans hmore⟩
    rw [hothers other hne, hone.others other hne]

/-! ## Giving back -/

theorem exists_refilled_each (hp : a.pool? id = some p) (h : p.Takes id a.memory l)
    (allocator : Allocator) :
    ∃ a' p', Arena.Performs allocator id a (Call.returningEach l.reverse) a' ∧
      a'.pool? id = some p' ∧ (∀ other, other ≠ id → a'.pool? other = a.pool? other) ∧
      Refilled id p a.memory l p' a'.memory := by
  -- The induction is on the slots from front to back, of which the front one comes last.
  induction l with
  | nil => exact ⟨a, p, .nil a, hp, fun _ _ => rfl, Refilled.refl h.toReady⟩
  | cons s l ih =>
    obtain ⟨hs, hn⟩ := List.nodup_cons.1 h.nodup
    have hrest : p.Takes id a.memory l := ⟨h.toReady, fun t ht => h.owned t (by simp [ht]), hn,
      fun t ht => h.apart (List.mem_cons_of_mem s ht)⟩
    obtain ⟨a₁, p₁, hmany, hp₁, hothers, hrefilled⟩ := ih hrest
    obtain ⟨a', p', hone, hfront⟩ :=
      exists_refilled_one hp₁ (hrefilled.takes (l := [s]) h) allocator
    refine ⟨a', p', ?_, hone.pool, fun other hne => ?_, hrefilled.trans hfront (by simpa using hs)⟩
    · rw [List.reverse_cons, Call.returningEach, List.map_append]
      exact hmany.append (.cons hone (.nil a'))
    · rw [hone.others other hne, hothers other hne]

/-! ## At once or one after the other -/

theorem Arena.Matches.of_others {a' : Arena ε} (hp : a.pool? id = some p)
    (hp' : a'.pool? id = some p') (heq : p' = p)
    (hothers : ∀ other, other ≠ id → a'.pool? other = a.pool? other)
    (hfree : p.free.slots a'.memory = p.free.slots a.memory)
    (hvalue : ∀ s, a'.memory.value s = a.memory.value s) : a.Matches id a' := by
  refine ⟨fun other => ?_, fun q hq => ?_, hvalue⟩
  · by_cases he : other = id
    · rw [he, hp, hp', heq]
    · exact hothers other he
  · obtain rfl : p = q := Option.some.inj (hp.symm.trans hq)
    exact hfree

theorem drawn_like_each (hp : a.pool? id = some p)
    (hs : p.free.Spans a.memory (p.free.slots a.memory)) (allocator : Allocator) {count : Nat}
    (hcount : count ≤ p.available) :
    ∃ a₁ p₁ st a₂, a.Completes allocator id (.popMany count) a₁ p₁ (.acquired (.many st)) ∧
      (st.slots a₁.memory).length = count ∧
      Arena.Performs allocator id a (Call.gettingEach (st.slots a₁.memory)) a₂ ∧
      a₁.Matches id a₂ := by
  have hcut := List.take_append_drop count (p.free.slots a.memory)
  have hlength : ((p.free.slots a.memory).take count).length = count := by
    rw [List.length_take, ← hs.length]
    exact Nat.min_eq_left hcount
  obtain ⟨a₁, p₁, st, hdone, hdrawn⟩ := exists_drawn hp hs allocator hcount
  obtain ⟨a₂, p₂, heach, hp₂, hothers, htapped⟩ :=
    exists_tapped (l := (p.free.slots a.memory).take count) hp (hcut.symm ▸ hs) allocator
  have hfree : p₂.free = p₁.free := hdrawn.left.eq htapped.left
  refine ⟨a₁, p₁, st, a₂, hdone, ?_, ?_, ?_⟩
  · rw [hdrawn.slots.slots_eq, hlength]
  · rw [hdrawn.slots.slots_eq]
    exact heach
  · refine .of_others hdone.pool hp₂ ?_ (fun other hne => ?_) ?_ fun s => ?_
    · rw [htapped.pool, hdrawn.pool, hfree, hlength]
    · rw [hothers other hne, hdone.others other hne]
    · rw [hdrawn.left.slots_eq, ← hfree, htapped.left.slots_eq]
    · rw [value_of_unlinked htapped.memory.unlinked, value_of_unlinked hdrawn.memory.unlinked]

theorem returned_like_each (hp : a.pool? id = some p) {st : Stack} (hst : st.Spans a.memory l)
    (h : p.Takes id a.memory l) (allocator : Allocator) :
    ∃ a₁ p₁ m a₂, a.Completes allocator id (.cleanMany st) a₁ p₁ .returned ∧
      Stack.Unstacks a.memory st l m ∧
      Arena.Performs allocator id { a with memory := m } (Call.returningEach l.reverse) a₂ ∧
      a₁.Matches id a₂ := by
  obtain ⟨a₁, p₁, hdone, hrefilled⟩ := exists_refilled_many hp hst h allocator
  obtain ⟨m, hunstacks, hr⟩ := hst.exists_unstacks
  have hfree : p.free.slots m = p.free.slots a.memory :=
    (h.free.frame hr (List.disjoint_symm h.apart)).slots_eq
  obtain ⟨a₂, p₂, heach, hp₂, hothers, hrefilled'⟩ :=
    exists_refilled_each (a := { a with memory := m }) hp (h.relinked hr) allocator
  obtain ⟨heq, hsame, hvalue⟩ := hrefilled.same hrefilled' hr hfree
  refine ⟨a₁, p₁, m, a₂, hdone, hunstacks, heach, ?_⟩
  refine .of_others hdone.pool hp₂ heq (fun other hne => ?_) hsame hvalue
  exact (hothers other hne).trans (hdone.others other hne).symm

theorem drawn_returned (hp : a.pool? id = some p) (h : p.Ready id a.memory)
    (hclean : ∀ s ∈ p.free.slots a.memory, Clean a.memory id p.strategy s)
    (allocator : Allocator) {count : Nat} (hcount : count ≤ p.available) :
    ∃ a₁ p₁ st a₂ p₂,
      a.Completes allocator id (.popMany count) a₁ p₁ (.acquired (.many st)) ∧
        a₁.Completes allocator id (.cleanMany st) a₂ p₂ .returned ∧ p₂.free = p.free ∧
        p₂.free.slots a₂.memory = p.free.slots a.memory ∧
        ∀ s, a₂.memory.value s = a.memory.value s := by
  have hcut := List.take_append_drop count (p.free.slots a.memory)
  have hn := List.nodup_append'.1 (hcut.symm ▸ h.free.nodup)
  obtain ⟨a₁, p₁, st, hdone, hdrawn⟩ := exists_drawn hp h.free allocator hcount
  have hunlinked := hdrawn.memory.unlinked
  have hstrategy : p₁.strategy = p.strategy := by rw [hdrawn.pool]
  have htakes : p₁.Takes id a₁.memory ((p.free.slots a.memory).take count) := by
    refine ⟨h.relinked hunlinked hstrategy hdrawn.left, fun s hs => ?_, hn.1, ?_⟩
    · rw [owner?_of_unlinked hunlinked]
      exact (hclean s (List.mem_of_mem_take hs)).owner
    · rw [hdrawn.left.slots_eq]
      exact hn.2.2
  obtain ⟨a₂, p₂, hdone', hrefilled⟩ :=
    exists_refilled_many hdone.pool hdrawn.slots htakes allocator
  have hfree := hrefilled.free
  rw [hdrawn.left.slots_eq, hcut] at hfree
  refine ⟨a₁, p₁, st, a₂, p₂, hdone, hdone', h.free.eq hfree, hfree.slots_eq, fun s => ?_⟩
  by_cases hs : s ∈ (p.free.slots a.memory).take count
  · rw [(hrefilled.clean s hs).value, hstrategy, (hclean s (List.mem_of_mem_take hs)).value]
  · rw [hrefilled.value hs, value_of_unlinked hunlinked]

theorem returned_drawn (hp : a.pool? id = some p) {s : Slot} (h : p.Takes id a.memory [s])
    (allocator : Allocator) :
    ∃ a₁ p₁ a₂ p₂, a.Completes allocator id (.cleanOne s) a₁ p₁ .returned ∧
      a₁.Completes allocator id .popOne a₂ p₂ (.acquired (.one s)) ∧ p₂.free = p.free ∧
      p₂.free.slots a₂.memory = p.free.slots a.memory := by
  obtain ⟨a₁, p₁, hdone, hrefilled⟩ := exists_refilled_one hp h allocator
  obtain ⟨a₂, p₂, hdone', htapped⟩ := exists_tapped_one hdone.pool hrefilled.free allocator
  exact ⟨a₁, p₁, a₂, p₂, hdone, hdone', h.free.eq htapped.left, htapped.left.slots_eq⟩

end

namespace World

theorem exists_has {w : World ε} (h : w.Reachable) {k : Client} (hk : k ∈ w.clients) {x : Held}
    (hx : x ∈ k.held) : ∃ rest held, Has rest w.arena (x :: held) k.call := by
  obtain ⟨before, after, hclients⟩ := List.append_of_mem hk
  obtain ⟨front, back, hheld⟩ := List.append_of_mem hx
  refine ⟨before ++ after, front ++ back, k.held, w.clients, w.losses, h, ?_, ?_⟩
  · rw [hclients]
    exact List.perm_middle
  · rw [hheld]
    exact List.perm_middle

/-- As long as enough slots are free, a call for many comes to the same as so many calls for one. A
stack that is given back at once comes to the same as its slots that are given back one by one, from
back to front. So what is acquired and given back at once leaves the free stack as it was, and a
slot that is given back is acquired next. -/
theorem bulk_like_each {w : World ε} (h : w.Reachable) (hp : w.arena.pool? id = some p)
    (allocator : Allocator) :
    (∀ count ≤ p.available, ∃ a₁ p₁ st a₂,
      w.arena.Completes allocator id (.popMany count) a₁ p₁ (.acquired (.many st)) ∧
        (st.slots a₁.memory).length = count ∧
        Arena.Performs allocator id w.arena (Call.gettingEach (st.slots a₁.memory)) a₂ ∧
        a₁.Matches id a₂) ∧
    (∀ k ∈ w.clients, ∀ st, .stack st ∈ k.held →
      (∀ s ∈ st.slots w.memory, w.memory.owner? s = some id) →
        ∃ a₁ p₁ m a₂, w.arena.Completes allocator id (.cleanMany st) a₁ p₁ .returned ∧
          Stack.Unstacks w.memory st (st.slots w.memory) m ∧
          Arena.Performs allocator id { w.arena with memory := m }
            (Call.returningEach (st.slots w.memory).reverse) a₂ ∧ a₁.Matches id a₂) ∧
    (∀ count ≤ p.available, ∃ a₁ p₁ st a₂ p₂,
      w.arena.Completes allocator id (.popMany count) a₁ p₁ (.acquired (.many st)) ∧
        a₁.Completes allocator id (.cleanMany st) a₂ p₂ .returned ∧ p₂.free = p.free ∧
        p₂.free.slots a₂.memory = p.free.slots w.memory ∧
        ∀ s, a₂.memory.value s = w.memory.value s) ∧
    ∀ k ∈ w.clients, ∀ s, .slot s ∈ k.held → w.memory.owner? s = some id →
      ∃ a₁ p₁ a₂ p₂, w.arena.Completes allocator id (.cleanOne s) a₁ p₁ .returned ∧
        a₁.Completes allocator id .popOne a₂ p₂ (.acquired (.one s)) ∧ p₂.free = p.free ∧
        p₂.free.slots a₂.memory = p.free.slots w.memory := by
  refine ⟨fun count hcount => ?_, fun k hk st hst howned => ?_, fun count hcount => ?_,
    fun k hk s hs howned => ?_⟩
  · exact drawn_like_each hp (free_spans h hp) allocator hcount
  · obtain ⟨rest, held, hhas⟩ := exists_has h hk hst
    have hslots : (Held.stack st).slots w.memory = st.slots w.memory := by
      simp [Held.slots, Held.pieces]
    have hspans : st.Spans w.memory (st.slots w.memory) :=
      hhas.sound List.mem_cons_self (.chain st) (by simp [Held.pieces])
    have htakes := hhas.takes hp (by rwa [← hslots] at howned)
    exact returned_like_each hp hspans (hslots ▸ htakes) allocator
  · exact drawn_returned hp (ready h hp) ((tended_of_reachable h).arena.free id p hp) allocator
      hcount
  · obtain ⟨rest, held, hhas⟩ := exists_has h hk hs
    have hslots : (Held.slot s).slots w.memory = [s] := by simp [Held.slots, Held.pieces]
    have htakes := hhas.takes hp fun t ht => by
      obtain rfl : t = s := by simpa [Held.slots, Held.pieces] using ht
      exact howned
    exact returned_drawn hp (hslots ▸ htakes) allocator

/-! ## Blocks of eight slots -/

/-- Two of four free slots are taken, and a stack of three is given back. -/
theorem bulk_like_each_stacking :
    ∃ p, stacking.Reachable ∧ stacking.arena.pool? ⟨0⟩ = some p ∧ p.available = 4 ∧
      (∃ a₁ p₁ st a₂,
        stacking.arena.Completes (fun _ _ => true) ⟨0⟩ (.popMany 2) a₁ p₁ (.acquired (.many st)) ∧
          st.slots a₁.memory = [⟨3⟩, ⟨2⟩] ∧
          Arena.Performs (fun _ _ => true) ⟨0⟩ stacking.arena
            (Call.gettingEach [⟨3⟩, ⟨2⟩]) a₂ ∧ a₁.Matches ⟨0⟩ a₂) ∧
      (∃ a₁ p₁ m a₂,
        stacking.arena.Completes (fun _ _ => true) ⟨0⟩ (.cleanMany threes) a₁ p₁ .returned ∧
          Stack.Unstacks stacking.memory threes [⟨7⟩, ⟨6⟩, ⟨5⟩] m ∧
          Arena.Performs (fun _ _ => true) ⟨0⟩ { stacking.arena with memory := m }
            (Call.returningEach [⟨5⟩, ⟨6⟩, ⟨7⟩]) a₂ ∧ a₁.Matches ⟨0⟩ a₂) ∧
      (∃ a₁ p₁ st a₂ p₂,
        stacking.arena.Completes (fun _ _ => true) ⟨0⟩ (.popMany 2) a₁ p₁ (.acquired (.many st)) ∧
          a₁.Completes (fun _ _ => true) ⟨0⟩ (.cleanMany st) a₂ p₂ .returned ∧
          p₂.free.slots a₂.memory = [⟨3⟩, ⟨2⟩, ⟨1⟩, ⟨0⟩]) ∧
      ∃ a₁ p₁ a₂ p₂,
        stacking.arena.Completes (fun _ _ => true) ⟨0⟩ (.cleanOne ⟨4⟩) a₁ p₁ .returned ∧
          a₁.Completes (fun _ _ => true) ⟨0⟩ .popOne a₂ p₂ (.acquired (.one ⟨4⟩)) ∧
          p₂.free = p.free := by
  have hpool : (stacking.arena.pool? ⟨0⟩).map (fun p => (p.available,
      p.free.slots stacking.memory)) = some (4, [⟨3⟩, ⟨2⟩, ⟨1⟩, ⟨0⟩]) := by decide +kernel
  have hthrees : threes.slots stacking.memory = [⟨7⟩, ⟨6⟩, ⟨5⟩] := by decide +kernel
  have hpair : (stacking.arena.complete (fun _ _ => true) ⟨0⟩ ⟨.popMany 2, 0⟩).2.call =
        .finished (.acquired (.many ⟨some ⟨3⟩, some ⟨2⟩, 2⟩)) ∧
      Stack.slots (stacking.arena.complete (fun _ _ => true) ⟨0⟩ ⟨.popMany 2, 0⟩).1.memory
        ⟨some ⟨3⟩, some ⟨2⟩, 2⟩ = [⟨3⟩, ⟨2⟩] := by decide +kernel
  have howned : ∀ s ∈ [(⟨4⟩ : Slot), ⟨5⟩, ⟨6⟩, ⟨7⟩], stacking.memory.owner? s = some ⟨0⟩ := by
    decide +kernel
  obtain ⟨p, hp, hfacts⟩ := Option.map_eq_some_iff.1 hpool
  simp only [Prod.mk.injEq] at hfacts
  obtain ⟨havailable, hfree⟩ := hfacts
  obtain ⟨hdrawn, hmany, hback, hone⟩ := bulk_like_each stacking_reachable hp (fun _ _ => true)
  refine ⟨p, stacking_reachable, hp, havailable, ?_, ?_, ?_, ?_⟩
  · obtain ⟨a₁, p₁, st, a₂, hdone, -, heach, hmatches⟩ := hdrawn 2 (by omega)
    obtain ⟨made, hended⟩ := hdone.ended
    rw [hended] at hpair
    obtain ⟨hcall, hslots⟩ := hpair
    simp only [Call.finished.injEq, Outcome.acquired.injEq, Grant.many.injEq] at hcall
    rw [← hcall] at hslots
    rw [hslots] at heach
    exact ⟨a₁, p₁, st, a₂, hdone, hslots, heach, hmatches⟩
  · obtain ⟨a₁, p₁, m, a₂, hdone, hunstacks, heach, hmatches⟩ :=
      hmany _ List.mem_cons_self threes (by simp) fun s hs => howned s (by
        rw [hthrees] at hs
        simp at hs ⊢
        tauto)
    rw [hthrees] at hunstacks heach
    exact ⟨a₁, p₁, m, a₂, hdone, hunstacks, heach, hmatches⟩
  · obtain ⟨a₁, p₁, st, a₂, p₂, hdone, hdone', -, hslots, -⟩ := hback 2 (by omega)
    exact ⟨a₁, p₁, st, a₂, p₂, hdone, hdone', hslots.trans hfree⟩
  · obtain ⟨a₁, p₁, a₂, p₂, hdone, hdone', hfree, -⟩ :=
      hone _ List.mem_cons_self ⟨4⟩ (by simp) (howned _ (by simp))
    exact ⟨a₁, p₁, a₂, p₂, hdone, hdone', hfree⟩

end World

end SlotPool
