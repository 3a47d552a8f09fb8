import SlotPool.Proofs.Building
import SlotPool.Proofs.Deliveries

/-!
# Drawing one slot while nothing else happens

A call for one slot takes the front slot of the free stack. If there is none, it raises the growth
flag, provides one block, lowers the flag, and takes its slot off what is now on the free stack, so
that it never tries a third time. If the block is refused, everything is as it was.
-/

namespace SlotPool

open Memory

variable {ε : Type}

/-! ## Pools at rest -/

namespace World

/-- No call to the pool is under way. Those that there are have come to their end. -/
def AtRest (w : World ε) (id : PoolId) : Prop :=
  ∀ k ∈ w.clients, ∀ c, k.call = some (id, c) → c.outcome?.isSome = true

theorem AtRest.growing_eq_false {w : World ε} {id : PoolId} (hrest : w.AtRest id)
    (h : w.Reachable) {p : Pool ε} (hp : w.arena.pool? id = some p) : p.growing = false := by
  have hnone : w.clients.countP (·.guards id) = 0 := by
    refine List.countP_eq_zero.2 fun k hk => ?_
    unfold Client.guards
    split
    · rename_i id' c hc
      by_cases hid : id' = id
      · subst hid
        rw [Call.guards_of_outcome c (hrest k hk c hc), Bool.and_false]
        exact Bool.false_ne_true
      · simp [hid]
    · exact Bool.false_ne_true
  have hguarded := guarded_of_reachable h id p hp
  rw [hnone] at hguarded
  cases hgrowing : p.growing with
  | false => rfl
  | true => simp [hgrowing] at hguarded

end World

namespace Call

section

variable {allocator : Allocator} {id : PoolId} {made : Nat} {m : Memory ε} {p : Pool ε}
  {rest : List Slot} {s : Slot}

/-! ## The front slot -/

def drawn (p : Pool ε) (free : Stack) : Pool ε :=
  { p with free, counters := { p.counters with acquisitions := p.counters.acquisitions + 1 } }

theorem popOne_passes_front (hs : p.free.Spans m (s :: rest)) :
    ∃ m' free, Passes allocator id [.popOne, .countAcquired 1 (.one s)] []
        ⟨m, p, .popOne, made⟩ ⟨m', drawn p free, .finished (.acquired (.one s)), made⟩ ∧
      free.Spans m' rest := by
  have hstep : popOne.step id true m p = (m.setNext s none,
      { p with free := ⟨rest.head?, rest.getLast?, rest.length⟩ }, none,
      .countAcquired 1 (.one s)) := by
    simp only [step, Stack.pop_of_cons hs]
  have hfree := Stack.pop_spans hs
  rw [Stack.pop_of_cons hs] at hfree
  exact ⟨_, _, .silent rfl rfl hstep (.silent rfl rfl rfl (.stay _)), hfree⟩

/-! ## A block for one slot -/

theorem popOne_passes_claim (hs : p.free.Spans m []) (hlow : p.growing = false) :
    Passes allocator id [.popOne, .claimGrowth] [] ⟨m, p, .popOne, made⟩
      ⟨m, { p with growing := true }, provide p.strategy .single 1 {}, made⟩ := by
  have hpop : popOne.step id true m p = (m, p, none, .claimGrowth) := by
    simp only [step, Stack.pop_of_nil hs]
  have hclaim : claimGrowth.step id true m p = (m, { p with growing := true }, none,
      provide p.strategy .single 1 {}) := by
    simp only [step, hlow, Bool.false_eq_true, if_false, startGrowth_eq_provide]
  exact .silent rfl rfl hpop (.silent rfl rfl hclaim (.stay _))

theorem passes_grown {g : Growth} (hs : p.free.Spans m []) (ho : g.origin = .single)
    (hf : g.fresh.Spans m (s :: rest)) :
    ∃ cs, Passes allocator id cs
        [.grown id .single p.policy (g.fresh.length / p.blockSize) g.fresh.length
          (p.allocated + g.fresh.length)]
        ⟨m, p, afterBlocks g none, made⟩
        ⟨m, { counted p g.fresh.length with free := g.fresh, growing := false }, .popOne, made⟩ ∧
      cs.length = 6 ∧ cs.count .popOne = 0 ∧ cs.count .claimGrowth = 0 := by
  have hsome : g.fresh.isEmpty = false := by
    rw [Bool.eq_false_iff, ne_eq, hf.isEmpty_iff]
    exact List.cons_ne_nil s rest
  have hfree : p.free = {} := (Stack.spans_empty m).eq hs
  have hput : p.free.append m g.fresh = (m, g.fresh) := by
    rw [hfree]
    exact Stack.append_to_empty hf
  obtain ⟨origin, blocks, granted, fresh⟩ := g
  obtain rfl : origin = .single := ho
  have hcount : afterBlocks ⟨.single, blocks, granted, fresh⟩ none =
      .countSlots ⟨.single, blocks, granted, fresh⟩ none := by
    simp only [afterBlocks, hsome]
    rfl
  have hpublish : (publish fresh none).step id true m (counted p fresh.length) =
      (m, { counted p fresh.length with free := fresh }, none, .unclaim none) := by
    simp only [step, counted, hput]
  rw [hcount]
  let g : Growth := ⟨.single, blocks, granted, fresh⟩
  let allocated := p.allocated + fresh.length
  refine ⟨[.countSlots g none, .countGrowth g none allocated, .countBlocks g none allocated,
    .noteGrowth g none allocated, .publish fresh none, .unclaim none], ?_, rfl, rfl, rfl⟩
  exact .silent rfl rfl rfl (.silent rfl rfl rfl (.silent rfl rfl rfl (.noting rfl rfl rfl
    (.silent rfl rfl hpublish (.silent rfl rfl rfl (.stay _))))))

theorem passes_refused {g : Growth} {error : PoolError} (ho : g.origin = .single)
    (hf : g.fresh.Spans m []) :
    Passes allocator id [.publish g.fresh (some error), .unclaim (some error)] []
      ⟨m, p, afterBlocks g (some error), made⟩
      ⟨m, { p with growing := false }, .finished (.failed error), made⟩ := by
  have hfresh : g.fresh = {} := (Stack.spans_empty m).eq hf
  obtain ⟨origin, blocks, granted, fresh⟩ := g
  obtain rfl : origin = .single := ho
  obtain rfl : fresh = {} := hfresh
  exact .silent rfl rfl rfl (.silent rfl rfl rfl (.stay _))

/-! ## All ways out -/

theorem count_eq_zero_of_building {cs : List Call} (hcs : ∀ c ∈ cs, c.isBuilding = true) {c : Call}
    (hc : c.isBuilding = false) : cs.count c = 0 := by
  refine List.count_eq_zero.2 fun hmem => ?_
  rw [hcs c hmem] at hc
  cases hc

/-- The pool with one block more, when one of the slots is acquired. -/
def renewed (p : Pool ε) (blocks : BlockList Nat) (free : Stack) : Pool ε :=
  { p with
    free
    blocks
    allocated := p.allocated + p.blockSize
    counters := { p.counters with
      acquisitions := p.counters.acquisitions + 1
      growthEvents := p.counters.growthEvents + 1
      blocksProvisioned := p.counters.blocksProvisioned + 1 } }

theorem popOne_passes_supplied (hs : p.free.Spans m []) (hlow : p.growing = false)
    (hy : p.strategy.Yields allocator made 1 1 none) :
    ∃ cs m' free s rest made', newSlots m.size p.blockSize 1 = s :: rest ∧
      Passes allocator id cs
        [.grown id .single p.policy 1 p.blockSize (p.allocated + p.blockSize)]
        ⟨m, p, .popOne, made⟩
        ⟨m', renewed p (p.blocks.pushRange m.arrays.size 1) free, .finished (.acquired (.one s)),
          made'⟩ ∧
      free.Spans m' rest ∧ cs.length ≤ 13 ∧ cs.count .popOne = 2 ∧ cs.count .claimGrowth = 1 := by
  have hpos : 0 < p.blockSize := p.strategy.blockSize_pos
  have hclaim : Passes allocator id _ _ ⟨m, p, .popOne, made⟩ _ := popOne_passes_claim hs hlow
  obtain ⟨m', p', g', made', ⟨cs, hbuilds, hlen, hcs⟩, hstocked⟩ :
      ∃ m' p' g' made', Builds allocator id _
        ⟨m, { p with growing := true }, provide p.strategy .single 1 {}, made⟩
        ⟨m', p', afterBlocks g' none, made'⟩ ∧ Stocked id m _ _ [] 1 m' p' g' :=
    builds_provide .single 1 (Stack.spans_empty m) hy
  have hsize : (newSlots m.size p.blockSize 1).length = p.blockSize := by
    rw [length_newSlots, Nat.one_mul]
  have hnew : g'.fresh.Spans m' (newSlots m.size p.blockSize 1) := by
    have hfresh := hstocked.fresh
    rwa [List.append_nil] at hfresh
  obtain ⟨s, rest, hcons⟩ := List.exists_cons_of_length_pos (hsize ▸ hpos)
  rw [hcons] at hnew
  have hlength : g'.fresh.length = p.blockSize := by rw [hnew.length, ← hcons, hsize]
  have hnone : p'.free.Spans m' [] := by
    rw [hstocked.pool]
    exact hs.adds hstocked.adds
  obtain ⟨cs', hgrown, hlen', hpop', hraise'⟩ : ∃ cs', Passes allocator id cs' _
      ⟨m', p', afterBlocks g' none, made'⟩ _ ∧ _ := passes_grown hnone hstocked.origin hnew
  -- The new slots are in front of no others, so that the first of them is taken off next.
  obtain ⟨m'', free, hfront, hrest⟩ : ∃ m'' free, Passes allocator id _ _
      ⟨m', { counted p' g'.fresh.length with free := g'.fresh, growing := false }, .popOne, made'⟩
      _ ∧ _ := popOne_passes_front hnew
  have hall := ((hclaim.trans hbuilds).trans hgrown).trans hfront
  have hpool : drawn { counted p' g'.fresh.length with free := g'.fresh, growing := false } free =
      renewed p (p.blocks.pushRange m.arrays.size 1) free := by
    rw [hstocked.pool, hlength]
    simp only [drawn, counted, renewed, ← hlow, Pool.blockSize,
      Nat.div_self p.strategy.blockSize_pos]
  have hevent : Event.grown id .single p'.policy (g'.fresh.length / p'.blockSize) g'.fresh.length
      (p'.allocated + g'.fresh.length) =
      .grown id .single p.policy 1 p.blockSize (p.allocated + p.blockSize) := by
    rw [hstocked.pool, hlength]
    simp only [Pool.blockSize, Nat.div_self p.strategy.blockSize_pos]
  rw [hpool, hevent] at hall
  have hpop : cs.count .popOne = 0 := count_eq_zero_of_building hcs rfl
  have hraise : cs.count .claimGrowth = 0 := count_eq_zero_of_building hcs rfl
  refine ⟨_, m'', free, s, rest, made', hcons, hall, hrest, ?_, ?_, ?_⟩
  · simp only [List.length_append, List.length_cons, List.length_nil, hlen']
    omega
  · simp only [List.count_append, hpop, hpop']
    rfl
  · simp only [List.count_append, hraise, hraise']
    rfl

theorem popOne_passes_denied {error : PoolError} (hs : p.free.Spans m []) (hlow : p.growing = false)
    (hy : p.strategy.Yields allocator made 1 0 (some error)) :
    ∃ cs made', Passes allocator id cs [] ⟨m, p, .popOne, made⟩
        ⟨m, p, .finished (.failed error), made'⟩ ∧
      cs.length ≤ 7 ∧ cs.count .popOne = 1 ∧ cs.count .claimGrowth = 1 := by
  have hclaim : Passes allocator id _ _ ⟨m, p, .popOne, made⟩ _ := popOne_passes_claim hs hlow
  obtain ⟨m', p', g', made', ⟨cs, hbuilds, hlen, hcs⟩, hstocked⟩ :
      ∃ m' p' g' made', Builds allocator id _
        ⟨m, { p with growing := true }, provide p.strategy .single 1 {}, made⟩
        ⟨m', p', afterBlocks g' (some error), made'⟩ ∧ Stocked id m _ _ [] 0 m' p' g' :=
    builds_provide .single 1 (Stack.spans_empty m) hy
  obtain rfl : m' = m := hstocked.adds.eq_of_none
  have hfresh : g'.fresh.Spans m' [] := by
    have hnew := hstocked.fresh
    rwa [newSlots, Nat.zero_mul] at hnew
  have hrefused : Passes allocator id _ _ ⟨m', p', afterBlocks g' (some error), made'⟩ _ :=
    passes_refused hstocked.origin hfresh
  have hall := (hclaim.trans hbuilds).trans hrefused
  have hpool : ({ p' with growing := false } : Pool ε) = p := by
    rw [hstocked.pool]
    simp only [BlockList.pushRange, ← hlow]
  rw [hpool] at hall
  have hpop : cs.count .popOne = 0 := count_eq_zero_of_building hcs rfl
  have hraise : cs.count .claimGrowth = 0 := count_eq_zero_of_building hcs rfl
  refine ⟨_, made', hall, ?_, ?_, ?_⟩
  · simp only [List.length_append, List.length_cons, List.length_nil]
    omega
  · simp only [List.count_append, hpop]
    rfl
  · simp only [List.count_append, hraise]
    rfl

end

theorem Passes.completes {allocator : Allocator} {id : PoolId} {a : Arena ε} {p p' : Pool ε}
    {m' : Memory ε} {c : Call} {o : Outcome} {made' : Nat} {cs : List Call} {es : List Event}
    (h : Passes allocator id cs es ⟨a.memory, p, c, 0⟩ ⟨m', p', .finished o, made'⟩)
    (hp : a.pool? id = some p) (hfuel : cs.length ≤ a.patience id c) :
    a.Completes allocator id c (a.put id m' p' es) p' o ∧
      a.visits allocator id (fun _ => false) (a.patience id c) ⟨c, 0⟩ = cs := by
  obtain ⟨hrun, hvisits⟩ := h.proceed_and_visits hp rfl (fun _ _ => rfl) (Or.inr rfl) hfuel
  refine ⟨⟨⟨made', hrun⟩, ?_, fun other hne => ?_⟩, hvisits⟩
  · rw [Arena.pool?_put hp, if_pos rfl]
  · rw [Arena.pool?_put hp, if_neg hne]

end Call

/-! ## In a world -/

theorem Strategy.yields_one (s : Strategy ε) (allocator : Allocator) (made : Nat) :
    s.Yields allocator made 1 1 none ∨ ∃ error, s.Yields allocator made 1 0 (some error) := by
  obtain ⟨done, fault, hy⟩ := s.exists_yields allocator made 1
  have hiff := hy.fault_eq_none_iff_of_pos Nat.one_pos
  cases fault with
  | none =>
    obtain rfl := hiff.1 rfl
    exact Or.inl hy
  | some error =>
    obtain rfl : done = 0 := by
      cases hy with
      | oversize ha => rfl
      | refused ha hd => omega
    exact Or.inr ⟨error, hy⟩

namespace World

variable {w : World ε} {id : PoolId} {p : Pool ε}

/-- What becomes of a call for one slot that is the only one, and the calls that take its steps. -/
inductive DrawsOne (w : World ε) (id : PoolId) (p : Pool ε) (allocator : Allocator) :
    Arena ε → Pool ε → Outcome → List Call → Prop where
  /-- The front slot is taken off the free stack, and the pool does not grow. -/
  | front {a' : Arena ε} {p' : Pool ε} {s : Slot} {rest : List Slot} {cs : List Call}
      (hs : p.free.slots w.memory = s :: rest) (hgrowths : cs.count .claimGrowth = 0)
      (hrest : p'.free.slots a'.memory = rest) (hp' : p' = Call.drawn p p'.free)
      (hj : a'.journal = w.arena.journal) :
      DrawsOne w id p allocator a' p' (.acquired (.one s)) cs
  /-- A block is provided. Its front slot is taken, and the others are free. -/
  | supplied {a' : Arena ε} {p' : Pool ε} {s : Slot} {rest : List Slot} {cs : List Call}
      (hs : p.free.slots w.memory = []) (hy : p.strategy.Yields allocator 0 1 1 none)
      (hgrowths : cs.count .claimGrowth = 1)
      (hnew : newSlots w.memory.size p.blockSize 1 = s :: rest)
      (hrest : p'.free.slots a'.memory = rest) (havailable : p'.available = p.blockSize - 1)
      (hblocks : p'.blocks.length = p.blocks.length + 1)
      (hp' : p' = Call.renewed p p'.blocks p'.free)
      (hj : a'.journal = w.arena.journal.push
        (.grown id .single p.policy 1 p.blockSize (p.allocated + p.blockSize))) :
      DrawsOne w id p allocator a' p' (.acquired (.one s)) cs
  /-- No block is provided, and nothing has changed in the arena. A later call succeeds if it gets a
  block. -/
  | denied {error : PoolError} {cs : List Call} (hs : p.free.slots w.memory = [])
      (hy : p.strategy.Yields allocator 0 1 0 (some error)) (hgrowths : cs.count .claimGrowth = 1)
      (hlater : ∀ allocator', p.strategy.Yields allocator' 0 1 1 none →
        ∃ a' p' s, w.arena.Completes allocator' id .popOne a' p' (.acquired (.one s))) :
      DrawsOne w id p allocator w.arena p (.failed error) cs

/-- Whatever the allocator answers, a call for one slot that is the only one comes to its end. It
tries to take a slot at most twice, and the pool grows at most once, just if no slot is free. -/
theorem one_slot_in_two_tries (h : w.Reachable) (hp : w.arena.pool? id = some p)
    (hrest : w.AtRest id) (allocator : Allocator) :
    p.growing = false ∧ ∃ a' p' o cs, w.arena.Completes allocator id .popOne a' p' o ∧
      w.arena.visits allocator id (fun _ => false) (w.arena.patience id .popOne) ⟨.popOne, 0⟩ = cs ∧
      (cs.count .popOne ≤ 2 ∧ cs.count .claimGrowth ≤ 1) ∧
      w.DrawsOne id p allocator a' p' o cs := by
  have hlow := hrest.growing_eq_false h hp
  have hfree := free_spans h hp
  have hpatience : 13 ≤ w.arena.patience id .popOne := Nat.le_add_left 13 _
  refine ⟨hlow, ?_⟩
  cases hs : p.free.slots w.memory with
  | cons s rest =>
    rw [hs] at hfree
    obtain ⟨m', free, hpass, hleft⟩ : ∃ m' free, Call.Passes allocator id _ _
        ⟨w.memory, p, .popOne, 0⟩ _ ∧ _ := Call.popOne_passes_front hfree
    obtain ⟨hdone, hvisits⟩ := hpass.completes hp (Nat.le_trans (show 2 ≤ 13 by decide) hpatience)
    exact ⟨_, _, _, _, hdone, hvisits, ⟨show 1 ≤ 2 by decide, show 0 ≤ 1 by decide⟩,
      .front hs rfl hleft.slots_eq rfl Array.append_empty⟩
  | nil =>
    rw [hs] at hfree
    obtain hy | ⟨error, hy⟩ := p.strategy.yields_one allocator 0
    · obtain ⟨cs, m', free, s, rest, made', hnew, hpass, hleft, hlen, hpops, hclaims⟩ :=
        Call.popOne_passes_supplied hfree hlow hy
      obtain ⟨hdone, hvisits⟩ := hpass.completes hp (hlen.trans hpatience)
      refine ⟨_, _, _, _, hdone, hvisits, ⟨hpops.le, hclaims.le⟩,
        .supplied hs hy hclaims hnew hleft.slots_eq ?_ ?_ rfl rfl⟩
      · have hlength := congrArg List.length hnew
        rw [length_newSlots, Nat.one_mul, List.length_cons] at hlength
        have hfront : free.length = rest.length := hleft.length
        show free.length = _
        omega
      · exact BlockList.length_pushRange _ _ _
    · obtain ⟨cs, made', hpass, hlen, hpops, hclaims⟩ := Call.popOne_passes_denied hfree hlow hy
      obtain ⟨hdone, hvisits⟩ := hpass.completes hp
        (hlen.trans (Nat.le_trans (by decide) hpatience))
      rw [show w.memory = w.arena.memory from rfl, Arena.put_self hp] at hdone
      refine ⟨_, _, _, _, hdone, hvisits, ⟨by omega, hclaims.le⟩,
        .denied hs hy hclaims fun allocator' hy' => ?_⟩
      obtain ⟨cs', m', free, s, rest, made'', -, hpass', -, hlen', -⟩ :=
        Call.popOne_passes_supplied hfree hlow hy'
      exact ⟨_, _, s, (hpass'.completes hp (hlen'.trans hpatience)).1⟩

def barePairs : World Nat := ⟨pairArena, [], {}⟩

theorem resting_atRest : resting.AtRest ⟨0⟩ := by
  intro k hk c hc
  simp only [resting, List.mem_cons, List.not_mem_nil, or_false] at hk
  rcases hk with rfl | rfl <;> cases hc

theorem one_slot_in_two_tries_pairs :
    (barePairs.Reachable ∧ barePairs.AtRest ⟨0⟩ ∧ resting.Reachable ∧ resting.AtRest ⟨0⟩) ∧
      (∃ a' p' cs, pairArena.Completes (fun _ _ => false) ⟨0⟩ .popOne a' p'
          (.failed (.outOfMemory 2 24)) ∧ a' = pairArena ∧ cs.count .popOne ≤ 2 ∧
        barePairs.DrawsOne ⟨0⟩ p' (fun _ _ => false) a' p' (.failed (.outOfMemory 2 24)) cs) ∧
      ∃ a' p' cs, resting.arena.Completes (fun _ _ => false) ⟨0⟩ .popOne a' p'
          (.acquired (.one ⟨0⟩)) ∧ p'.free.slots a'.memory = [] ∧ cs.count .claimGrowth = 0 ∧
        resting.arena.visits (fun _ _ => false) ⟨0⟩ (fun _ => false) 35 ⟨.popOne, 0⟩ = cs := by
  have hbare : barePairs.Reachable := Reachable.start.step (.addPool {} [] {} pairs .headroom 100)
  have hbareRest : barePairs.AtRest ⟨0⟩ := fun k hk => nomatch hk
  have hrest := resting_atRest
  obtain ⟨p, hp⟩ : ∃ p, barePairs.arena.pool? ⟨0⟩ = some p := ⟨_, rfl⟩
  obtain ⟨q, hq⟩ := Option.isSome_iff_exists.1
    (show (resting.arena.pool? ⟨0⟩).isSome = true by decide +kernel)
  refine ⟨⟨hbare, hbareRest, resting_reachable, hrest⟩, ?_, ?_⟩
  · obtain ⟨-, a', p', o, cs, hdone, -, ⟨htries, -⟩, hdraws⟩ :=
      one_slot_in_two_tries hbare hp hbareRest fun _ _ => false
    obtain ⟨made, hend⟩ := hdone.ended
    have hcall : (pairArena.complete (fun _ _ => false) ⟨0⟩ ⟨.popOne, 0⟩).2.call =
        .finished (.failed (.outOfMemory 2 24)) := by decide +kernel
    obtain rfl : o = .failed (.outOfMemory 2 24) := by
      have hsame := (congrArg (fun r => r.2.call) hend).symm.trans hcall
      exact Call.finished.inj hsame
    cases hdraws with
    | denied hs hy hgrowths hlater =>
      exact ⟨_, p, cs, hdone, rfl, htries, .denied hs hy hgrowths hlater⟩
  · obtain ⟨-, a', p', o, cs, hdone, hvisits, -, hdraws⟩ :=
      one_slot_in_two_tries resting_reachable hq hrest fun _ _ => false
    obtain ⟨made, hend⟩ := hdone.ended
    have hcall : (resting.arena.complete (fun _ _ => false) ⟨0⟩ ⟨.popOne, 0⟩).2.call =
        .finished (.acquired (.one ⟨0⟩)) := by decide +kernel
    obtain rfl : o = .acquired (.one ⟨0⟩) := by
      have hsame := (congrArg (fun r => r.2.call) hend).symm.trans hcall
      exact Call.finished.inj hsame
    have hslots : q.free.slots resting.memory = [⟨0⟩] := by
      obtain rfl := Option.some.inj hq
      decide +kernel
    cases hdraws with
    | front hs hgrowths hleft hp' hj =>
      rw [hslots] at hs
      obtain ⟨-, rfl⟩ := List.cons.inj hs
      exact ⟨a', p', cs, hdone, hleft, hgrowths, hvisits⟩
    | supplied hs => rw [hslots] at hs; cases hs

end World

end SlotPool
