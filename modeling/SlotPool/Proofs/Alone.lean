import SlotPool.Proofs.Returns

/-!
# Calls that nothing interrupts

`Call.Ends` says that a call comes to its end in so many steps, if nothing else happens, and what
holds then. A call for one slot that finds the free stack empty builds one block, and a call for
many slots as many as its policy says, unless the allocator refuses one of the reservations.

A session that asks for slots gets what such a call comes to.
-/

namespace SlotPool

open Memory

variable {ε : Type}

theorem Arena.exists_step {a : Arena ε} {id : PoolId} {p p' : Pool ε} {granted : Bool} {c c' : Call}
    {m' : Memory ε} {e : Option Event} (hp : a.pool? id = some p)
    (h : c.step id granted a.memory p = (m', p', e, c')) :
    ∃ a', a.step id granted c = (a', c') ∧ a'.memory = m' ∧
      ∀ other, a'.pool? other = if other = id then some p' else a.pool? other := by
  rcases hr : a.step id granted c with ⟨a', c₁⟩
  obtain ⟨p₁, e₁, hs, hpools⟩ := Arena.step_eq hp hr
  rw [h] at hs
  simp only [Prod.mk.injEq] at hs
  obtain ⟨rfl, rfl, -, rfl⟩ := hs
  exact ⟨a', rfl, rfl, Arena.pool?_set hp hpools⟩

theorem Arena.proceed_step {a a' : Arena ε} {id : PoolId} {p : Pool ε} {c c' : Call}
    (hp : a.pool? id = some p) (hc : c.outcome? = none) (hr : c.reservation? p.strategy = none)
    (h : a.step id true c = (a', c')) (allocator : Allocator) (fuel made : Nat) :
    a.proceed allocator id (fun _ => false) (fuel + 1) ⟨c, made⟩ =
      a'.proceed allocator id (fun _ => false) fuel ⟨c', made⟩ := by
  rw [proceed, if_neg (by simp [hc]), reservation?, hp, Option.bind_some, hr]
  simp only [h]

theorem GrowthPolicy.blocksFor_pos {policy : GrowthPolicy} {deficit blockSize blocks : Nat}
    (h : policy.blocksFor deficit blockSize = some blocks) : 0 < blocks := by
  cases policy with
  | headroom =>
    obtain ⟨-, rfl⟩ := Word.add?_eq_some.1 h
    exact Nat.succ_pos _
  | exactFit =>
    obtain rfl := Option.some.inj h
    omega

namespace Stack

/-- The stack has so many slots, and there is one. -/
structure Filled (st : Stack) (slots : Nat) : Prop where
  head : st.head.isSome = true
  tail : st.tail.isSome = true
  length : st.length = slots

theorem pushRange_isSome (m : Memory ε) (st : Stack) (first count : Nat) :
    (st.pushRange m first (count + 1)).2.head.isSome = true ∧
      (st.pushRange m first (count + 1)).2.tail.isSome = true := by
  induction count generalizing m st first with
  | zero => simp [pushRange, push]
  | succ count ih => exact ih _ _ _

end Stack

/-- The blocks by which a call for `count` slots makes the pool grow, if it can. -/
def Pool.blocksAhead (p : Pool ε) (count : Nat) : Nat :=
  if count ≤ p.free.length then 0
  else (p.policy.blocksFor (count - p.free.length) p.blockSize).getD 0

namespace Call

/-- From memory `m` and pool `p` the call `c`, which has made so many reservations, comes to its end
in at most so many steps, and `Q` holds there. -/
inductive Ends (allocator : Allocator) (id : PoolId) (Q : Memory ε → Pool ε → Outcome → Prop) :
    Nat → Memory ε → Pool ε → Call → Nat → Prop where
  | finished (n made : Nat) {m : Memory ε} {p : Pool ε} {o : Outcome} (h : Q m p o) :
      Ends allocator id Q n m p (.finished o) made
  | step {n made : Nat} {m m' : Memory ε} {p p' : Pool ε} {e : Option Event} {c c' : Call}
      (hc : c.outcome? = none) (hr : c.reservation? p.strategy = none)
      (hs : c.step id true m p = (m', p', e, c')) (h : Ends allocator id Q n m' p' c' made) :
      Ends allocator id Q (n + 1) m p c made
  | reserve {n made : Nat} {m : Memory ε} {p : Pool ε} {g : Growth} {r : Reservation}
      (hr : p.strategy.reservations[g.granted]? = some r)
      (h : Ends allocator id Q n m p (afterReservation p.strategy g (allocator made r))
        (made + 1)) :
      Ends allocator id Q (n + 1) m p (.reserve g) made

section

variable {allocator : Allocator} {id : PoolId} {Q : Memory ε → Pool ε → Outcome → Prop}
  {n made : Nat} {m : Memory ε} {p : Pool ε} {c : Call}

theorem Ends.le (h : Ends allocator id Q n m p c made) {n' : Nat} (hn : n ≤ n') :
    Ends allocator id Q n' m p c made := by
  induction h generalizing n' with
  | finished n made h => exact .finished n' made h
  | step hc hr hs h ih =>
    obtain ⟨k, rfl⟩ : ∃ k, n' = k + 1 := ⟨n' - 1, by omega⟩
    exact .step hc hr hs (ih (by omega))
  | reserve hr h ih =>
    obtain ⟨k, rfl⟩ : ∃ k, n' = k + 1 := ⟨n' - 1, by omega⟩
    exact .reserve hr (ih (by omega))

theorem Ends.proceed (h : Ends allocator id Q n m p c made) {a : Arena ε}
    (hp : a.pool? id = some p) (hm : a.memory = m) {fuel : Nat} (hfuel : n ≤ fuel) :
    ∃ a' p' o made', a.proceed allocator id (fun _ => false) fuel ⟨c, made⟩ =
        (a', ⟨.finished o, made'⟩) ∧
      (∀ other, a'.pool? other = if other = id then some p' else a.pool? other) ∧
      Q a'.memory p' o := by
  induction h generalizing a fuel with
  | @finished n made m p o h =>
    have hend : a.proceed allocator id (fun _ => false) fuel ⟨.finished o, made⟩ =
        (a, ⟨.finished o, made⟩) := by cases fuel <;> rfl
    refine ⟨a, p, o, made, hend, fun other => ?_, hm ▸ h⟩
    split
    · rename_i he
      rw [he, hp]
    · rfl
  | @step n made m m' p p' e c c' hc hr hs h ih =>
    obtain ⟨k, rfl⟩ : ∃ k, fuel = k + 1 := ⟨fuel - 1, by omega⟩
    obtain ⟨a₁, ha₁, hm₁, hpools₁⟩ := Arena.exists_step hp (hm.symm ▸ hs)
    have hp₁ : a₁.pool? id = some p' := by rw [hpools₁, if_pos rfl]
    have hfuel' : n ≤ k := by omega
    obtain ⟨a', p'', o, made', hend, hpools', hq⟩ := ih hp₁ hm₁ hfuel'
    refine ⟨a', p'', o, made', ?_, fun other => ?_, hq⟩
    · rw [Arena.proceed_step hp hc hr ha₁]
      exact hend
    · rw [hpools', hpools₁]
      split <;> rfl
  | @reserve n made m p g r hr h ih =>
    obtain ⟨k, rfl⟩ : ∃ k, fuel = k + 1 := ⟨fuel - 1, by omega⟩
    have hs : (Call.reserve g).step id (allocator made r) a.memory p =
        (a.memory, p, none, afterReservation p.strategy g (allocator made r)) := rfl
    obtain ⟨a₁, ha₁, hm₁, hpools₁⟩ := Arena.exists_step hp hs
    have hp₁ : a₁.pool? id = some p := by rw [hpools₁, if_pos rfl]
    have hfuel' : n ≤ k := by omega
    obtain ⟨a', p', o, made', hend, hpools', hq⟩ := ih hp₁ (hm₁.trans hm) hfuel'
    have hreserves : (Call.reserve g).reservation? p.strategy = some r := hr
    refine ⟨a', p', o, made', ?_, fun other => ?_, hq⟩
    · rw [Arena.proceed, if_neg (by simp [outcome?]), Arena.reservation?, hp, Option.bind_some,
        hreserves]
      simp only [ha₁]
      exact hend
    · rw [hpools', hpools₁]
      split <;> rfl

theorem Ends.complete {a : Arena ε} (h : Ends allocator id Q n a.memory p c 0)
    (hp : a.pool? id = some p) (hfuel : n ≤ a.patience id c) :
    ∃ a' p' o made', a.complete allocator id ⟨c, 0⟩ = (a', ⟨.finished o, made'⟩) ∧
      (∀ other, a'.pool? other = if other = id then some p' else a.pool? other) ∧
      Q a'.memory p' o :=
  h.proceed hp rfl hfuel

/-! ## One block after the other -/

/-- The allocator refuses one of the reservations of a block, and this is the error of it. -/
def Refused (allocator : Allocator) (strategy : Strategy ε) (error : PoolError) : Prop :=
  ∃ made, ∃ r ∈ strategy.reservations, allocator made r = false ∧ error = r.error

theorem length_reservations (strategy : Strategy ε) :
    0 < strategy.reservations.length ∧ strategy.reservations.length ≤ 2 := by
  unfold Strategy.reservations
  split <;> simp

theorem reserve_ends {g : Growth} (hg : g.granted < p.strategy.reservations.length)
    (hbuild : ∀ made,
      Ends allocator id Q n m p (.build { g with granted := p.strategy.reservations.length }) made)
    (hfail : ∀ granted made error, Refused allocator p.strategy error →
      Ends allocator id Q n m p (afterBlocks { g with granted } (some error)) made) :
    Ends allocator id Q (n + (p.strategy.reservations.length - g.granted)) m p (.reserve g)
      made := by
  obtain ⟨left, hleft⟩ : ∃ left, p.strategy.reservations.length = g.granted + (left + 1) :=
    ⟨p.strategy.reservations.length - g.granted - 1, by omega⟩
  induction left generalizing g made with
  | zero =>
    have hr := List.getElem?_eq_getElem hg
    refine Ends.le (.reserve hr ?_) (by omega : n + 1 ≤ _)
    simp only [afterReservation, hr]
    split
    · rw [if_neg (by omega)]
      have hall : g.granted + 1 = p.strategy.reservations.length := by omega
      rw [hall]
      exact hbuild _
    · rename_i hrefused
      exact hfail g.granted _ _ ⟨made, _, List.getElem_mem hg, by simpa using hrefused, rfl⟩
  | succ left ih =>
    have hr := List.getElem?_eq_getElem hg
    refine Ends.le (.reserve hr ?_) (by omega : n + (left + 1) + 1 ≤ _)
    simp only [afterReservation, hr]
    split
    · rw [if_pos (by omega)]
      refine Ends.le (ih (g := { g with granted := g.granted + 1 }) (by simp; omega)
        (fun made => hbuild made) (fun granted made => hfail granted made) (by simp; omega)) ?_
      simp only
      omega
    · rename_i hrefused
      refine Ends.le (hfail g.granted _ _ ?_) (Nat.le_add_right n _)
      exact ⟨made, _, List.getElem_mem hg, by simpa using hrefused, rfl⟩

theorem buildBlock_filled (strategy : Strategy ε) (g : Growth) :
    (buildBlock id strategy m g).2.fresh.Filled (g.fresh.length + strategy.blockSize) := by
  obtain ⟨count, hcount⟩ : ∃ count, strategy.blockSize = count + 1 :=
    ⟨strategy.blockSize - 1, by have := strategy.blockSize_pos; omega⟩
  have hsome := g.fresh.pushRange_isSome
    (m.addBlock id strategy.blockSize strategy.shape.width strategy.pristine) m.size count
  rw [← hcount] at hsome
  exact ⟨hsome.1, hsome.2, length_buildBlock id strategy m g⟩

theorem build_ends {g : Growth}
    (h : ∀ built, built.length = p.blocks.length + 1 →
      Ends allocator id Q n (buildBlock id p.strategy m g).1 { p with blocks := built }
        (nextBlock (buildBlock id p.strategy m g).2) made) :
    Ends allocator id Q (n + 1) m p (.build g) made :=
  .step rfl rfl rfl (h _ (BlockList.length_push _ _))

/-- Blocks are built until there are enough or a reservation is refused. -/
theorem grow_ends {blocks : Nat} {g : Growth} (hb : g.blocks = blocks + 1) (hg : g.granted = 0)
    (hdone : ∀ m g' built made, g'.origin = g.origin →
      g'.fresh.Filled (g.fresh.length + (blocks + 1) * p.blockSize) →
      built.length = p.blocks.length + (blocks + 1) →
      Ends allocator id Q n m { p with blocks := built } (afterBlocks g' none) made)
    (hfail : ∀ m g' built made error, g'.origin = g.origin → Refused allocator p.strategy error →
      Ends allocator id Q n m { p with blocks := built } (afterBlocks g' (some error)) made) :
    Ends allocator id Q (n + 3 * (blocks + 1)) m p (.reserve g) made := by
  obtain ⟨hpos, htwo⟩ := length_reservations p.strategy
  induction blocks generalizing g m p made with
  | zero =>
    refine Ends.le (reserve_ends (n := n + 1) (hg ▸ hpos)
      (fun made => build_ends fun built hbuilt => ?_) fun granted made error hrefused => ?_)
      (by omega)
    · rw [nextBlock, if_pos (by simp [buildBlock, hb])]
      refine hdone _ _ built _ rfl ?_ hbuilt
      rw [Nat.zero_add, Nat.one_mul]
      exact buildBlock_filled p.strategy _
    · exact (hfail m { g with granted } p.blocks made error rfl hrefused).le (Nat.le_succ n)
  | succ blocks ih =>
    refine Ends.le (reserve_ends (n := n + 3 * (blocks + 1) + 1) (hg ▸ hpos)
      (fun made => build_ends fun built hbuilt => ?_) fun granted made error hrefused => ?_)
      (by omega)
    · rw [nextBlock, if_neg (by simp [buildBlock, hb])]
      have hfresh := length_buildBlock id p.strategy m
        { g with granted := p.strategy.reservations.length }
      refine ih (by simp [buildBlock, hb]) rfl (fun m g' built' made ho hf hl => ?_)
        (fun m g' built' made error ho hrefused => hfail m g' built' made error ho hrefused) hpos
        htwo
      refine hdone m g' built' made ho ⟨hf.head, hf.tail, hf.length.trans ?_⟩ ?_
      · rw [hfresh, Nat.add_mul (blocks + 1) 1, Nat.one_mul]
        simp only [Pool.blockSize]
        omega
      · rw [hl, hbuilt]
        omega
    · exact (hfail m { g with granted } p.blocks made error rfl hrefused).le (by omega)

def counted (p : Pool ε) (slots : Nat) : Pool ε :=
  { p with
    allocated := p.allocated + slots
    counters := { p.counters with
      growthEvents := p.counters.growthEvents + 1
      blocksProvisioned := p.counters.blocksProvisioned + slots / p.blockSize } }

theorem count_ends {g : Growth} {fault : Option PoolError}
    (hcounted : g.fresh.isEmpty = false →
      Ends allocator id Q n m (counted p g.fresh.length) (afterGrowth g fault) made)
    (hnone : g.fresh.isEmpty = true → Ends allocator id Q n m p (afterGrowth g fault) made) :
    Ends allocator id Q (n + 4) m p (afterBlocks g fault) made := by
  unfold afterBlocks
  split
  · rename_i hempty
    exact (hnone hempty).le (by omega)
  · rename_i hsome
    exact .step rfl rfl rfl (.step rfl rfl rfl (.step rfl rfl rfl (.step rfl rfl rfl
      (hcounted (by simpa using hsome)))))

/-! ## One slot -/

theorem popOne_ends_of_head {s : Slot} (hs : p.free.head = some s)
    (hq : ∀ m free, Q m { p with
      free, counters := { p.counters with acquisitions := p.counters.acquisitions + 1 } }
      (.acquired (.one s))) :
    Ends allocator id Q 2 m p .popOne made := by
  obtain ⟨m', free, hpop⟩ : ∃ m' free, popOne.step id true m p =
      (m', { p with free }, none, countAcquired 1 (.one s)) := by
    simp only [Call.step, Stack.pop, hs]
    exact ⟨_, _, rfl⟩
  exact .step rfl rfl hpop (.step rfl rfl rfl (.finished 0 made (hq _ _)))

/-- What a call for one slot comes to: the front slot of the free stack, or one of a new block. -/
structure GotOne (p : Pool ε) (p' : Pool ε) (o : Outcome) : Prop where
  outcome : ∃ s, o = .acquired (.one s)
  strategy : p'.strategy = p.strategy
  growing : p'.growing = false
  blocks : p'.blocks.length = p.blocks.length + if p.free.head.isSome then 0 else 1
  counters : p'.counters = { p.counters with
    acquisitions := p.counters.acquisitions + 1
    growthEvents := p.counters.growthEvents + if p.free.head.isSome then 0 else 1
    blocksProvisioned := p.counters.blocksProvisioned + if p.free.head.isSome then 0 else 1 }

/-- Nobody else makes the pool grow, a block can be addressed, and no reservation is refused. -/
structure Provides (allocator : Allocator) (p : Pool ε) : Prop where
  idle : p.growing = false
  addressable : p.strategy.addressable 1 = true
  granted : ∀ error, ¬ Refused allocator p.strategy error

theorem popOne_ends (hp : Provides allocator p) :
    Ends allocator id (fun _ => GotOne p) 16 m p .popOne made := by
  obtain ⟨hidle, haddressable, hgranted⟩ := hp
  cases hfree : p.free.head with
  | some s =>
    refine (popOne_ends_of_head hfree fun m free => ?_).le (by omega)
    exact ⟨⟨s, rfl⟩, rfl, hidle, by simp [hfree], by simp [hfree]⟩
  | none =>
    have hpop : popOne.step id true m p = (m, p, none, claimGrowth) := by
      simp only [Call.step, Stack.pop, hfree]
    have hclaim : claimGrowth.step id true m p = (m, { p with growing := true }, none,
        .reserve { origin := .single, blocks := 1 }) := by
      simp only [Call.step, hidle, startGrowth, haddressable, nextBlock]
      rfl
    refine .step rfl rfl hpop (.step rfl rfl hclaim ?_)
    suffices hgrow : Ends allocator id (fun _ => GotOne p) (4 + 4 + 3 * (0 + 1)) m
        { p with growing := true } (.reserve { origin := .single, blocks := 1 }) made
      from hgrow.le (by omega)
    refine grow_ends rfl rfl (fun m g built made ho hf hl => ?_)
      fun m g built made error ho hrefused => absurd hrefused (hgranted error)
    refine count_ends (n := 4) (fun _ => ?_) fun hnone => ?_
    · rw [show afterGrowth g none = .publish g.fresh none by simp only [afterGrowth, ho]]
      -- The new slots are in front of no others, so that the first of them is taken off next.
      obtain ⟨first, hfirst⟩ := Option.isSome_iff_exists.1 hf.head
      obtain ⟨last, hlast⟩ := Option.isSome_iff_exists.1 hf.tail
      refine .step rfl rfl rfl (.step rfl rfl rfl ?_)
      refine popOne_ends_of_head (s := first) ?_ fun m free => ⟨⟨first, rfl⟩, rfl, rfl, ?_, ?_⟩
      · simp only [hfirst, hlast]
      · rw [hfree]
        exact hl
      · have hslots : g.fresh.length / p.blockSize = 1 := by
          rw [hf.length, Nat.zero_add, Nat.one_mul]
          exact Nat.div_self p.strategy.blockSize_pos
        change ({ p.counters with
          acquisitions := p.counters.acquisitions + 1
          growthEvents := p.counters.growthEvents + 1
          blocksProvisioned :=
            p.counters.blocksProvisioned + g.fresh.length / p.blockSize } : Counters) = _
        rw [hslots, hfree]
        rfl
    · have := hf.head
      simp [Stack.isEmpty] at hnone
      simp [hnone] at this

/-! ## Many slots -/

/-- What a call for `count` slots comes to that makes the pool grow by `blocks` blocks. -/
inductive GotMany (p : Pool ε) (count blocks : Nat) (p' : Pool ε) : Outcome → Prop where
  | acquired (st : Stack) (hs : p'.strategy = p.strategy)
      (hb : p'.blocks.length = p.blocks.length + blocks)
      (ha : p'.counters.acquisitions = p.counters.acquisitions + count)
      (hr : p'.counters.releases = p.counters.releases) :
      GotMany p count blocks p' (.acquired (.many st))
  | failed (error : PoolError) : GotMany p count blocks p' (.failed error)
  | broken (v : Violation) : GotMany p count blocks p' (.broken v)

section

variable {p' : Pool ε} {count deficit blocks : Nat} {taken fresh : Stack}

theorem countAcquired_ends {slots : Grant} (h : Q m { p with
    counters := { p.counters with acquisitions := p.counters.acquisitions + count } }
    (.acquired slots)) : Ends allocator id Q 1 m p (.countAcquired count slots) made :=
  .step rfl rfl rfl (.finished 0 made h)

theorem carve_ends
    (hq : ∀ m free st, Q m { p with
      free, counters := { p.counters with acquisitions := p.counters.acquisitions + count } }
      (.acquired (.many st)))
    (hv : ∀ m v, Q m p (.broken v)) :
    Ends allocator id Q 3 m p (.carve count deficit taken fresh) made := by
  rcases hsplit : fresh.split m deficit with ⟨m₁, v | ⟨needed, surplus⟩⟩
  · have hstep : (carve count deficit taken fresh).step id true m p =
        (m₁, p, none, .finished (.broken v)) := by simp only [Call.step, hsplit]
    exact .step rfl rfl hstep (.finished 2 made (hv m₁ v))
  · rcases happend : taken.append m₁ needed with ⟨m₂, st⟩
    by_cases hempty : surplus.isEmpty = true
    · have hstep : (carve count deficit taken fresh).step id true m p =
          (m₂, p, none, .countAcquired count (.many st)) := by
        simp only [Call.step, hsplit, happend, hempty, if_true]
      exact .step rfl rfl hstep ((countAcquired_ends (hq _ _ _)).le (by omega))
    · have hstep : (carve count deficit taken fresh).step id true m p =
          (m₂, p, none, .surrender count st surplus) := by
        simp only [Call.step, hsplit, happend, hempty]
        rfl
      exact .step rfl rfl hstep (.step rfl rfl rfl (countAcquired_ends (hq _ _ _)))

theorem fail_ends {g : Growth} (ho : g.origin = .bulk count deficit taken) (error : PoolError)
    (hq : ∀ m p error, Q m p (.failed error)) :
    Ends allocator id Q 6 m p (afterBlocks g (some error)) made := by
  have hnote : afterGrowth g (some error) = .noteFailure count taken g.fresh error := by
    simp only [afterGrowth, ho]
  have hfails : ∀ p : Pool ε, Ends allocator id Q 2 m p (afterGrowth g (some error)) made := by
    intro p
    rw [hnote]
    exact .step rfl rfl rfl (.step rfl rfl rfl (.finished 0 made (hq _ _ _)))
  exact count_ends (fun _ => hfails _) fun _ => hfails _

theorem popMany_step_some (id : PoolId) (granted : Bool) (m : Memory ε)
    (hshort : ¬ count ≤ p.free.length)
    (hfor : p.policy.blocksFor (count - p.free.length) p.blockSize = some blocks) :
    (popMany count).step id granted m p = (m, { p with free := {} }, none,
      startGrowth p.strategy (.bulk count (count - p.free.length) p.free) blocks) := by
  simp only [Call.step, hshort, if_false, hfor]

theorem popMany_step_none (id : PoolId) (granted : Bool) (m : Memory ε)
    (hshort : ¬ count ≤ p.free.length)
    (hfor : p.policy.blocksFor (count - p.free.length) p.blockSize = none) :
    (popMany count).step id granted m p = (m, { p with free := {} }, none,
      afterBlocks { origin := .bulk count (count - p.free.length) p.free, blocks := 0 }
        (some (.capacityOverflow (Word.limit - 1) p.blockSize))) := by
  simp only [Call.step, hshort, if_false, hfor]

theorem popMany_ends (count : Nat) :
    Ends allocator id (fun _ => GotMany p count (p.blocksAhead count))
      (3 * p.blocksAhead count + 8) m p (.popMany count) made := by
  by_cases hcount : count ≤ p.free.length
  · have hblocks : p.blocksAhead count = 0 := if_pos hcount
    rw [hblocks]
    rcases hsplit : p.free.split m count with ⟨m₁, v | ⟨st, free⟩⟩
    · have hstep : (popMany count).step id true m p = (m₁, p, none, .finished (.broken v)) := by
        simp only [Call.step, hcount, if_true, hsplit]
      exact .step rfl rfl hstep (.finished _ made (.broken v))
    · have hstep : (popMany count).step id true m p =
          (m₁, { p with free }, none, .countAcquired count (.many st)) := by
        simp only [Call.step, hcount, if_true, hsplit]
      exact .step rfl rfl hstep ((countAcquired_ends (.acquired st rfl rfl rfl rfl)).le (by omega))
  · have hblocks : p.blocksAhead count =
        (p.policy.blocksFor (count - p.free.length) p.blockSize).getD 0 := if_neg hcount
    have hfailed : ∀ (m : Memory ε) (q : Pool ε) error,
        GotMany p count (p.blocksAhead count) q (.failed error) := fun _ _ error => .failed error
    let origin := Origin.bulk count (count - p.free.length) p.free
    cases hfor : p.policy.blocksFor (count - p.free.length) p.blockSize with
    | none =>
      have hfirst := popMany_step_none id true m hcount hfor
      exact (Ends.step rfl rfl hfirst (fail_ends rfl _ hfailed)).le (by omega)
    | some blocks =>
      have hahead : p.blocksAhead count = blocks := by rw [hblocks, hfor, Option.getD_some]
      obtain ⟨more, rfl⟩ : ∃ more, blocks = more + 1 :=
        ⟨blocks - 1, by have := GrowthPolicy.blocksFor_pos hfor; omega⟩
      have hstep := popMany_step_some id true m hcount hfor
      by_cases haddressable : p.strategy.addressable (more + 1) = true
      · have hfirst : (popMany count).step id true m p =
            (m, { p with free := {} }, none, .reserve { origin, blocks := more + 1 }) := by
          rw [hstep, startGrowth, if_pos haddressable, nextBlock, if_neg (Nat.succ_ne_zero more)]
        have hgrow : Ends allocator id (fun _ => GotMany p count (p.blocksAhead count))
            (7 + 3 * (more + 1)) m { p with free := {} } (.reserve { origin, blocks := more + 1 })
            made := by
          refine grow_ends rfl rfl (fun m g built made ho hf hl => ?_)
            fun m g built made error ho hrefused => (fail_ends ho _ hfailed).le (by omega)
          have hcarve : afterGrowth g none =
              .carve count (count - p.free.length) p.free g.fresh := by
            simp only [afterGrowth, ho, origin]
          refine count_ends (n := 3) (fun _ => ?_) fun _ => ?_ <;> rw [hcarve]
          · exact carve_ends (fun m free st => .acquired st rfl (hahead ▸ hl) rfl rfl)
              fun m v => .broken v
          · exact carve_ends (fun m free st => .acquired st rfl (hahead ▸ hl) rfl rfl)
              fun m v => .broken v
        exact (Ends.step rfl rfl hfirst hgrow).le (by omega)
      · have hfirst : (popMany count).step id true m p = (m, { p with free := {} }, none,
            afterBlocks { origin, blocks := more + 1 }
              (some (.capacityOverflow (more + 1) p.strategy.blockSize))) := by
          rw [hstep, startGrowth, if_neg haddressable]
        exact (Ends.step rfl rfl hfirst (fail_ends rfl _ hfailed)).le (by omega)

end

/-! ## Giving back -/

/-- What giving back so many slots comes to. -/
inductive GaveBack (p : Pool ε) (count : Nat) (p' : Pool ε) : Outcome → Prop where
  | returned (hs : p'.strategy = p.strategy) (hb : p'.blocks = p.blocks)
      (hc : p'.counters = { p.counters with releases := p.counters.releases + count }) :
      GaveBack p count p' .returned
  | broken (v : Violation) : GaveBack p count p' (.broken v)

theorem cleanMany_ends {st : Stack} (hst : st.isEmpty = false) :
    Ends allocator id (fun _ => GaveBack p st.length) 3 m p (.cleanMany st) made := by
  rcases hclean : cleanAll id p.strategy.pristine m (st.slots m) with ⟨m', _ | v⟩
  · have hstep : (cleanMany st).step id true m p = (m', p, none, .appendMany st) := by
      simp only [Call.step, hst, hclean]
      rfl
    exact .step rfl rfl hstep (.step rfl rfl rfl (.step rfl rfl rfl
      (.finished 0 made (.returned rfl rfl rfl))))
  · have hstep : (cleanMany st).step id true m p = (m', p, none, .finished (.broken v)) := by
      simp only [Call.step, hst, hclean]
      rfl
    exact .step rfl rfl hstep (.finished 2 made (.broken v))

end

end Call

/-! ## What a client holds in the meantime -/

/-- From `m` to `m'` the thing keeps its slots and their values. -/
structure Held.Stays (x : Held) (m m' : Memory ε) : Prop where
  slots : x.slots m' = x.slots m
  value : ∀ s ∈ x.slots m, m'.value s = m.value s

theorem Held.Stays.refl (x : Held) (m : Memory ε) : x.Stays m m := ⟨rfl, fun _ _ => rfl⟩

theorem Held.Stays.trans {x : Held} {m m' m'' : Memory ε} (h : x.Stays m m')
    (h' : x.Stays m' m'') : x.Stays m m'' :=
  ⟨h'.slots.trans h.slots, fun s hs => (h'.value s (h.slots ▸ hs)).trans (h.value s hs)⟩

namespace World.Has

variable {rest : List Client} {a : Arena ε} {held : List Held} {id : PoolId} {c : Call}
  {call : Option (PoolId × Call)} {x : Held}

theorem run_stays (h : Has rest a held (some (id, c))) (hx : x ∈ held) (granted : Bool) :
    x.Stays a.memory (a.step id granted c).1.memory := by
  obtain ⟨p, hp⟩ := h.exists_pool
  have hlaid := h.laid
  obtain ⟨l, clients, losses, hr, hc, hl⟩ := h
  have hpart : Partition a.memory _ := (whole_of_reachable hr).partition.of_perm (pieces_perm hc)
  rcases hs : a.step id granted c with ⟨a', c'⟩
  obtain ⟨p', e, hstep, -⟩ := Arena.step_eq hp hs
  refine ⟨Client.run_slots hp hpart hs x (hl.mem_iff.2 hx), fun s hmem => ?_⟩
  have hcall := Client.call_partition hpart
  have hown : s ∈ slotsOf a.memory (l.flatMap Held.pieces) :=
    mem_slotsOf_of_subset (fun q hq => List.mem_flatMap.2 ⟨x, hl.mem_iff.2 hx, hq⟩) hmem
  have hframe : s ∈ slotsOf a.memory
      (l.flatMap Held.pieces ++ (rest.flatMap Client.pieces ++ losses.pieces)) := by
    rw [slotsOf_append]
    exact List.mem_append_left _ hown
  have hlt : s.index < a.memory.size := hcall.lt_size s (by
    rw [slotsOf_append]
    exact List.mem_append_right _ hframe)
  refine (Call.step_keeps hstep hlaid).value s hlt fun hin => hcall.disjoint ?_ hframe
  rw [slotsOf_append]
  exact List.mem_append_right _ hin

theorem proceed_stays (h : Has rest a held (some (id, c))) (hx : x ∈ held) (allocator : Allocator)
    (pause : Call → Bool) (fuel made : Nat) :
    x.Stays a.memory (a.proceed allocator id pause fuel ⟨c, made⟩).1.memory := by
  have hkept : Has rest (a.proceed allocator id pause fuel ⟨c, made⟩).1 held
      (some (id, (a.proceed allocator id pause fuel ⟨c, made⟩).2.call)) ∧
      x.Stays a.memory (a.proceed allocator id pause fuel ⟨c, made⟩).1.memory :=
    Arena.proceed_keeps
      (P := fun a' c' => Has rest a' held (some (id, c')) ∧ x.Stays a.memory a'.memory)
      (fun a' c' granted hc h' =>
        ⟨h'.1.run granted hc, h'.2.trans (h'.1.run_stays hx granted)⟩)
      allocator pause fuel ⟨h, .refl x a.memory⟩
  exact hkept.2

theorem free_sound (h : Has rest a held call) {p : Pool ε} (hp : a.pool? id = some p) :
    p.free.Spans a.memory (p.free.slots a.memory) := by
  obtain ⟨l, clients, losses, hr, hc, hl⟩ := h
  exact free_spans hr hp

theorem acquired_clean {slots : Grant}
    (h : Has rest a held (some (id, .finished (.acquired slots)))) {p : Pool ε}
    (hp : a.pool? id = some p) :
    ∀ s ∈ slotsOf a.memory slots.pieces, Clean a.memory id p.strategy s := by
  obtain ⟨l, clients, losses, hr, hc, hl⟩ := h
  have htended := (tended_of_reachable hr).clients _ (hc.mem_iff.2 List.mem_cons_self)
  exact htended.call id _ p rfl hp

theorem exists_own_partition (h : Has rest a (x :: held) call) :
    ∃ frame, Partition a.memory (x.pieces ++ (held.flatMap Held.pieces ++ (a.free ++ frame))) := by
  obtain ⟨l, clients, losses, hr, hc, hl⟩ := h
  have hpart : Partition a.memory _ := (whole_of_reachable hr).partition.of_perm (pieces_perm hc)
  have hheld := ((hl.flatMap_right Held.pieces).append_right
    (Client.running ⟨l, call⟩)).append_left a.free
  refine ⟨Client.running ⟨l, call⟩ ++ (rest.flatMap Client.pieces ++ losses.pieces),
    (hpart.of_perm (hheld.append_right _)).of_perm ?_⟩
  rw [List.perm_iff_count]
  intro piece
  simp only [List.flatMap_cons, List.count_append]
  omega

theorem apart (h : Has rest a (x :: held) call) {y : Held} (hy : y ∈ held) :
    (x.slots a.memory).Disjoint (y.slots a.memory) := by
  obtain ⟨frame, hpart⟩ := h.exists_own_partition
  intro s hs hs'
  refine hpart.disjoint hs ?_
  rw [slotsOf_append]
  exact List.mem_append_left _ (mem_slotsOf_of_subset
    (fun q hq => List.mem_flatMap.2 ⟨y, hy, hq⟩) hs')

end World.Has

/-! ## Sessions that ask for slots -/

namespace Session

variable {item : ItemType ε} {s : Session ε} {allocator : Allocator} {command : Command ε}
  {id : PoolId} {c : Call} {sequel : Sequel ε} {a : Arena ε} {o : Outcome} {made : Nat}

theorem complete_call
    (hdone : s.arena.complete allocator id ⟨c, 0⟩ = (a, ⟨.finished o, made⟩)) :
    s.complete allocator (.call id c sequel) =
      completeWithin allocator (conclude { s with arena := a } id o sequel).1
        (conclude { s with arena := a } id o sequel).2 1 := by
  obtain ⟨item, arena, registers⟩ := s
  have hrun : arena.proceed allocator id (fun _ => false) (arena.patience id c) ⟨c, 0⟩ =
      (a, ⟨.finished o, made⟩) := hdone
  rw [complete, Execution.call, completeWithin]
  simp only [proceed, hrun, Call.outcome?]

theorem Rests.reaches (h : Rests item s) (hstart : s.start command = (s, .call id c sequel))
    (hdone : s.arena.complete allocator id ⟨c, 0⟩ = (a, ⟨.finished o, made⟩)) :
    ∃ made', Doing item s command
      ({ s with arena := a }, .calling id ⟨.finished o, made'⟩ sequel) := by
  have hbegun := h.start command
  rw [hstart] at hbegun
  have hrun := hbegun.proceed allocator (s.arena.patience id c)
  have hdone' : s.arena.proceed allocator id (fun _ => false) (s.arena.patience id c) ⟨c, 0⟩ =
      (a, ⟨.finished o, made⟩) := hdone
  rw [hdone'] at hrun
  exact hrun

theorem Rests.breaks_of_broken {v : Violation} (h : Rests item s)
    (hstart : s.start command = (s, .call id c sequel))
    (hdone : s.arena.complete allocator id ⟨c, 0⟩ = (a, ⟨.finished (.broken v), made⟩)) :
    command.Breaks s v := by
  obtain ⟨made', hdoing⟩ := h.reaches hstart hdone
  exact hdoing.isClient.voiced v (.inl rfl)

theorem perform_failed {e : PoolError} (hstart : s.start command = (s, .call id c sequel))
    (hdone : s.arena.complete allocator id ⟨c, 0⟩ = (a, ⟨.finished (.failed e), made⟩)) :
    s.perform allocator command = ({ s with arena := a }, .error (.error e)) := by
  rw [perform, hstart]
  simp only
  rw [complete_call hdone]
  cases sequel <;> rfl

theorem Rests.perform_acquired {dest : String} {leased : Bool} {content : Option (Content ε)}
    {slots : Grant} (h : Rests item s)
    (hstart : s.start command = (s, .call id c (.keep (some dest) leased content)))
    (hdone : s.arena.complete allocator id ⟨c, 0⟩ = (a, ⟨.finished (.acquired slots), made⟩))
    (hfree : s.registers.get? dest = none) :
    ∃ x, heldOf a.memory id leased slots = .ok x ∧
      s.perform allocator command =
        (⟨s.item, { a with memory := writeContent a.memory slots content },
          s.registers.store dest x⟩, .ok .done) := by
  obtain ⟨made', hdoing⟩ := h.reaches hstart hdone
  obtain ⟨x, hx⟩ := has_heldOf hdoing.isClient.has leased
  refine ⟨x, hx, ?_⟩
  have hwritten := (heldOf_writeContent a.memory id leased slots content).trans hx
  rw [Session.perform, hstart]
  simp only
  rw [complete_call hdone]
  obtain ⟨item, arena, registers⟩ := s
  obtain ⟨memory, pools, journal⟩ := a
  simp only [conclude, withMemory, hwritten, store, show registers.get? dest = none from hfree]
  rfl

theorem Rests.exact (h : Rests item s) (id : PoolId) {p : Pool ε}
    (hp : s.arena.pool? id = some p) :
    ∃ held, p.Exact held := by
  obtain ⟨-, held, clients, losses, hr, hc, -⟩ := h.holds
  refine ⟨_, World.exact_of_idle hr (fun k hk => ?_) hp⟩
  obtain rfl := List.mem_singleton.1 (hc.mem_iff.1 hk)
  rfl

end Session

end SlotPool
