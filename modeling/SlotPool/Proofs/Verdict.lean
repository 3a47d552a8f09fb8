import SlotPool.Proofs.Turns

/-!
# The verdict on threads under stress

Whatever turns the threads of a plan take, as long as nothing that they ask for is out of reach: all
slots come back, and what is reported of them does not depend on the turns, but for how the pool
came to grow. Where there is room for the plan, the threads can always come to an end, and those
that take turns do.
-/

namespace SlotPool.Cli.Stress

def slotBytes : Nat := (ItemType.number 0).layout.objectNodeBytes

/-- A block can be reserved, and all blocks that a batch takes can be addressed. -/
structure Plan.Feasible (limit : Nat) (c : Config) (plan : Plan) : Prop where
  reserved : c.blockSize * slotBytes ≤ limit
  addressed : ∃ blocks, c.growthPolicy.blocksFor plan.batch c.blockSize = some blocks ∧
    blocks * c.blockSize * slotBytes ≤ Word.maxBytes

/-- The report on a pool that has all its slots back, in so many blocks. -/
def Plan.approval (plan : Plan) (blocks blockSize growthEvents backoffs : Nat) : Report :=
  let slots := blocks * blockSize
  { lines := [.elapsed, .throughput (plan.threads * plan.iterations)] ++ [
      s!"  Blocks:      {blocks}",
      "  " ++ (s!"Pool: {slots} allocated, {slots} available, {0} outstanding; " ++
        s!"{plan.slots} acquisitions, {plan.slots} releases, " ++
        s!"{growthEvents} growth events ({blocks} blocks), {backoffs} backoffs"),
      "",
      "  ✓ allocated == available",
      "  ✓ allocated is a whole number of blocks",
      ""].map .text }

theorem Plan.Feasible.feeds {limit : Nat} {c : Config} {plan : Plan} (h : plan.Feasible limit c)
    (hsize : 0 < c.blockSize) :
    (Strategy.objects (ItemType.number 0).layout c.blockSize hsize).Feeds limit plan.batch
      c.growthPolicy := by
  obtain ⟨hreserved, blocks, hblocks, haddressed⟩ := h
  refine ⟨fun r hr => ?_, blocks, hblocks, fun blocks' hle hpos => ?_⟩
  · obtain rfl := List.mem_singleton.1 hr
    exact hreserved
  · refine (Strategy.addressable_objects hsize hpos (by decide)).2 (Nat.le_trans ?_ haddressed)
    exact Nat.mul_le_mul_right _ (Nat.mul_le_mul_right _ hle)

theorem Steady.counters_le {batch slots : Nat} {strategy : Strategy Int} {policy : GrowthPolicy}
    {crew : Crew Int} (h : Steady batch slots strategy policy crew) {p : Pool Int}
    (hp : crew.arena.pool? ⟨0⟩ = some p) :
    p.counters.acquisitions ≤ slots ∧ p.counters.releases ≤ slots := by
  obtain ⟨q, hq, -, -, hacquired, hreleased⟩ := h.pool
  obtain rfl := Option.some.inj (hp.symm.trans hq)
  exact ⟨Nat.le.intro hacquired, Nat.le.intro hreleased⟩

theorem Steady.conclusion_eq {plan : Plan} {c : Config} {crew : Crew Int}
    {strategy : Strategy Int} {policy : GrowthPolicy}
    (h : Steady plan.batch plan.slots strategy policy crew)
    (hsize : strategy.blockSize = c.blockSize) (hdone : crew.isDone = true) :
    ∃ p growthEvents backoffs, crew.arena.pool? ⟨0⟩ = some p ∧
      p.stats = settled plan.slots p.blocks.length c.blockSize growthEvents backoffs ∧
      conclusion plan c crew =
        plan.approval p.blocks.length c.blockSize growthEvents backoffs := by
  obtain ⟨p, growthEvents, backoffs, hp, hstats⟩ := h.stats_eq hdone
  rw [hsize] at hstats
  refine ⟨p, growthEvents, backoffs, hp, hstats, ?_⟩
  have hfirst : crew.arena.pools[0]? = some p := hp
  have hbalance : imbalance? (settled plan.slots p.blocks.length c.blockSize growthEvents backoffs)
      c.blockSize = none := by
    simp [imbalance?, settled]
  simp only [conclusion, h.complaint?_eq, hfirst, verdict, hstats, hbalance]
  simp only [settled, PoolStats.summary, PoolStats.outstanding, Nat.sub_self]
  rfl

/-- The slots of a plan can all be counted in words. Whatever turns the threads take then, as long
as no reservation is refused and no growth asked for that cannot be addressed: no thread has a
complaint, no count of slots leaves its word, and when all are done, all slots are back, so that the
verdict is the same but for how the pool came to grow. Where there is room for the plan, the threads
can come to an end from wherever they are, and the report tells of such an end. -/
theorem verdict_of_turns (plan : Plan) (c : Config) (hc : c.validate = .ok ())
    (hslots : plan.slots < Word.limit) :
    ∃ crew, plan.crew c = .ok crew ∧
      (∀ crew', crew.RunsTo Thread.Served crew' →
        (∀ (i : Nat) t, crew'.threads[i]? = some t → t.complaint = none) ∧
        (∀ p, crew'.arena.pool? ⟨0⟩ = some p →
          p.counters.acquisitions < Word.limit ∧ p.counters.releases < Word.limit) ∧
        (crew'.isDone = true → ∃ p growthEvents backoffs, crew'.arena.pool? ⟨0⟩ = some p ∧
          p.stats = settled plan.slots p.blocks.length c.blockSize growthEvents backoffs ∧
          conclusion plan c crew' =
            plan.approval p.blocks.length c.blockSize growthEvents backoffs) ∧
        ∀ limit, plan.Feasible limit c → ∃ fuel,
          crew'.RunsTo Thread.Served (crew'.sweeps limit fuel) ∧
            (crew'.sweeps limit fuel).isDone = true) ∧
      ∀ limit, 0 < plan.threads → plan.Feasible limit c → ∃ blocks growthEvents backoffs,
        report limit c plan =
          ((Report.ofTexts (title "Concurrency Stress")).andThen
            (.ofTexts (heading plan c))).andThen
            (plan.approval blocks c.blockSize growthEvents backoffs) := by
  obtain ⟨hsize, hcrew⟩ := plan.crew_eq hc
  have hstart := plan.steady_ofWork (.objects (ItemType.number 0).layout c.blockSize hsize)
    c.growthPolicy c.backoffMicros
  refine ⟨_, hcrew, fun crew' hrun => ?_, fun limit hthreads hfeasible => ?_⟩
  · have hsteady := hstart.runsTo rfl hrun
    refine ⟨fun i t ht => (hsteady.courses i t ht).content, fun p hp => ?_,
      hsteady.conclusion_eq rfl, fun limit hfeasible => ?_⟩
    · obtain ⟨hacquired, hreleased⟩ := hsteady.counters_le hp
      exact ⟨Nat.lt_of_le_of_lt hacquired hslots, Nat.lt_of_le_of_lt hreleased hslots⟩
    · have hfed : Fed limit _ _ _ _ crew' :=
        { hsteady with width := rfl, room := hfeasible.feeds hsize }
      exact ⟨_, hfed.sweeps _, hfed.ends _ (Nat.lt_succ_self _) _ (Nat.le_refl _)⟩
  · have hroom := hfeasible.feeds hsize
    have hfed : Fed limit _ _ _ _ _ := { hstart with width := rfl, room := hroom }
    have hsteady := hstart.runsTo rfl (hfed.sweeps
      (Crew.patience (plan.threads * plan.iterations) plan.batch))
    obtain ⟨p, growthEvents, backoffs, -, -, happroval⟩ := hsteady.conclusion_eq (c := c) rfl
      (plan.isDone_done c.backoffMicros rfl hroom)
    refine ⟨p.blocks.length, growthEvents, backoffs, ?_⟩
    rw [report, if_neg (Nat.ne_of_gt hthreads), hcrew]
    exact congrArg (Report.andThen _) happroval

def pairs : Config := { blockSize := 2 }

theorem verdict_of_turns_pairs :
    (∃ crew crew', Plan.crew ⟨2, 2, 3⟩ pairs = .ok crew ∧ crew.RunsTo Thread.Served crew' ∧
      crew'.isDone = true ∧ ∃ blocks growthEvents backoffs, conclusion ⟨2, 2, 3⟩ pairs crew' =
        Plan.approval ⟨2, 2, 3⟩ blocks 2 growthEvents backoffs) ∧
      (report (1 <<< 47) pairs ⟨2, 2, 3⟩).fault = none := by
  have hfeasible : Plan.Feasible (1 <<< 47) pairs ⟨2, 2, 3⟩ := ⟨by decide, 2, by decide, by decide⟩
  obtain ⟨crew, hcrew, hturns, hreport⟩ := verdict_of_turns ⟨2, 2, 3⟩ pairs (by decide)
    (by decide)
  refine ⟨?_, ?_⟩
  · obtain ⟨-, -, -, hends⟩ := hturns crew .start
    obtain ⟨fuel, hrun, hdone⟩ := hends (1 <<< 47) hfeasible
    obtain ⟨-, -, hverdict, -⟩ := hturns _ hrun
    obtain ⟨p, growthEvents, backoffs, -, -, happroval⟩ := hverdict hdone
    exact ⟨crew, _, hcrew, hrun, hdone, _, growthEvents, backoffs, happroval⟩
  · obtain ⟨blocks, growthEvents, backoffs, happroval⟩ :=
      hreport (1 <<< 47) (by decide) hfeasible
    rw [happroval]
    rfl

/-! ## A block that cannot be addressed -/

/-- The thread does not ask for many slots at once. -/
def asksForNone (t : Thread Int) : Bool :=
  match t.call? with
  | some (_, .popMany _) => false
  | _ => true

theorem supplied_of_asksForNone (a : Arena Int) {t : Thread Int} (h : asksForNone t = true) :
    t.Supplied a true := by
  refine ⟨fun _ => rfl, fun id c p hc _ => ?_⟩
  cases c with
  | popMany count => simp [asksForNone, hc] at h
  | _ => trivial

def alone (crew : Crew Int) : Nat → Crew Int
  | 0 => crew
  | n + 1 => (alone crew n).advance true 0

theorem runsTo_alone (crew : Crew Int) (n : Nat)
    (h : ∀ k < n, (alone crew k).threads.all asksForNone = true) :
    crew.RunsTo Thread.Supplied (alone crew n) := by
  induction n with
  | zero => exact .start
  | succ n ih =>
    refine (ih fun k hk => h k (by omega)).turn true 0 fun t ht => ?_
    exact supplied_of_asksForNone _
      (Array.all_eq_true_iff_forall_mem.1 (h n (by omega)) t (Array.mem_of_getElem? ht))

def vast : Config := { blockSize := 1 <<< 62 }

theorem validate_vast : vast.validate = .ok () := by decide

def stranded : Crew Int :=
  .ofWork (.number 0) (.fresh (.objects (ItemType.number 0).layout vast.blockSize (by decide))
    vast.growthPolicy vast.backoffMicros) (Plan.work ⟨1, 1, 0⟩)

/-- A thread that takes one slot at a time fails as well, where a block cannot be addressed. -/
theorem not_settled_of_supplied :
    ¬ ∀ (plan : Plan) (c : Config) (crew crew' : Crew Int), c.validate = .ok () →
      0 < plan.threads → plan.threads * plan.iterations < Word.limit → plan.crew c = .ok crew →
      crew.RunsTo Thread.Supplied crew' → crew'.isDone = true →
      (conclusion plan c crew').fault = none := by
  intro h
  have hcrew : Plan.crew ⟨1, 1, 0⟩ vast = .ok stranded := by
    obtain ⟨hsize, hcrew⟩ := Plan.crew_eq ⟨1, 1, 0⟩ validate_vast
    exact hcrew
  have hfault := h ⟨1, 1, 0⟩ vast stranded (alone stranded 8) validate_vast (by decide)
    (by decide) hcrew (runsTo_alone stranded 8 (by decide +kernel)) (by decide +kernel)
  revert hfault
  decide +kernel

end SlotPool.Cli.Stress
