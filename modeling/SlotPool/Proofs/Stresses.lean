import SlotPool.Proofs.Courses
import SlotPool.Proofs.Sizings

/-!
# The verdict on threads does not depend on their turns

`Crew.RunsTo` is any sequence of turns, each of them subject to a condition. Where no reservation is
refused and all growth can be addressed, no thread ever has a complaint, and what is counted and
what is still due add up to what the plan asks for. So when all are done the verdict is the same
whatever the turns were, but for how the pool came to grow.
-/

namespace SlotPool

open Memory

/-! ## Room -/

section

variable {ε : Type} {policy : GrowthPolicy} {count more blockSize blocks blocks' : Nat}

theorem GrowthPolicy.blocksFor_mono (h : policy.blocksFor more blockSize = some blocks)
    (hle : count ≤ more) : ∃ blocks' ≤ blocks, policy.blocksFor count blockSize = some blocks' := by
  have hdiv : ∀ k, (count + k) / blockSize ≤ (more + k) / blockSize := fun k =>
    Nat.div_le_div_right (by omega)
  cases policy with
  | headroom =>
    obtain ⟨hlt, rfl⟩ := Word.add?_eq_some.1 h
    have hle' : count / blockSize + 1 ≤ more / blockSize + 1 := Nat.succ_le_succ (hdiv 0)
    exact ⟨_, hle', Word.add?_eq_some.2 ⟨Nat.lt_of_le_of_lt hle' hlt, rfl⟩⟩
  | exactFit =>
    obtain rfl := Option.some.inj h
    exact ⟨_, max_le_max_right 1 (hdiv (blockSize - 1)), rfl⟩

theorem Strategy.addressable_objects {layout : ElementLayout ε} (hsize : 0 < blockSize)
    (hblocks : 0 < blocks) (hbytes : 0 < layout.objectNodeBytes) :
    (objects layout blockSize hsize).addressable blocks = true ↔
      blocks * blockSize * layout.objectNodeBytes ≤ Word.maxBytes := by
  have hone : 1 * blockSize ≤ blocks * blockSize := Nat.mul_le_mul_right _ hblocks
  have hall : blocks * blockSize ≤ blocks * blockSize * layout.objectNodeBytes :=
    Nat.le_mul_of_pos_right _ hbytes
  have hlimit : Word.maxBytes < Word.limit := by decide
  simp only [addressable, elementsPerBlock?, slotBytes?, objects, Shape.width, Word.mul?]
  grind

/-- A pool can grow for `batch` slots at once: all their blocks can be addressed, and no reservation
has more than `limit` bytes. -/
structure Strategy.Feeds (limit batch : Nat) (policy : GrowthPolicy) (strategy : Strategy ε) :
    Prop where
  reserves : ∀ r ∈ strategy.reservations, r.total ≤ limit
  addresses : ∃ blocks, policy.blocksFor batch strategy.blockSize = some blocks ∧
    ∀ blocks' ≤ blocks, 0 < blocks' → strategy.addressable blocks' = true

end

/-! ## Turns -/

theorem Thread.exists_of_reservation? {ε : Type} {a : Arena ε} {t : Thread ε}
    {r : Reservation} (hr : t.reservation? a = some r) :
    ∃ id p, a.pool? id = some p ∧ r ∈ p.strategy.reservations := by
  unfold Thread.reservation? at hr
  split at hr
  · rename_i id c made sequel hcurrent
    obtain ⟨p, hp, hr⟩ := Option.bind_eq_some_iff.1 hr
    refine ⟨id, p, hp, ?_⟩
    cases c with
    | reserve g => exact List.mem_of_getElem? hr
    | _ => cases hr
  · cases hr

namespace Crew

variable {ε : Type} {c c' : Crew ε} {ok : Arena ε → Bool → Thread ε → Prop}

/-- Turns lead from `c` to a crew, each of them `ok`. -/
inductive RunsTo (ok : Arena ε → Bool → Thread ε → Prop) (c : Crew ε) : Crew ε → Prop where
  | start : RunsTo ok c c
  | turn {c' : Crew ε} (h : RunsTo ok c c') (granted : Bool) (i : Nat)
      (hok : ∀ t, c'.threads[i]? = some t → ok c'.arena granted t) :
      RunsTo ok c (c'.advance granted i)

theorem RunsTo.trans {c'' : Crew ε} (h : c.RunsTo ok c') (h' : c'.RunsTo ok c'') :
    c.RunsTo ok c'' := by
  induction h' with
  | start => exact h
  | turn _ granted i hok ih => exact ih.turn granted i hok

def total (f : Thread ε → Nat) (c : Crew ε) : Nat := (c.threads.toList.map f).sum

theorem advance_eq (granted : Bool) {i : Nat} {t : Thread ε} (ht : c.threads[i]? = some t) :
    c.advance granted i = ⟨c.item, (t.step c.item granted c.arena).1,
      c.threads.setIfInBounds i (t.step c.item granted c.arena).2⟩ := by
  obtain ⟨item, arena, threads⟩ := c
  simp only [advance, ht]

theorem advance_none (granted : Bool) {i : Nat} (ht : c.threads[i]? = none) :
    c.advance granted i = c := by
  obtain ⟨item, arena, threads⟩ := c
  simp only [advance, ht]

theorem total_advance (f : Thread ε → Nat) (granted : Bool) {i : Nat} {t : Thread ε}
    (ht : c.threads[i]? = some t) :
    (c.advance granted i).total f + f t =
      c.total f + f (t.step c.item granted c.arena).2 := by
  have hlt : i < c.threads.toList.length := by simpa using (Array.getElem?_eq_some_iff.1 ht).1
  have ht' : c.threads.toList[i] = t := by simpa using (Array.getElem?_eq_some_iff.1 ht).2
  have hset := (List.set_perm_cons_eraseIdx hlt (t.step c.item granted c.arena).2).map f
  have hold := (List.getElem_cons_eraseIdx_perm hlt).map f
  have hset' := hset.sum_nat
  have hold' := hold.sum_nat
  simp only [advance_eq granted ht, total, Array.toList_setIfInBounds]
  simp only [List.map_cons, List.sum_cons, ht'] at hset' hold'
  omega

theorem exists_turn (limit : Nat) (c : Crew ε) (i : Nat) :
    ∃ granted, c.turn limit i = c.advance granted i ∧
      ∀ t r, c.threads[i]? = some t → t.reservation? c.arena = some r → r.total ≤ limit →
        granted = true :=
  ⟨_, rfl, fun t r ht hr hle => by simp [ht, hr, hle]⟩

theorem IsWorld.exists_has (h : c.IsWorld) {i : Nat} {t : Thread ε}
    (ht : c.threads[i]? = some t) :
    ∃ rest, World.Has rest c.arena t.registers.things t.call? ∧
      ∀ j u, j ≠ i → c.threads[j]? = some u → ∃ k ∈ rest, k.held.Perm u.registers.things := by
  obtain ⟨clients, losses, ks, hr, hc, hm⟩ := h
  obtain ⟨k, hk, hmatches, -⟩ := forall₂_set hm (by simpa using ht)
  refine ⟨_, has_of_matches hr hc hk hmatches, fun j u hj hu => ?_⟩
  obtain ⟨k', hk', hmatches', -⟩ := forall₂_set hm (by simpa using hu)
  exact ⟨k', List.mem_eraseIdx_iff_getElem?.2 ⟨j, hj, hk'⟩, hmatches'.held⟩

theorem IsWorld.exists_exact (h : c.IsWorld) (hidle : ∀ t ∈ c.threads.toList, t.call? = none)
    {id : PoolId} {p : Pool ε} (hp : c.arena.pool? id = some p) : ∃ held, p.Exact held := by
  obtain ⟨clients, losses, ks, hr, hc, hm⟩ := h
  refine ⟨_, World.exact_of_idle hr (fun k hk => ?_) hp⟩
  obtain ⟨i, hi⟩ := List.getElem?_of_mem (hc.mem_iff.1 hk)
  obtain ⟨t, ht, hmatches, -⟩ := forall₂_set hm.flip hi
  exact hmatches.call.trans (hidle t (List.mem_of_getElem? ht))

end Crew

/-! ## Threads on their courses -/

namespace Cli.Stress

/-- Slots that the threads of a plan acquire in all. -/
def Plan.slots (plan : Plan) : Nat :=
  plan.threads * (plan.iterations + plan.batch * ((plan.iterations + 7) / 8))

def settled (slots blocks blockSize growthEvents backoffs : Nat) : PoolStats where
  acquisitions := slots
  releases := slots
  growthEvents
  blocksProvisioned := blocks
  backoffs
  allocated := blocks * blockSize
  available := blocks * blockSize

theorem OnCourse.keeps {batch : Nat} {m m' : Memory Int} {t : Thread Int}
    (h : OnCourse batch m t) (hm : ∀ s, .slot s ∈ t.registers.things → m'.value s = m.value s) :
    OnCourse batch m' t := by
  obtain ⟨work, registers, begun, left, current, complaint⟩ := t
  obtain ⟨hrounds, hcontent, hcourse⟩ := h
  have hholds : ∀ {v : Int} {s : Stage}, s.Holds batch v m registers →
      s.Holds batch v m' registers := by
    intro v s hh
    cases s with
    | slot =>
      obtain ⟨sl, rfl, hvalue⟩ := hh
      exact ⟨sl, rfl, (hm sl (by simp [Registers.things])).trans hvalue⟩
    | _ => exact hh
  refine ⟨hrounds, hcontent, ?_⟩
  cases hcourse with
  | between v s hh hl => exact .between v s (hholds hh) hl
  | about v s₀ s d e hd he hl =>
    refine .about v s₀ s d e hd ?_ hl
    cases he with
    | one made hr hw => exact .one made hr hw
    | many made hr hw => exact .many made hr hw
    | giving made n hr hn => exact .giving made n hr hn
    | answered hh hj => exact .answered (hholds hh) hj

/-- All threads are on their courses, and what is counted and what is due add up to `slots`. -/
structure Steady (batch slots : Nat) (strategy : Strategy Int) (policy : GrowthPolicy)
    (c : Crew Int) : Prop where
  isWorld : c.IsWorld
  item : c.item.buffered = false
  size : c.arena.pools.size = 1
  courses : ∀ (i : Nat) (t : Thread Int), c.threads[i]? = some t → OnCourse batch c.arena.memory t
  pool : ∃ p, c.arena.pool? ⟨0⟩ = some p ∧ p.strategy = strategy ∧ p.policy = policy ∧
    p.counters.acquisitions + c.total (Thread.due Command.asked Call.toAcquire) = slots ∧
    p.counters.releases + c.total (Thread.due (Command.given batch) Call.toRelease) = slots

variable {batch slots : Nat} {strategy : Strategy Int} {policy : GrowthPolicy} {c c' : Crew Int}

theorem Steady.advance (h : Steady batch slots strategy policy c)
    (hwidth : strategy.shape.width = 1) (granted : Bool) (i : Nat)
    (hserved : ∀ t, c.threads[i]? = some t → t.Served c.arena granted) :
    Steady batch slots strategy policy (c.advance granted i) := by
  have hworld := h.isWorld.advance granted i
  cases ht : c.threads[i]? with
  | none =>
    rwa [Crew.advance_none granted ht]
  | some t =>
    obtain ⟨p, hp, hstrategy, hpolicy, hacquired, hreleased⟩ := h.pool
    obtain ⟨rest, hhas, hothers⟩ := h.isWorld.exists_has ht
    obtain ⟨honCourse, hundisturbed, hsize, hpool⟩ := (h.courses i t ht).step hhas
      (Nat.le_of_eq h.size) hp (hstrategy ▸ hwidth) h.item (hserved t ht)
    obtain ⟨p', hp', hsame, hacquired', hreleased'⟩ := hpool p hp
    have hdueAcquire :=
      Crew.total_advance (Thread.due Command.asked Call.toAcquire) granted ht
    have hdueRelease :=
      Crew.total_advance (Thread.due (Command.given batch) Call.toRelease) granted ht
    rw [Crew.advance_eq granted ht] at hworld hdueAcquire hdueRelease ⊢
    refine ⟨hworld, h.item, hsize.trans h.size, fun j u hu => ?_, p', hp',
      hsame.strategy.trans hstrategy, hsame.policy.trans hpolicy, by omega, by omega⟩
    rw [Array.getElem?_setIfInBounds] at hu
    split at hu
    · split at hu
      · obtain rfl := Option.some.inj hu
        exact honCourse
      · exact absurd hu (by simp)
    · -- The slots of another thread keep their values, and so it stays on its course.
      rename_i hj
      obtain ⟨k, hk, hheld⟩ := hothers j u (fun e => hj e.symm) hu
      exact (h.courses j u hu).keeps fun s hs =>
        hundisturbed k hk (.slot s) (hheld.mem_iff.2 hs) s (by simp [Held.slots, Held.pieces])

/-! ## From start to end -/

theorem Plan.crew_eq (plan : Plan) {c : Config} (hc : c.validate = .ok ()) :
    ∃ hsize : 0 < c.blockSize, plan.crew c =
      .ok (.ofWork (.number 0) (.fresh (.objects (ItemType.number 0).layout c.blockSize hsize)
        c.growthPolicy c.backoffMicros) plan.work) := by
  obtain ⟨hsize, hp⟩ := Sizing.ofConfig_eq hc c.growthPolicy
  refine ⟨hsize, ?_⟩
  simp only [Plan.crew, Session.makePool, Session.makePool.ofConfig]
  rw [if_neg (by decide), hp]
  rfl

theorem Plan.due_ofWork (plan : Plan) (item : ItemType Int) (p : Pool Int) :
    (Crew.ofWork item p plan.work).total (Thread.due Command.asked Call.toAcquire) =
        plan.slots ∧
      (Crew.ofWork item p plan.work).total (Thread.due (Command.given plan.batch) Call.toRelease) =
        plan.slots := by
  have hsum : ∀ (ofCommand : Command Int → Nat) (ofCall : Call → Nat),
      (∀ thread i, Thread.total ofCommand (duties plan.batch thread i) =
        1 + if i % 8 = 0 then plan.batch else 0) →
      (Crew.ofWork item p plan.work).total (Thread.due ofCommand ofCall) = plan.slots := by
    intro ofCommand ofCall htotal
    have heach : ∀ thread, Thread.due ofCommand ofCall
        { work := { rounds := plan.iterations, duties := duties plan.batch thread } } =
          plan.iterations + plan.batch * ((plan.iterations + 7) / 8) := by
      intro thread
      rw [← sum_rounds]
      simp [Thread.due, Thread.later, htotal]
      rfl
    simp [Crew.total, Crew.ofWork, Plan.work, Plan.slots, Function.comp_def, heach]
  exact ⟨hsum _ _ fun thread i => (total_duties plan.batch thread i).1,
    hsum _ _ fun thread i => (total_duties plan.batch thread i).2⟩

theorem Plan.steady_ofWork (plan : Plan) (strategy : Strategy Int) (policy : GrowthPolicy)
    (backoffMicros : Nat) :
    Steady plan.batch plan.slots strategy policy
      (.ofWork (.number 0) (.fresh strategy policy backoffMicros) plan.work) := by
  obtain ⟨hacquire, hrelease⟩ :=
    plan.due_ofWork (.number 0) (.fresh strategy policy backoffMicros)
  have hfresh : Session.IsFresh (.fresh strategy policy backoffMicros) := ⟨_, _, _, rfl⟩
  refine ⟨Crew.isWorld_ofWork _ hfresh _, rfl, rfl, fun i t ht => ?_, _, rfl, rfl, rfl,
    (Nat.zero_add _).trans hacquire, (Nat.zero_add _).trans hrelease⟩
  simp only [Crew.ofWork, Plan.work, List.map_map, List.getElem?_toArray, List.getElem?_map,
    Option.map_eq_some_iff] at ht
  obtain ⟨thread, -, rfl⟩ := ht
  exact ⟨fun i => ⟨_, ahead_duties plan.batch thread i⟩, rfl, .between 0 .idle rfl rfl⟩

theorem Steady.runsTo (h : Steady batch slots strategy policy c)
    (hwidth : strategy.shape.width = 1) (hrun : c.RunsTo Thread.Served c') :
    Steady batch slots strategy policy c' := by
  induction hrun with
  | start => exact h
  | turn _ granted i hserved ih => exact ih.advance hwidth granted i hserved

theorem OnCourse.of_isDone {m : Memory Int} {t : Thread Int} (h : OnCourse batch m t)
    (hdone : t.isDone = true) :
    t.call? = none ∧ ∀ ofCommand ofCall, t.due ofCommand ofCall = 0 := by
  obtain ⟨work, registers, begun, left, current, complaint⟩ := t
  obtain rfl : complaint = none := h.content
  obtain ⟨⟨rfl, rfl⟩, hrounds⟩ : (current = none ∧ left = []) ∧ work.rounds ≤ begun := by
    simpa [Thread.isDone] using hdone
  refine ⟨rfl, fun ofCommand ofCall => ?_⟩
  simp [Thread.due, Thread.later, Thread.total, List.drop_eq_nil_of_le, hrounds]

theorem Steady.complaint?_eq (h : Steady batch slots strategy policy c) : c.complaint? = none := by
  refine List.findSome?_eq_none_iff.2 fun t ht => ?_
  obtain ⟨i, hi⟩ := List.getElem?_of_mem ht
  exact (h.courses i t (by simpa using hi)).content

theorem Steady.of_isDone (h : Steady batch slots strategy policy c) (hdone : c.isDone = true) :
    (∀ t ∈ c.threads.toList, t.call? = none) ∧
      ∀ ofCommand ofCall, c.total (Thread.due ofCommand ofCall) = 0 := by
  have heach : ∀ t ∈ c.threads.toList,
      t.call? = none ∧ ∀ ofCommand ofCall, t.due ofCommand ofCall = 0 := by
    intro t ht
    obtain ⟨i, hi⟩ := List.getElem?_of_mem ht
    refine (h.courses i t (by simpa using hi)).of_isDone ?_
    exact Array.all_eq_true_iff_forall_mem.1 hdone t (by simpa using ht)
  refine ⟨fun t ht => (heach t ht).1, fun ofCommand ofCall => ?_⟩
  rw [Crew.total, List.sum_eq_zero_iff_forall_eq_nat]
  intro n hn
  obtain ⟨t, ht, rfl⟩ := List.mem_map.1 hn
  exact (heach t ht).2 ofCommand ofCall

theorem Steady.stats_eq (h : Steady batch slots strategy policy c) (hdone : c.isDone = true) :
    ∃ p growthEvents backoffs, c.arena.pool? ⟨0⟩ = some p ∧
      p.stats = settled slots p.blocks.length strategy.blockSize growthEvents backoffs := by
  obtain ⟨hidle, hdue⟩ := h.of_isDone hdone
  obtain ⟨p, hp, rfl, -, hacquired, hreleased⟩ := h.pool
  rw [hdue, Nat.add_zero] at hacquired hreleased
  obtain ⟨held, hexact⟩ := h.isWorld.exists_exact hidle hp
  have hnone : held = 0 := by
    have := hexact.acquired_eq
    omega
  have hallocated : p.allocated = p.blocks.length * p.blockSize := hexact.allocated_eq
  have hprovisioned : p.counters.blocksProvisioned = p.blocks.length :=
    Nat.eq_of_mul_eq_mul_right p.strategy.blockSize_pos
      (hexact.provisioned_eq.symm.trans hallocated)
  have havailable : p.available = p.allocated := by
    rw [hexact.held_eq, hnone, Nat.add_zero]
  refine ⟨p, p.counters.growthEvents, p.counters.backoffs, hp, ?_⟩
  simp only [Pool.stats, settled, hacquired, hreleased, hprovisioned, havailable, hallocated]
  rfl

/-! ## Turns with room for all -/

theorem OnCourse.popMany_count {m : Memory Int} {t : Thread Int} (h : OnCourse batch m t)
    {id : PoolId} {count : Nat} (hc : t.call? = some (id, .popMany count)) : count = batch := by
  obtain ⟨work, registers, begun, left, current, complaint⟩ := t
  obtain ⟨-, -, hcourse⟩ := h
  cases hcourse with
  | between => cases hc
  | about v s₀ s d e hd he hl =>
    cases he with
    | answered hh hj => cases hc
    | one made hr hw =>
      cases hc
      cases hw
    | many made hr hw =>
      cases hc
      cases hw
      rfl
    | giving made n hr hn =>
      cases hc
      cases hn

/-- The threads are on their courses, and their pool has room for whatever they ask for. -/
structure Fed (limit batch slots : Nat) (strategy : Strategy Int) (policy : GrowthPolicy)
    (c : Crew Int) : Prop extends Steady batch slots strategy policy c where
  width : strategy.shape.width = 1
  room : strategy.Feeds limit batch policy

variable {limit : Nat}

theorem Fed.served {i : Nat} {t : Thread Int} {granted : Bool}
    (h : Fed limit batch slots strategy policy c) (ht : c.threads[i]? = some t)
    (hgranted : ∀ r, t.reservation? c.arena = some r → r.total ≤ limit → granted = true) :
    t.Served c.arena granted := by
  obtain ⟨p, hp, rfl, rfl, -⟩ := h.pool
  have hpool : ∀ id q, c.arena.pool? id = some q → q = p := by
    intro id q hq
    have hlt := (Array.getElem?_eq_some_iff.1 hq).1
    obtain rfl : id = ⟨0⟩ := by
      rw [h.size] at hlt
      obtain ⟨index⟩ := id
      simpa using hlt
    exact Option.some.inj (hq.symm.trans hp)
  obtain ⟨blocks, hblocks, haddressable⟩ := h.room.addresses
  refine ⟨⟨fun hr => ?_, fun id call q hc hq => ?_⟩, fun id call q hc hq => ?_⟩
  · obtain ⟨r, hr⟩ := Option.isSome_iff_exists.1 hr
    obtain ⟨id, q, hq, hmem⟩ := Thread.exists_of_reservation? hr
    obtain rfl := hpool id q hq
    exact hgranted r hr (h.room.reserves r hmem)
  · obtain rfl := hpool id q hq
    cases call with
    | popMany count =>
      intro _
      obtain rfl := (h.courses i t ht).popMany_count hc
      obtain ⟨blocks', hle, hblocks'⟩ :=
        GrowthPolicy.blocksFor_mono hblocks (Nat.sub_le count q.free.length)
      exact ⟨blocks', hblocks', haddressable _ hle (GrowthPolicy.blocksFor_pos hblocks')⟩
    | _ => trivial
  · obtain rfl := hpool id q hq
    cases call with
    | claimGrowth =>
      intro _
      exact haddressable 1 (GrowthPolicy.blocksFor_pos hblocks) Nat.one_pos
    | _ => trivial

theorem Fed.turn_runsTo (h : Fed limit batch slots strategy policy c) (i : Nat) :
    c.RunsTo Thread.Served (c.turn limit i) := by
  obtain ⟨granted, hturn, hgranted⟩ := Crew.exists_turn limit c i
  rw [hturn]
  exact .turn .start granted i fun t ht => h.served ht fun r hr => hgranted t r ht hr

theorem Fed.turn (h : Fed limit batch slots strategy policy c) (i : Nat) :
    Fed limit batch slots strategy policy (c.turn limit i) :=
  { h.toSteady.runsTo h.width (h.turn_runsTo i) with width := h.width, room := h.room }

theorem Fed.sweep (h : Fed limit batch slots strategy policy c) (count : Nat) :
    c.RunsTo Thread.Served (c.sweep limit count) ∧
      Fed limit batch slots strategy policy (c.sweep limit count) := by
  induction count generalizing c with
  | zero => exact ⟨.start, h⟩
  | succ count ih =>
    obtain ⟨hrun, hfed⟩ := ih (h.turn count)
    exact ⟨(h.turn_runsTo count).trans hrun, hfed⟩

theorem Fed.sweeps (h : Fed limit batch slots strategy policy c) (fuel : Nat) :
    c.RunsTo Thread.Served (c.sweeps limit fuel) := by
  induction fuel generalizing c with
  | zero => exact .start
  | succ fuel ih =>
    unfold Crew.sweeps
    split
    · exact .start
    · obtain ⟨hrun, hfed⟩ := h.sweep c.threads.size
      exact hrun.trans (ih hfed)

end Cli.Stress

end SlotPool
