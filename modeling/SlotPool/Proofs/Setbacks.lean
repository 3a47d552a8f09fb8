import SlotPool.Proofs.Deliveries

/-!
# What a call for many slots leaves when it fails

A call for many slots that fails has taken nothing: the slots that it found and the blocks that it
built are free in the end, in front of whatever others have put there, and it has counted just those
blocks. By itself it leaves at most as many free slots as it was to bring.
-/

namespace SlotPool

open Memory

variable {ε : Type}

/-! ## How far a growth comes that is denied -/

theorem Pool.Denied.le {p : Pool ε} {allocator : Allocator} {deficit done : Nat}
    {error : PoolError} (h : p.Denied allocator deficit done error) (hd : 0 < deficit) :
    done * p.blockSize ≤ deficit ∧
      (done * p.blockSize = deficit ↔ p.policy = .headroom ∧ p.blockSize ∣ deficit ∧
        p.policy.blocksFor deficit p.blockSize = some (done + 1)) := by
  have hpos : 0 < p.blockSize := p.strategy.blockSize_pos
  -- With no block built the deficit is still there, and one block is no spare one.
  have hnone : ¬ (p.policy = .headroom ∧ p.blockSize ∣ deficit ∧
      p.policy.blocksFor deficit p.blockSize = some (0 + 1)) := by
    rintro ⟨hpolicy, hdvd, hfor⟩
    rw [hpolicy] at hfor
    have hone := (Word.add?_eq_some.1 hfor).2
    have hle := Nat.le_of_dvd hd hdvd
    have hquotient := Nat.div_pos hle hpos
    omega
  have hstart : 0 * p.blockSize ≤ deficit ∧ (0 * p.blockSize = deficit ↔
      p.policy = .headroom ∧ p.blockSize ∣ deficit ∧
        p.policy.blocksFor deficit p.blockSize = some (0 + 1)) := by
    rw [Nat.zero_mul]
    exact ⟨Nat.zero_le _, fun he => absurd he (Nat.ne_of_lt hd), fun hall => absurd hall hnone⟩
  cases h with
  | uncountable hfor => exact hstart
  | unaddressable hfor ha => exact hstart
  | @refused blocks done i r hfor ha hlt hg hi hr hrefused =>
    have hleast := (GrowthPolicy.isLeast_blocksFor hpos hd hfor).2
    have hshort : done * p.blockSize ∉ p.policy.enough p.blockSize deficit := by
      intro hmem
      have hle := Nat.le_of_mul_le_mul_right (hleast hmem) hpos
      omega
    cases hpolicy : p.policy with
    | headroom =>
      rw [hpolicy] at hfor hshort
      obtain ⟨-, hblocks⟩ := Word.add?_eq_some.1 hfor
      have hle : done * p.blockSize ≤ deficit := by
        by_contra hmore
        exact hshort ⟨Nat.dvd_mul_left _ _, fun _ => Nat.lt_of_not_le hmore⟩
      refine ⟨hle, fun he => ⟨rfl, ⟨done, by rw [← he, Nat.mul_comm]⟩, ?_⟩, ?_⟩
      · have hquotient : deficit / p.blockSize = done := by
          rw [← he, Nat.mul_div_cancel _ hpos]
        rw [hfor, ← hblocks, hquotient]
      · rintro ⟨-, hdvd, hfor'⟩
        rw [hfor] at hfor'
        have hdone : deficit / p.blockSize = done := by
          have := Option.some.inj hfor'
          omega
        rw [← hdone, Nat.div_mul_cancel hdvd]
    | exactFit =>
      rw [hpolicy] at hshort
      have hlt : done * p.blockSize < deficit := by
        by_contra hmore
        exact hshort ⟨Nat.dvd_mul_left _ _, Nat.le_of_not_lt hmore⟩
      exact ⟨Nat.le_of_lt hlt, fun he => absurd he (Nat.ne_of_lt hlt),
        fun hall => absurd hall.1 (by simp)⟩

/-! ## What a call leaves by itself -/

/-- The call has failed when so many blocks were built. They and all slots that the call found are
free, and nothing is changed but for these blocks. -/
structure Reverted (m : Memory ε) (p : Pool ε) (blocks : Nat) (m' : Memory ε) (p' : Pool ε) :
    Prop where
  free : p'.free.slots m' = newSlots m.size p.blockSize blocks ++ p.free.slots m
  made : p'.blocks.length = p.blocks.length + blocks
  pool : p' = { p with
    free := p'.free
    blocks := p'.blocks
    allocated := p.allocated + blocks * p.blockSize
    counters := { p.counters with
      growthEvents := p.counters.growthEvents + if 0 < blocks then 1 else 0
      blocksProvisioned := p.counters.blocksProvisioned + blocks } }
  memory : Adds m m' p.blockSize blocks
  available : p'.available = blocks * p.blockSize + p.available
  same : blocks = 0 → m' = m ∧ p' = p

section

variable {a : Arena ε} {id : PoolId} {p : Pool ε} {count blocks : Nat} {error : PoolError}

theorem exists_reverted (hp : a.pool? id = some p)
    (hs : p.free.Spans a.memory (p.free.slots a.memory)) {allocator : Allocator}
    (hshort : p.available < count)
    (hdenied : p.Denied allocator (count - p.available) blocks error) :
    ∃ a' p', a.Completes allocator id (.popMany count) a' p' (.failed error) ∧
      Reverted a.memory p blocks a'.memory p' := by
  let Q (m' : Memory ε) (p' : Pool ε) (o : Outcome) : Prop :=
    o = .failed error ∧ Reverted a.memory p blocks m' p'
  have hends : Call.Ends allocator id Q (3 * blocks + 9) a.memory p (.popMany count) 0 := by
    refine Call.popMany_ends_denied hshort hs hdenied fun m' free hadds hfree => ⟨rfl, ?_⟩
    have hevents : min blocks 1 = if 0 < blocks then 1 else 0 := by
      split <;> omega
    constructor
    · exact hfree.slots_eq
    · exact BlockList.length_pushRange _ _ _
    · simp only [Call.tallied, Call.emptied, hevents]
      rfl
    · exact hadds
    · show free.length = _
      rw [hfree.length, List.length_append, length_newSlots, ← hs.length]
      rfl
    · rintro rfl
      obtain rfl := hadds.eq_of_none
      rw [newSlots, Nat.zero_mul] at hfree
      obtain rfl : free = p.free := hs.eq hfree
      refine ⟨rfl, ?_⟩
      rw [Call.tallied_none]
      rfl
  have hle : blocks ≤ count / p.blockSize := by
    have hpos : 0 < p.blockSize := p.strategy.blockSize_pos
    have hbound := (hdenied.le (Nat.sub_pos_of_lt hshort)).1
    rw [Nat.le_div_iff_mul_le hpos]
    omega
  obtain ⟨a', p', o, hdone, rfl, hreverted⟩ := hends.completes hp (by
    rw [Arena.patience_popMany hp]
    omega)
  exact ⟨a', p', hdone, hreverted⟩

end

namespace World

theorem denied_of_failed {w : World ε} (h : w.Reachable) {id : PoolId} {p p' : Pool ε}
    (hp : w.arena.pool? id = some p) {allocator : Allocator} {count : Nat} {a' : Arena ε}
    {error : PoolError}
    (hover : w.arena.Completes allocator id (.popMany count) a' p' (.failed error)) :
    p.available < count ∧ ∃ blocks, p.Denied allocator (count - p.available) blocks error ∧
      Reverted w.memory p blocks a'.memory p' := by
  have hs := free_spans h hp
  have hshort : p.available < count := by
    by_contra henough
    obtain ⟨a₁, p₁, st, hdone, -⟩ := exists_drawn hp hs allocator (Nat.le_of_not_lt henough)
    have ho := (hover.unique hdone).2.2
    simp at ho
  obtain ⟨blocks, hsupplied⟩ | ⟨blocks, error', hdenied⟩ :=
    p.supplied_or_denied allocator (count - p.available)
  · obtain ⟨a₁, p₁, st, hdone, -⟩ := exists_grownBy hp hs hshort hsupplied
    have ho := (hover.unique hdone).2.2
    simp at ho
  · obtain ⟨a₁, p₁, hdone, hreverted⟩ := exists_reverted hp hs hshort hdenied
    obtain ⟨rfl, rfl, ho⟩ := hover.unique hdone
    obtain rfl := Outcome.failed.inj ho
    exact ⟨hshort, blocks, hdenied, hreverted⟩

/-- What the steps of a call that fails have done, among the steps of all others. The first of them
finds too few slots. The last puts them back in front of what is free by then, and in front of them
the slots of so many new blocks; no more than these blocks is counted. -/
structure Undone (count blockSize blocks : Nat) (strides : List (Stride ε))
    (first last : Stride ε) : Prop where
  begins : strides.head? = some first
  ends : strides.getLast? = some last
  short : (first.pool.free.slots first.memory).length < count
  fresh : (Stride.newest strides).length = blocks * blockSize
  free : last.pool'.free.slots last.memory' = Stride.newest strides ++
    first.pool.free.slots first.memory ++ last.pool.free.slots last.memory
  allocated : Measure.allocated.gain strides = blocks * blockSize
  made : Measure.blocks.gain strides = blocks
  blocksProvisioned : Measure.blocksProvisioned.gain strides = blocks
  growthEvents : Measure.growthEvents.gain strides = if 0 < blocks then 1 else 0
  acquisitions : Measure.acquisitions.gain strides = 0
  releases : Measure.releases.gain strides = 0

theorem Underway.undone {id : PoolId} {count : Nat} {strides : List (Stride ε)} {w : World ε}
    {held : List Held} {error : PoolError} {p : Pool ε}
    (h : Underway id (.popMany count) strides w held (.finished (.failed error)))
    (hp : w.arena.pool? id = some p) :
    ∃ blocks first last, Undone count p.blockSize blocks strides first last := by
  obtain ⟨hshort, ⟨last, hlast, hfree⟩, blocks, hbooked⟩ :
    Restored count p.blockSize strides := h.bulk hp
  cases strides with
  | nil => simp at hlast
  | cons first rest =>
    refine ⟨blocks, first, last, ?_⟩
    constructor
    · rfl
    · exact hlast
    · exact hshort
    · exact hbooked.length
    · exact hfree
    · rw [hbooked.gain _ (by simp)]
      rfl
    · exact hbooked.gain _ (by simp)
    · exact hbooked.gain _ (by simp)
    · rw [hbooked.gain _ (by simp)]
      simp only [Measure.booked]
      split <;> omega
    · exact hbooked.gain _ (by simp)
    · exact hbooked.gain _ (by simp)

/-- A call for many slots that fails loses nothing and takes nothing, whatever others do while it is
under way. By itself it fails just where it is denied what it needs. Without a new block it leaves
everything as it was, and in any case no more free slots than it was to bring; as many only under
headroom, if just the block was lacking that was to be left over. -/
theorem failed_acquire_reverts {w : World ε} (h : w.Reachable) {id : PoolId} {p : Pool ε}
    (hp : w.arena.pool? id = some p) (allocator : Allocator) (count : Nat) :
    (∀ strides w' held error,
      Underway id (.popMany count) strides w' held (.finished (.failed error)) →
        ∃ q : Pool ε, w'.arena.pool? id = some q ∧
          ∃ blocks first last, Undone count q.blockSize blocks strides first last) ∧
    (∀ blocks error, p.available < count →
      p.Denied allocator (count - p.available) blocks error →
        ∃ a' p', w.arena.Completes allocator id (.popMany count) a' p' (.failed error)) ∧
    (∀ a' p' error, w.arena.Completes allocator id (.popMany count) a' p' (.failed error) →
      p.available < count ∧ ∃ blocks, p.Denied allocator (count - p.available) blocks error ∧
        Reverted w.memory p blocks a'.memory p' ∧
        (blocks = 0 → a'.memory = w.memory ∧ a'.pools = w.arena.pools) ∧
        p'.available ≤ count ∧
        (p'.available = count ↔ p.policy = .headroom ∧
          p.blockSize ∣ count - p.available ∧
          p.policy.blocksFor (count - p.available) p.blockSize = some (blocks + 1))) := by
  refine ⟨fun strides w' held error hw => ?_, fun blocks error hshort hdenied => ?_,
    fun a' p' error hover => ?_⟩
  · obtain ⟨q, hq⟩ := hw.has.exists_pool
    exact ⟨q, hq, hw.undone hq⟩
  · obtain ⟨a', p', hdone, -⟩ := exists_reverted hp (free_spans h hp) hshort hdenied
    exact ⟨a', p', hdone⟩
  · obtain ⟨hshort, blocks, hdenied, hreverted⟩ := denied_of_failed h hp hover
    obtain ⟨hle, heq⟩ := hdenied.le (Nat.sub_pos_of_lt hshort)
    have havailable := hreverted.available
    refine ⟨hshort, blocks, hdenied, hreverted, fun hnone => ⟨(hreverted.same hnone).1, ?_⟩, ?_, ?_⟩
    · apply Array.ext_getElem?
      intro i
      by_cases hi : (⟨i⟩ : PoolId) = id
      · have hsame := (hreverted.same hnone).2
        subst hi
        exact hover.pool.trans (hsame ▸ hp.symm)
      · exact hover.others ⟨i⟩ hi
    · omega
    · rw [← heq]
      omega

/-! ## Failing calls to a pool of pairs -/

/-- The second block for three slots is refused. -/
def halted : Arena Nat × Arena.Progress :=
  taken.1.proceed (fun made _ => made < 1) ⟨0⟩ (fun c => c matches .noteFailure ..) 20
    ⟨.popMany 3, 0⟩

theorem underway_halted : ∃ (strides : List (Stride Nat)) (losses : Losses),
    Underway ⟨0⟩ (.popMany 3) strides ⟨halted.1, [⟨[.slot ⟨1⟩], none⟩], losses⟩ []
      halted.2.call := by
  obtain ⟨more, losses, h⟩ := underway_asking.proceed (fun made _ => made < 1)
    (fun c => c matches .noteFailure ..) 20 0
  exact ⟨_, _, h⟩

theorem failed_acquire_reverts_resting :
    ∃ p, resting.Reachable ∧ resting.arena.pool? ⟨0⟩ = some p ∧
      (∃ a' p' error, resting.arena.Completes (fun made _ => made < 1) ⟨0⟩ (.popMany 3) a' p'
        (.failed error) ∧ p'.available ≤ 3) ∧
      ∃ strides w' error,
        Underway ⟨0⟩ (.popMany 3) strides w' [] (.finished (.failed error)) ∧
          ∃ q : Pool Nat, w'.arena.pool? ⟨0⟩ = some q ∧
            ∃ blocks first last, Undone 3 q.blockSize blocks strides first last := by
  have hpool : (resting.arena.pool? ⟨0⟩).map (fun p => (p.available,
      p.policy.blocksFor 2 p.blockSize, p.strategy.addressable 2,
      p.strategy.reservations)) = some (1, some 2, true, [⟨2, 24⟩]) := by
    decide +kernel
  obtain ⟨p, hp, hfacts⟩ := Option.map_eq_some_iff.1 hpool
  simp only [Prod.mk.injEq] at hfacts
  obtain ⟨havailable, hwanted, haddressable, hreservations⟩ := hfacts
  have hdenied : p.Denied (fun made _ => made < 1) (3 - p.available) 1 (.outOfMemory 2 24) := by
    rw [havailable]
    refine .refused (i := 0) (r := ⟨2, 24⟩) hwanted haddressable (by omega) ?_ (by omega) ?_ ?_
    · intro block hblock i r hr
      rw [hreservations] at hr ⊢
      obtain ⟨hi, -⟩ := List.getElem?_eq_some_iff.1 hr
      simp only [List.length_singleton] at hi ⊢
      exact decide_eq_true (by omega)
    · rw [hreservations]
      rfl
    · rw [hreservations]
      rfl
  have hover : (finishing (fun _ _ => true) halted.1 halted.2.call).2.call =
      .finished (.failed (.outOfMemory 2 24)) := by decide +kernel
  obtain ⟨strides, losses, hhalted⟩ := underway_halted
  obtain ⟨strides', w, h⟩ := hhalted.finishes (fun _ _ => true)
  rw [hover] at h
  obtain ⟨hundone, hfails, hreverts⟩ :=
    failed_acquire_reverts resting_reachable hp (fun made _ => made < 1) 3
  obtain ⟨a', p', hdone⟩ := hfails 1 _ (by omega) hdenied
  obtain ⟨-, blocks, -, -, -, hle, -⟩ := hreverts a' p' _ hdone
  exact ⟨p, resting_reachable, hp, ⟨a', p', _, hdone, hle⟩, _, _, _, h, hundone _ _ _ _ h⟩

end World

end SlotPool
