import SlotPool.Proofs.Oversize

/-!
# When a call is out of memory

A call that reports to be out of memory made a reservation that can be addressed, and the allocator
refused it. Requests that cannot be addressed are told apart from these before anything is reserved.
-/

namespace SlotPool

open Memory

variable {ε : Type}

namespace World

/-! ## Among the steps of all others -/

/-- After the steps `before`, in the step `s`, the call makes the reservation `r`, which can be
addressed. The allocator refuses it, and that is the error. -/
structure Refusal (id : PoolId) (c₀ : Call) (strides : List (Stride ε)) (error : PoolError)
    (before : List (Stride ε)) (s : Stride ε) (r : Reservation) : Prop where
  among : before ++ [s] <+: strides
  asked : ∃ w w' held g, Underway id c₀ before w held (.reserve g) ∧
    s.pool.strategy.reservations[g.granted]? = some r ∧
    Underway id c₀ (before ++ [s]) w' held (Call.afterReservation s.pool.strategy g false)
  error : error = r.error
  total : r.total ≤ Word.maxBytes

theorem Refusal.concat {id : PoolId} {c₀ : Call} {strides before : List (Stride ε)}
    {error : PoolError} {s : Stride ε} {r : Reservation}
    (h : Refusal id c₀ strides error before s r) (last : Stride ε) :
    Refusal id c₀ (strides ++ [last]) error before s r :=
  { h with among := h.among.trans (List.prefix_append strides [last]) }

theorem fault?_of_isRequest {c : Call} (h : c.IsRequest) : c.fault? = none := by
  cases h <;> rfl

theorem Underway.exists_refusal {id : PoolId} {c₀ c : Call} {strides : List (Stride ε)}
    {w : World ε} {held : List Held} {p : Pool ε} (h : Underway id c₀ strides w held c)
    (hp : w.arena.pool? id = some p) (hw : p.strategy.Weighs) (hc₀ : c₀.IsRequest)
    {slots bytes : Nat} (hc : c.fault? = some (.outOfMemory slots bytes)) :
    ∃ before s r, Refusal id c₀ strides (.outOfMemory slots bytes) before s r := by
  refine h.keeps (P := fun strides q c => q.strategy.Weighs →
    c.fault? = some (.outOfMemory slots bytes) →
      ∃ before s r, Refusal id c₀ strides (.outOfMemory slots bytes) before s r)
    (fun q _ hc => by simp [fault?_of_isRequest hc₀] at hc)
    (fun strides a a' rest losses losses' held c c' q q' granted e h h' hq hstep ih hw hc' => ?_)
    (fun strides q q' c hs ih hw => ih (hs.strategy ▸ hw)) hp hw hc
  rw [Call.step_strategy id granted hstep] at hw
  obtain hsame | hrefuses := Call.step_outOfMemory hstep hw hc'
  · obtain ⟨before, s, r, hrefusal⟩ := ih hw hsame
    exact ⟨before, s, r, hrefusal.concat _⟩
  · generalize PoolError.outOfMemory slots bytes = error at hrefuses ⊢
    obtain ⟨g, r, hr⟩ := hrefuses
    refine ⟨strides, _, r, List.prefix_refl _, ⟨_, _, held, g, h, hr, h'⟩, rfl, ?_⟩
    exact ((h.growth_fits hq hw rfl).reservations r (List.mem_of_getElem? hr)).2

/-! ## By itself -/

/-- The allocator refuses a reservation for a block that can be addressed. -/
def Refused (allocator : Allocator) (strategy : Strategy ε) (error : PoolError) : Prop :=
  ∃ made, ∃ r ∈ strategy.reservations, allocator made r = false ∧ error = r.error ∧
    r.total ≤ Word.maxBytes

theorem refused_alone {a a' : Arena ε} {id : PoolId} {p p' : Pool ε} {allocator : Allocator}
    {c : Call} {slots bytes : Nat} (hp : a.pool? id = some p) (hw : p.strategy.Weighs)
    (hc : c.IsRequest) (hover : a.Completes allocator id c a' p'
      (.failed (.outOfMemory slots bytes))) :
    Refused allocator p.strategy (.outOfMemory slots bytes) := by
  obtain ⟨made, hend⟩ := hover.ended
  let P (a : Arena ε) (c : Call) : Prop := ∃ q, a.pool? id = some q ∧ q.strategy = p.strategy ∧
    c.Within p.strategy ∧ (c.fault? = some (.outOfMemory slots bytes) →
      Refused allocator p.strategy (.outOfMemory slots bytes))
  have hstart : P a c := by
    refine ⟨p, hp, rfl, Call.within_of_growth (by cases hc <;> rfl), fun hfault => ?_⟩
    simp [fault?_of_isRequest hc] at hfault
  have hstep : ∀ a c granted, false = false → c.outcome? = none →
      (∀ r, a.reservation? id c = some r → ∃ made, granted = allocator made r) → P a c →
      P (a.step id granted c).1 (a.step id granted c).2 := by
    rintro a c granted - - hanswer ⟨q, hq, hstrategy, hwithin, hrefused⟩
    obtain ⟨q', e, hrun, hq', -, hsetup⟩ := Arena.exists_pool_of_step hq granted c
    rw [← hstrategy] at hw hwithin
    refine ⟨q', hq', hsetup.strategy.trans hstrategy, hstrategy ▸ hwithin.step hrun hw,
      fun hfault => ?_⟩
    obtain hsame | hrefuses := Call.step_outOfMemory hrun hw hfault
    · exact hrefused hsame
    · generalize PoolError.outOfMemory slots bytes = error at hrefuses ⊢
      generalize (a.step id granted c).2 = next at hrefuses
      cases hrefuses with
      | refuse g r hr =>
        obtain ⟨made, hfalse⟩ := hanswer r (by rw [Arena.reservation?, hq]; exact hr)
        obtain ⟨hpos, hfits⟩ := hwithin g rfl
        have hmem := List.mem_of_getElem? hr
        rw [← hstrategy]
        exact ⟨made, r, hmem, hfalse.symm, rfl,
          ((Strategy.fits_of_not_exceeds hw hpos hfits).reservations r hmem).2⟩
  have hlast : P (a.complete allocator id ⟨c, 0⟩).1 (a.complete allocator id ⟨c, 0⟩).2.call :=
    Arena.proceed_keeps_answered hstep (a.patience id c) hstart
  rw [hend] at hlast
  obtain ⟨q, -, -, -, hrefused⟩ := hlast
  exact hrefused rfl

/-! ## All requests -/

/-- How requests come out with which nothing else happens. -/
structure ToldAlone (w : World ε) (id : PoolId) (p : Pool ε) (allocator : Allocator) : Prop where
  many : ∀ count, p.available < count → p.Exceeded (count - p.available) →
    w.arena.TurnsDown allocator id (.popMany count) (p.overflow (count - p.available))
  many_iff : ∀ count,
    (∃ a' p' blocks size, w.arena.Completes allocator id (.popMany count) a' p'
      (.failed (.capacityOverflow blocks size))) ↔
    p.available < count ∧ p.Exceeded (count - p.available)
  one : p.growing = false → p.available = 0 → p.strategy.Exceeds 1 →
    w.arena.TurnsDown allocator id .popOne (.capacityOverflow 1 p.blockSize)
  one_iff : p.growing = false →
    ((∃ a' p' blocks size, w.arena.Completes allocator id .popOne a' p'
      (.failed (.capacityOverflow blocks size))) ↔
    p.available = 0 ∧ p.strategy.Exceeds 1)
  refused : ∀ c a' p' slots bytes, c.IsRequest →
    w.arena.Completes allocator id c a' p' (.failed (.outOfMemory slots bytes)) →
    Refused allocator p.strategy (.outOfMemory slots bytes)

/-- How requests come out, whatever others do in between. -/
structure ToldAmong (ε : Type) (id : PoolId) : Prop where
  many : ∀ (strides : List (Stride ε)) w held c p count,
    Underway id (.popMany count) strides w held c → strides ≠ [] →
    w.arena.pool? id = some p → p.strategy.Weighs →
    c.ManyJudged p count (Stride.found strides).length strides
  many_iff : ∀ (strides : List (Stride ε)) w held c p count o,
    Underway id (.popMany count) strides w held c → c.outcome? = some o →
    w.arena.pool? id = some p → p.strategy.Weighs →
    ((∃ blocks size, o = .failed (.capacityOverflow blocks size)) ↔
      (Stride.found strides).length < count ∧
        p.Exceeded (count - (Stride.found strides).length))
  one : ∀ (strides : List (Stride ε)) w held c p, Underway id .popOne strides w held c →
    w.arena.pool? id = some p → p.strategy.Weighs → p.strategy.Exceeds 1 →
    p.available = 0 ∧ c.growth? = none ∧ Measure.blocks.gain strides = 0 ∧
      ∀ o, c.outcome? = some o → o = .failed (.capacityOverflow 1 p.blockSize)
  one_iff : ∀ (strides : List (Stride ε)) w held c p o, Underway id .popOne strides w held c →
    c.outcome? = some o → w.arena.pool? id = some p → p.strategy.Weighs →
    ((∃ blocks size, o = .failed (.capacityOverflow blocks size)) ↔
      p.available = 0 ∧ p.strategy.Exceeds 1)
  refused : ∀ (strides : List (Stride ε)) w held c₀ c p slots bytes, c₀.IsRequest →
    Underway id c₀ strides w held c → w.arena.pool? id = some p → p.strategy.Weighs →
    c.fault? = some (.outOfMemory slots bytes) →
    ∃ before s r, Refusal id c₀ strides (.outOfMemory slots bytes) before s r

theorem told_alone {w : World ε} (h : w.Reachable) {id : PoolId} {p : Pool ε}
    (hp : w.arena.pool? id = some p) (hw : p.strategy.Weighs) (allocator : Allocator) :
    w.ToldAlone id p allocator where
  many _ hshort hover := turnsDown_many h hp hw allocator hshort hover
  many_iff count := by
    constructor
    · rintro ⟨a', p', blocks, size, hover⟩
      exact exceeded_of_overflow h hp hw hover
    · rintro ⟨hshort, hover⟩
      obtain ⟨a', hdone⟩ := (turnsDown_many h hp hw allocator hshort hover).completes hp
      exact ⟨a', p, _, _, hdone⟩
  one hlow _ hover := turnsDown_one h hp hw allocator hlow hover
  one_iff hlow := by
    constructor
    · rintro ⟨a', p', blocks, size, hover⟩
      have hexceeds := exceeds_of_overflow h hp hw hover
      exact ⟨available_of_exceeds h hp hw hexceeds, hexceeds⟩
    · rintro ⟨-, hover⟩
      obtain ⟨a', hdone⟩ := (turnsDown_one h hp hw allocator hlow hover).completes hp
      exact ⟨a', p, _, _, hdone⟩
  refused _ _ _ _ _ hc hover := refused_alone hp hw hc hover

theorem told_among (ε : Type) (id : PoolId) : ToldAmong ε id where
  many _ _ _ _ _ _ h hbegun hp hw := h.many_judged hp hw hbegun
  many_iff strides w held c p count o h hc hp hw := by
    refine (h.many_judged hp hw fun hnil => ?_).outcome_iff hc
    obtain rfl := h.eq_of_nil hnil
    simp [Call.outcome?] at hc
  one strides w held c p h hp hw hover := by
    obtain ⟨clients, hr, -⟩ := h.exists_reachable
    obtain ⟨hunserved, hgain⟩ := (h.one_judged hp hw).exceeded hover
    exact ⟨available_of_exceeds hr hp hw hover, hunserved.growth?_eq, hgain,
      fun o hc => hunserved.outcome hc⟩
  one_iff strides w held c p o h hc hp hw := by
    obtain ⟨clients, hr, -⟩ := h.exists_reachable
    have hjudged := h.one_judged hp hw
    constructor
    · rintro ⟨blocks, size, rfl⟩
      have hover : p.strategy.Exceeds 1 := by
        by_contra hfits
        exact (hjudged.fits hfits).2 blocks size (Call.fault?_of_outcome hc)
      exact ⟨available_of_exceeds hr hp hw hover, hover⟩
    · rintro ⟨-, hover⟩
      exact ⟨_, _, (hjudged.exceeded hover).1.outcome hc⟩
  refused _ _ _ _ _ _ _ _ hc₀ h hp hw hc := h.exists_refusal hp hw hc₀ hc

/-- A request for many slots overflows just where they are not all free and the blocks that the
policy asks for take more than an object may span, and a request for one slot just where none is
free and one block does. Nothing is reserved or built then. Anything else has numbers that words
hold, and what is reserved may be spanned, so that memory only runs out where the allocator refuses
it. -/
theorem oversize_told_apart {w : World ε} (h : w.Reachable) {id : PoolId} {p : Pool ε}
    (hp : w.arena.pool? id = some p) (hw : p.strategy.Weighs) :
    (∀ allocator, w.ToldAlone id p allocator) ∧ ToldAmong ε id ∧
      (∀ k ∈ w.clients, ∀ c, k.call = some (id, c) →
        (∀ g, c.growth? = some g → p.strategy.Fits g.blocks) ∧
        ∀ r, c.reservation? p.strategy = some r → r.total ≤ Word.maxBytes) ∧
      (∀ deficit, ¬ p.Exceeded deficit →
        p.policy.blocksFor deficit p.blockSize = some (p.policy.quota deficit p.blockSize) ∧
        p.strategy.Fits (p.policy.quota deficit p.blockSize)) ∧
      (¬ p.strategy.Exceeds 1 → p.strategy.Fits 1) := by
  refine ⟨told_alone h hp hw, told_among ε id, fun k hk c hc => ?_, fun deficit hfits => ?_,
    Strategy.fits_of_not_exceeds hw Nat.one_pos⟩
  · have hgrowth : ∀ g, c.growth? = some g → p.strategy.Fits g.blocks :=
      fun g hg => fits_of_reachable h hk hc hp hw hg
    refine ⟨hgrowth, fun r hr => ?_⟩
    obtain ⟨g, hg, hmem⟩ := Call.growth?_of_reservation hr
    exact ((hgrowth g hg).reservations r hmem).2
  · obtain ⟨blocks, hfor, -⟩ := Pool.exists_addressable hfits hw
    rw [GrowthPolicy.quota_of_blocksFor hfor]
    rw [Pool.Exceeded, GrowthPolicy.quota_of_blocksFor hfor] at hfits
    exact ⟨hfor, Strategy.fits_of_not_exceeds hw (GrowthPolicy.blocksFor_pos hfor) hfits⟩

/-! ## A pool of vast blocks -/

/-- Blocks of so many objects that none can be addressed. -/
def vast : Pool Nat := .fresh (.objects ⟨7, 24, 32, 8⟩ (1 <<< 60) (by decide)) .headroom 1000

/-- Nothing has happened but that the pool was made. -/
def barren : World Nat := ⟨({} : Arena Nat).addPool vast, [], {}⟩

theorem barren_reachable : barren.Reachable := Reachable.start.step (.addPool {} [] {} _ _ _)

theorem oversize_told_apart_barren :
    vast.Made ⟨7, 24, 32, 8⟩ ∧ barren.Reachable ∧ barren.arena.pool? ⟨0⟩ = some vast ∧
      vast.strategy.Weighs ∧
      barren.arena.TurnsDown (fun _ _ => true) ⟨0⟩ .popOne (.capacityOverflow 1 (1 <<< 60)) ∧
      barren.arena.TurnsDown (fun _ _ => true) ⟨0⟩ (.popMany 1) (.capacityOverflow 1 (1 <<< 60)) ∧
      ∃ (strides before : List (Stride Nat)) (s : Stride Nat) (r : Reservation),
        Refusal ⟨0⟩ (.popMany 3) strides (.outOfMemory 2 24) before s r := by
  have hmade : vast.Made ⟨7, 24, 32, 8⟩ := .blockSize (1 <<< 60) rfl
  have hweighs : vast.strategy.Weighs := hmade.weighs ⟨by decide, by decide⟩ fun _ _ => by decide
  have hthere : barren.arena.pool? ⟨0⟩ = some vast := rfl
  obtain ⟨halone, hamong, -⟩ := oversize_told_apart barren_reachable hthere hweighs
  have hover : vast.strategy.Exceeds 1 := by
    show Word.maxBytes < 1 * (1 <<< 60) * 24
    decide
  refine ⟨hmade, barren_reachable, hthere, hweighs, (halone _).one rfl rfl hover,
    (halone _).many 1 (by decide) hover, ?_⟩
  have hpool : (halted.1.pool? ⟨0⟩).map (fun p => (p.strategy.shape, p.strategy.nodeBytes)) =
      some (.object, 24) := by decide +kernel
  obtain ⟨p, hp, hfacts⟩ := Option.map_eq_some_iff.1 hpool
  simp only [Prod.mk.injEq] at hfacts
  have hpairs : p.strategy.Weighs :=
    ⟨by omega, fun size hsize => by simp [hfacts.1] at hsize⟩
  have hfault : halted.2.call.fault? = some (.outOfMemory 2 24) := by decide +kernel
  obtain ⟨strides, losses, h⟩ := underway_halted
  exact ⟨strides, hamong.refused strides _ [] _ _ p 2 24 (.popMany 3) h hp hpairs hfault⟩

end World

end SlotPool
