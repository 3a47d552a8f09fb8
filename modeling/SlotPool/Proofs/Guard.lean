import SlotPool.Proofs.Balance

/-!
# The growth flag

A call for one slot that finds none free grows its pool by a block, if it can raise the growth flag.
The flag is raised exactly while one call guards it, and that call adds no more than a block.
-/

namespace SlotPool

open Memory

variable {ε : Type}

/-! ## Who has raised the flag -/

def Origin.isSingle : Origin → Bool
  | single => true
  | bulk .. => false

namespace Call

/-- The call has raised the growth flag and not lowered it yet. -/
def guards : Call → Bool
  | reserve g => g.origin.isSingle
  | build g => g.origin.isSingle
  | countSlots g _ => g.origin.isSingle
  | countGrowth g _ _ => g.origin.isSingle
  | countBlocks g _ _ => g.origin.isSingle
  | noteGrowth g _ _ => g.origin.isSingle
  | publish _ _ => true
  | unclaim _ => true
  | _ => false

@[simp]
theorem guards_claimGrowth : claimGrowth.guards = false := rfl

@[simp]
theorem guards_unclaim (fault : Option PoolError) : (unclaim fault).guards = true := rfl

def isBeginning : Call → Bool
  | popOne => true
  | popMany _ => true
  | cleanOne _ => true
  | cleanMany _ => true
  | observe _ _ => true
  | _ => false

theorem guards_of_isBeginning (c : Call) (h : c.isBeginning = true) : c.guards = false := by
  cases c <;> first | rfl | simp [isBeginning] at h

theorem guards_of_outcome (c : Call) (h : c.outcome?.isSome = true) : c.guards = false := by
  cases c <;> first | rfl | simp [outcome?] at h

/-- The call is in the growth for one slot: it is about to try to raise the flag, or has raised it,
or is backing off. -/
def attempts : Call → Bool
  | claimGrowth => true
  | countBackoff => true
  | noteBackoff => true
  | c => c.guards

theorem guards_afterGrowth (g : Growth) (fault : Option PoolError) :
    (afterGrowth g fault).guards = g.origin.isSingle := by
  obtain ⟨origin, blocks, granted, fresh⟩ := g
  cases origin <;> cases fault <;> rfl

theorem Continues.guards_eq {g : Growth} {c : Call} (h : Continues g c) :
    c.guards = g.origin.isSingle := by
  cases h with
  | afterGrowth fault hf hb => exact guards_afterGrowth g fault
  | _ => rfl

section

variable {id : PoolId} {granted : Bool} {m m' : Memory ε} {p p' : Pool ε} {c c' : Call}
  {e : Option Event}

/-- A step raises the flag and comes to guard it, or lowers it and guards it no more, or does
neither. -/
inductive FlagStep (p p' : Pool ε) : Call → Call → Prop where
  | raise (c' : Call) (hp : p.growing = false) (hp' : p'.growing = true)
      (hc' : c'.guards = true) : FlagStep p p' claimGrowth c'
  | lower (fault : Option PoolError) (c' : Call) (hp' : p'.growing = false)
      (hc' : c'.guards = false) : FlagStep p p' (unclaim fault) c'
  | keep (c c' : Call) (hp : p'.growing = p.growing) (hc : c'.guards = c.guards) :
      FlagStep p p' c c'

theorem step_flag (h : c.step id granted m p = (m', p', e, c')) : FlagStep p p' c c' := by
  cases c with
  | popOne =>
    simp only [step] at h
    split at h
    all_goals
      obtain ⟨-, rfl, -, rfl⟩ := h
      exact .keep _ _ rfl rfl
  | claimGrowth =>
    simp only [step] at h
    split at h
    · obtain ⟨-, rfl, -, rfl⟩ := h
      exact .keep _ _ rfl rfl
    · rename_i hflag
      simp only [Prod.mk.injEq] at h
      obtain ⟨-, rfl, -, rfl⟩ := h
      exact .raise _ (by simpa using hflag) rfl (continues_startGrowth _ _ _).guards_eq
  | popMany count =>
    by_cases hcount : count ≤ p.free.length
    · simp only [step, hcount, if_true] at h
      split at h
      all_goals
        obtain ⟨-, rfl, -, rfl⟩ := h
        exact .keep _ _ rfl rfl
    · obtain ⟨-, rfl, blocks, -, hnext⟩ := popMany_short hcount h
      exact .keep _ _ rfl hnext.guards_eq
  | reserve g =>
    obtain ⟨-, rfl, -, rfl⟩ := h
    exact .keep _ _ rfl (continues_afterReservation p.strategy g granted).guards_eq
  | build g =>
    simp only [step, Prod.mk.injEq] at h
    obtain ⟨-, rfl, -, rfl⟩ := h
    exact .keep _ _ rfl (continues_nextBlock _).guards_eq
  | noteGrowth g fault allocated =>
    obtain ⟨-, rfl, -, rfl⟩ := h
    exact .keep _ _ rfl (guards_afterGrowth g fault)
  | unclaim fault =>
    obtain ⟨-, rfl, -, rfl⟩ := h
    exact .lower fault _ rfl (by cases fault <;> rfl)
  | carve count deficit taken fresh =>
    simp only [step] at h
    split at h
    · obtain ⟨-, rfl, -, rfl⟩ := h
      exact .keep _ _ rfl (by split <;> rfl)
    · obtain ⟨-, rfl, -, rfl⟩ := h
      exact .keep _ _ rfl rfl
  | cleanOne s =>
    obtain ⟨-, rfl, hc'⟩ := cleanOne_step h
    obtain rfl | ⟨v, rfl⟩ := hc'.eq_or_broken <;> exact .keep _ _ rfl rfl
  | cleanMany st =>
    obtain ⟨rfl, hst⟩ := cleanMany_step h
    split at hst
    · rw [hst.2]
      exact .keep _ _ rfl rfl
    · obtain rfl | ⟨v, rfl⟩ := hst.2.eq_or_broken <;> exact .keep _ _ rfl rfl
  | observe left seen =>
    cases left <;> obtain ⟨-, rfl, -, rfl⟩ := h <;> exact .keep _ _ rfl rfl
  | _ =>
    obtain ⟨-, rfl, -, rfl⟩ := h
    exact .keep _ _ rfl rfl

end

end Call

namespace Client

/-- The client's call guards the flag of the pool. -/
def guards (id : PoolId) (k : Client) : Bool :=
  match k.call with
  | some (id', c) => id' = id && c.guards
  | none => false

theorem isBeginning_of_givenBy {h : Held} {c : Call} (hg : h.GivenBy c) :
    c.isBeginning = true := by
  cases hg <;> rfl

theorem step_run_or_begin {a a' : Arena ε} {k k' : Client} {new : Losses}
    (h : Step a k a' k' new) :
    (∃ held id granted c c', k = ⟨held, some (id, c)⟩ ∧ k' = ⟨held, some (id, c')⟩ ∧
      c.outcome? = none ∧ a.step id granted c = (a', c')) ∨
    a'.pools = a.pools ∧ (∀ id c, k.call = some (id, c) → c.outcome?.isSome = true) ∧
      ∀ id c, k'.call = some (id, c) → c.isBeginning = true := by
  have hbegin : ∀ (held rest : List Held) (id : PoolId) (c : Call), a' = a →
      k = ⟨held, none⟩ → k' = ⟨rest, some (id, c)⟩ → c.isBeginning = true →
      a'.pools = a.pools ∧ (∀ id c, k.call = some (id, c) → c.outcome?.isSome = true) ∧
        ∀ id c, k'.call = some (id, c) → c.isBeginning = true := by
    rintro held rest id c rfl rfl rfl hc
    refine ⟨rfl, by simp, fun id' c' he => ?_⟩
    obtain ⟨-, rfl⟩ : id = id' ∧ c = c' := by simpa using he
    exact hc
  cases h with
  | run a' held id granted c c' hc hr =>
    exact Or.inl ⟨held, id, granted, c, c', rfl, rfl, hc, hr⟩
  | ask held id p c hp hc =>
    exact Or.inr (hbegin held held id c rfl rfl rfl (by cases hc <;> rfl))
  | give held rest h kind id p c hh hp hc =>
    have hbegun := isBeginning_of_givenBy (givenBy_of_returning hc)
    exact Or.inr (hbegin held rest id c rfl rfl rfl hbegun)
  | drop held rest h id p c hh hp hd =>
    have hbegun := isBeginning_of_givenBy (givenBy_of_dropped hd).1
    exact Or.inr (hbegin held rest id c rfl rfl rfl hbegun)
  | reset held rest h id p c hh hp hd =>
    have hbegun := isBeginning_of_givenBy (givenBy_of_dropped hd).1
    exact Or.inr (hbegin held _ id c rfl rfl rfl hbegun)
  | receive held id slots leased h hh => exact Or.inr ⟨rfl, by simp [Call.outcome?], by simp⟩
  | reject held id slots leased v hh => exact Or.inr ⟨rfl, by simp [Call.outcome?], by simp⟩
  | finish held id o ho => exact Or.inr ⟨rfl, by simp [Call.outcome?], by simp⟩
  | _ => exact Or.inr ⟨rfl, by simp, by simp⟩

theorem guards_of_call {k : Client} {P : Call → Prop} (hP : ∀ c, P c → c.guards = false)
    (h : ∀ id c, k.call = some (id, c) → P c) (id : PoolId) : k.guards id = false := by
  unfold guards
  split
  · rename_i id' c hc
    rw [hP c (h id' c hc), Bool.and_false]
  · rfl

theorem step_guards {a a' : Arena ε} {k k' : Client} {new : Losses} (hk : k.Known a)
    (h : Step a k a' k' new) {id : PoolId} {p p' : Pool ε} (hp : a.pool? id = some p)
    (hp' : a'.pool? id = some p') (hflag : k.guards id = true → p.growing = true) :
    (k'.guards id).toNat + p.growing.toNat = (k.guards id).toNat + p'.growing.toNat := by
  obtain ⟨held, id', granted, c, c', rfl, rfl, hc, hr⟩ | ⟨hpools, hover, hbegun⟩ :=
    step_run_or_begin h
  · obtain ⟨q, hq⟩ := hk.call id' c rfl
    obtain ⟨q', e, hstep, hpools⟩ := Arena.step_eq hq hr
    rw [Arena.pool?_set hq hpools] at hp'
    by_cases he : id = id'
    · subst he
      obtain rfl : p = q := Option.some.inj (hp.symm.trans hq)
      obtain rfl : q' = p' := by simpa using hp'
      simp only [guards, decide_true, Bool.true_and] at hflag ⊢
      cases Call.step_flag hstep with
      | raise c' hp hp' hc' => simp [hp, hp', hc']
      | lower fault c' hp' hc' => simp [hflag rfl, hp', hc']
      | keep c c' hp hc => rw [hp, hc]
    · rw [if_neg he, hp] at hp'
      obtain rfl : p = p' := Option.some.inj hp'
      simp [guards, Ne.symm he]
  · rw [Arena.pool?, hpools, ← Arena.pool?, hp] at hp'
    obtain rfl : p = p' := Option.some.inj hp'
    rw [guards_of_call Call.guards_of_outcome hover,
      guards_of_call Call.guards_of_isBeginning hbegun]

end Client

namespace World

/-- The flag of every pool is raised by as many clients as guard it. -/
def Guarded (w : World ε) : Prop :=
  ∀ id p, w.arena.pool? id = some p → w.clients.countP (·.guards id) = p.growing.toNat

theorem Guarded.step {w w' : World ε} (hg : w.Guarded) (hw : w.Whole) (hs : w.Step w') :
    w'.Guarded := by
  cases hs with
  | client a a' clients rest k k' losses new hc hk =>
    have hknown : k.Known a := hw.known k (hc.mem_iff.2 (by simp))
    intro id p' hp'
    have hlt := (Array.getElem?_eq_some_iff.1 hp').1
    rw [Client.step_pools_size hknown hk] at hlt
    obtain ⟨p, hp⟩ : ∃ p, a.pool? id = some p := ⟨_, Array.getElem?_eq_getElem hlt⟩
    have hcount : clients.countP (·.guards id) = p.growing.toNat := hg id p hp
    have hcons : ∀ k₁ : Client, (k₁ :: rest).countP (·.guards id) =
        rest.countP (·.guards id) + (k₁.guards id).toNat := by
      intro k₁
      rw [List.countP_cons]
      cases k₁.guards id <;> rfl
    rw [hc.countP_eq, hcons] at hcount
    have hstep := Client.step_guards hknown hk hp hp' (by
      intro hguards
      rw [hguards] at hcount
      cases hgrowing : p.growing with
      | true => rfl
      | false => simp [hgrowing] at hcount)
    show (k' :: rest).countP _ = _
    rw [hcons]
    omega
  | addPool a clients losses strategy policy backoffMicros =>
    intro id p hp
    obtain hq | rfl := Arena.of_pool?_addPool hp
    · exact hg id p hq
    · cases hq : a.pool? id with
      | some q =>
        obtain rfl := Option.some.inj ((Arena.pool?_addPool hq _).symm.trans hp)
        exact hg id _ hq
      | none =>
        -- No call is made to a pool that is not there yet.
        apply List.countP_eq_zero.2
        intro k hk hguards
        obtain ⟨held, call⟩ := k
        cases call with
        | none => simp [Client.guards] at hguards
        | some call =>
          obtain ⟨id', c⟩ := call
          obtain ⟨rfl, -⟩ : id' = id ∧ c.guards = true := by
            simpa [Client.guards] using hguards
          obtain ⟨q, hq'⟩ : a.HasPool id' := (hw.known _ hk).call id' c rfl
          simp [hq] at hq'
  | join a clients losses =>
    intro id p hp
    rw [← hg id p hp]
    rfl
  | handOver a clients rest giver taker kept h losses hc hh =>
    intro id p hp
    rw [← hg id p hp]
    show _ = clients.countP _
    rw [hc.countP_eq]
    rfl

theorem guarded_of_reachable {w : World ε} (h : w.Reachable) : w.Guarded := by
  induction h with
  | start => intro id p hp; simp [Arena.pool?] at hp
  | step hr hs ih => exact ih.step (whole_of_reachable hr) hs

end World

/-! ## What a growth for one slot adds -/

/-- What can be counted of a pool and of the memory that it is in. -/
inductive Measure where
  | slots
  | blocks
  | allocated
  | growthEvents
  | blocksProvisioned
  | available
  | acquisitions
  | releases
  | backoffs

namespace Measure

def read (m : Memory ε) (p : Pool ε) : Measure → Nat
  | slots => m.size
  | blocks => p.blocks.length
  | allocated => p.allocated
  | growthEvents => p.counters.growthEvents
  | blocksProvisioned => p.counters.blocksProvisioned
  | available => p.available
  | acquisitions => p.counters.acquisitions
  | releases => p.counters.releases
  | backoffs => p.counters.backoffs

/-- What one block adds when it is made, counted and free. -/
def ofBlock (blockSize : Nat) : Measure → Nat
  | slots => blockSize
  | blocks => 1
  | allocated => blockSize
  | growthEvents => 1
  | blocksProvisioned => 1
  | available => blockSize
  | _ => 0

/-- The stage of a growth from which on the new block is counted. -/
def stage : Measure → Nat
  | slots => 1
  | blocks => 1
  | allocated => 2
  | growthEvents => 3
  | blocksProvisioned => 4
  | available => 5
  | _ => 0

end Measure

namespace Call

def stage : Call → Nat
  | countSlots _ _ => 1
  | countGrowth _ _ _ => 2
  | countBlocks _ _ _ => 3
  | noteGrowth _ _ _ => 4
  | publish _ none => 4
  | unclaim none => 5
  | _ => 0

/-- What the call has added since it raised the flag. -/
def added (blockSize : Nat) (c : Call) (μ : Measure) : Nat :=
  if μ.stage ≤ c.stage then μ.ofBlock blockSize else 0

theorem added_of_stage {c : Call} (h : c.stage = 0) (blockSize : Nat) (μ : Measure) :
    c.added blockSize μ = 0 := by
  rw [added, h]
  cases μ <;> simp [Measure.stage, Measure.ofBlock]

/-- The call grows its pool for one slot: by one block, which is still to be made, or is made. -/
def Lone (blockSize : Nat) : Call → Prop
  | reserve g => g.origin = .single ∧ g.blocks = 1 ∧ g.fresh = {}
  | build g => g.origin = .single ∧ g.blocks = 1 ∧ g.fresh = {}
  | countSlots g fault => g.origin = .single ∧ fault = none ∧ g.fresh.length = blockSize
  | countGrowth g fault _ => g.origin = .single ∧ fault = none ∧ g.fresh.length = blockSize
  | countBlocks g fault _ => g.origin = .single ∧ fault = none ∧ g.fresh.length = blockSize
  | noteGrowth g fault _ => g.origin = .single ∧ fault = none ∧ g.fresh.length = blockSize
  | publish fresh fault => fresh.length = if fault = none then blockSize else 0
  | unclaim _ => True
  | _ => False

theorem Lone.guards {blockSize : Nat} {c : Call} (h : c.Lone blockSize) : c.guards = true := by
  cases c <;> simp_all [Lone, Call.guards, Origin.isSingle]

theorem afterBlocks_lone (blockSize : Nat) {g : Growth} (ho : g.origin = .single)
    (hf : g.fresh = {}) (error : PoolError) :
    (afterBlocks g (some error)).Lone blockSize ∧ (afterBlocks g (some error)).stage = 0 := by
  obtain ⟨origin, blocks, granted, fresh⟩ := g
  obtain rfl : origin = .single := ho
  obtain rfl : fresh = {} := hf
  exact ⟨rfl, rfl⟩

theorem startGrowth_lone (strategy : Strategy ε) (blockSize : Nat) :
    (startGrowth strategy .single 1).Lone blockSize ∧
      (startGrowth strategy .single 1).stage = 0 := by
  unfold startGrowth
  split
  · exact ⟨⟨rfl, rfl, rfl⟩, rfl⟩
  · exact afterBlocks_lone blockSize rfl rfl _

theorem afterReservation_lone (strategy : Strategy ε) (blockSize : Nat) (granted : Bool)
    {g : Growth} (ho : g.origin = .single) (hb : g.blocks = 1) (hf : g.fresh = {}) :
    (afterReservation strategy g granted).Lone blockSize ∧
      (afterReservation strategy g granted).stage = 0 := by
  unfold afterReservation
  split
  · exact ⟨⟨ho, hb, hf⟩, rfl⟩
  · split
    · dsimp only
      split
      all_goals exact ⟨⟨ho, hb, hf⟩, rfl⟩
    · exact afterBlocks_lone blockSize ho hf _

section

variable {id : PoolId} {granted : Bool} {m m' : Memory ε} {p p' : Pool ε} {c c' : Call}
  {e : Option Event} {frame : List Piece}

theorem step_size (h : c.step id granted m p = (m', p', e, c')) :
    m'.size = m.size + c.made p.blockSize := by
  have hlength := congrArg List.length (step_slots h)
  simpa [Memory.slots, sideBySide] using hlength

theorem built_lone (id : PoolId) {g : Growth}
    (hp : Partition m ((.chain p.free :: g.pieces) ++ frame))
    (ho : g.origin = .single) (hb : g.blocks = 1) (hf : g.fresh = {}) :
    ∃ g', nextBlock (buildBlock id p.strategy m g).2 = countSlots g' none ∧
      g'.origin = .single ∧ g'.fresh.length = p.blockSize := by
  have hlength := length_buildBlock id p.strategy m g
  rw [hf, Nat.zero_add] at hlength
  have hblocks : (buildBlock id p.strategy m g).2.blocks = 0 := by simp [buildBlock, hb]
  have hempty : ¬ (buildBlock id p.strategy m g).2.fresh.isEmpty = true := by
    intro he
    have hpos := p.strategy.blockSize_pos
    have hzero : (buildBlock id p.strategy m g).2.fresh.length = 0 := buildBlock_isEmpty hp he
    omega
  refine ⟨(buildBlock id p.strategy m g).2, ?_, ho, hlength⟩
  rw [nextBlock, if_pos hblocks, afterBlocks, if_neg hempty]

/-- One step of a call that grows its pool for one slot: it goes on, and adds what it has come to
count, or it lowers the flag and is out of the growth. -/
theorem Lone.step (h : c.step id granted m p = (m', p', e, c'))
    (hp : Partition m ((.chain p.free :: c.pieces) ++ frame)) (hc : c.Lone p.blockSize) :
    (c'.Lone p.blockSize ∧ ∀ μ : Measure, μ.read m' p' + c.added p.blockSize μ =
      μ.read m p + c'.added p.blockSize μ) ∨
    ∃ fault, c = unclaim fault ∧ m' = m ∧ p' = { p with growing := false } ∧
      c' = match fault with
        | none => popOne
        | some error => finished (.failed error) := by
  have hsize := step_size h
  cases c with
  | reserve g =>
    obtain ⟨ho, hb, hf⟩ := hc
    obtain ⟨rfl, rfl, -, rfl⟩ := h
    obtain ⟨hlone, hstage⟩ := afterReservation_lone p.strategy p.blockSize granted ho hb hf
    refine Or.inl ⟨hlone, fun μ => ?_⟩
    rw [added_of_stage hstage, added_of_stage rfl]
  | build g =>
    obtain ⟨ho, hb, hf⟩ := hc
    obtain ⟨g', hnext, ho', hlength⟩ := built_lone id hp ho hb hf
    simp only [Call.step, Prod.mk.injEq] at h
    obtain ⟨rfl, rfl, -, rfl⟩ := h
    rw [hnext]
    refine Or.inl ⟨⟨ho', rfl, hlength⟩, fun μ => ?_⟩
    rw [added_of_stage rfl]
    cases μ with
    | slots => exact hsize
    | blocks => exact BlockList.length_push _ _
    | _ => rfl
  | countSlots g fault =>
    obtain ⟨ho, rfl, hlength⟩ := hc
    obtain ⟨rfl, rfl, -, rfl⟩ := h
    refine Or.inl ⟨⟨ho, rfl, hlength⟩, fun μ => ?_⟩
    cases μ with
    | allocated => exact congrArg (p.allocated + ·) hlength
    | _ => rfl
  | countGrowth g fault allocated =>
    obtain ⟨ho, rfl, hlength⟩ := hc
    obtain ⟨rfl, rfl, -, rfl⟩ := h
    refine Or.inl ⟨⟨ho, rfl, hlength⟩, fun μ => ?_⟩
    cases μ <;> rfl
  | countBlocks g fault allocated =>
    obtain ⟨ho, rfl, hlength⟩ := hc
    obtain ⟨rfl, rfl, -, rfl⟩ := h
    refine Or.inl ⟨⟨ho, rfl, hlength⟩, fun μ => ?_⟩
    have hone : g.fresh.length / p.blockSize = 1 := by
      rw [hlength]
      exact Nat.div_self p.strategy.blockSize_pos
    cases μ with
    | blocksProvisioned => exact congrArg (p.counters.blocksProvisioned + ·) hone
    | _ => rfl
  | noteGrowth g fault allocated =>
    obtain ⟨ho, rfl, hlength⟩ := hc
    obtain ⟨rfl, rfl, -, rfl⟩ := h
    simp only [afterGrowth, ho]
    exact Or.inl ⟨hlength, fun μ => rfl⟩
  | publish fresh fault =>
    obtain ⟨rfl, rfl, -, rfl⟩ := h
    have hfresh : fresh.Spans m (fresh.slots m) := hp.sound (.chain fresh) (by simp [pieces])
    have hfree := hfresh.length_append p.free
    refine Or.inl ⟨trivial, fun μ => ?_⟩
    cases fault with
    | none =>
      have hlength : fresh.length = p.blockSize := hc
      cases μ with
      | slots => exact congrArg (· + p.blockSize) hsize
      | available => exact hfree.trans (congrArg (p.free.length + ·) hlength)
      | _ => rfl
    | some error =>
      have hlength : fresh.length = 0 := hc
      rw [added_of_stage rfl, added_of_stage rfl]
      cases μ with
      | slots => exact hsize
      | available => exact hfree.trans (congrArg (p.free.length + ·) hlength)
      | _ => rfl
  | unclaim fault =>
    obtain ⟨rfl, rfl, -, rfl⟩ := h
    exact Or.inr ⟨fault, rfl, rfl, rfl, rfl⟩
  | _ => exact hc.elim

end

end Call

/-! ## All growths for one slot -/

namespace Client

/-- If the client's call guards a flag, it adds no more than a block. -/
def Lone (a : Arena ε) (k : Client) : Prop :=
  ∀ id c p, k.call = some (id, c) → a.pool? id = some p → c.guards = true → c.Lone p.blockSize

theorem Lone.samePools {a a' : Arena ε} {k : Client} (hl : k.Lone a) (hk : k.Known a)
    (h : a.SamePools a') : k.Lone a' := by
  intro id c p' hc hp' hguards
  obtain ⟨p, hp⟩ := hk.call id c hc
  obtain ⟨p'', hp'', hstrategy⟩ := h id p hp
  obtain rfl : p'' = p' := Option.some.inj (hp''.symm.trans hp')
  rw [Pool.blockSize, hstrategy]
  exact hl id c p hc hp hguards

theorem step_lone {a a' : Arena ε} {k k' : Client} {new : Losses} {frame : List Piece}
    (hl : k.Lone a) (hk : k.Known a)
    (hpart : Partition a.memory ((a.free ++ k.pieces) ++ frame)) (h : Step a k a' k' new) :
    k'.Lone a' := by
  intro id c₁ p' hc₁ hp' hguards
  obtain ⟨held, id', granted, c, c', rfl, rfl, hc, hr⟩ | ⟨-, -, hbegun⟩ := step_run_or_begin h
  · obtain ⟨rfl, rfl⟩ : id' = id ∧ c' = c₁ := by simpa using hc₁
    obtain ⟨p, hp⟩ := hk.call id' c rfl
    obtain ⟨q, e, hstep, hpools⟩ := Arena.step_eq hp hr
    obtain rfl : q = p' := by simpa [Arena.pool?_set hp hpools] using hp'
    obtain ⟨others, hfree, -⟩ := Arena.free_perm hp
    have hlocal := Arena.local_partition hfree (call_partition hpart)
    rw [Pool.blockSize, Call.step_strategy id' granted hstep]
    cases Call.step_flag hstep with
    | raise c' hlow hhigh hc' =>
      simp only [Call.step, hlow, Bool.false_eq_true, if_false, Prod.mk.injEq] at hstep
      obtain ⟨-, -, -, rfl⟩ := hstep
      exact (Call.startGrowth_lone p.strategy p.blockSize).1
    | lower fault c' hlow hc' => simp [hc'] at hguards
    | keep c c' hflag hsame =>
      obtain ⟨hlone, -⟩ | ⟨fault, -, -, -, rfl⟩ :=
        (hl id' c p rfl hp (hsame.symm.trans hguards)).step hstep hlocal
      · exact hlone
      · cases fault <;> simp [Call.guards] at hguards
  · simp [Call.guards_of_isBeginning c₁ (hbegun id c₁ hc₁)] at hguards

end Client

namespace World

theorem lone_of_reachable {w : World ε} (h : w.Reachable) : ∀ k ∈ w.clients, k.Lone w.arena := by
  induction h with
  | start => simp
  | step hr hs ih =>
    have hw := whole_of_reachable hr
    cases hs with
    | client a a' clients rest k k' losses new hc hk =>
      have hknown : ∀ k₁ ∈ k :: rest, k₁.Known a := fun k₁ hm => hw.known k₁ (hc.mem_iff.2 hm)
      obtain ⟨hlone, hrest⟩ := forall_of_perm hc ih
      have hpart : Partition a.memory _ := hw.partition.of_perm (pieces_perm hc)
      refine List.forall_mem_cons.2 ⟨Client.step_lone hlone (hknown k (by simp)) hpart hk,
        fun k₁ hm => ?_⟩
      exact (hrest k₁ hm).samePools (hknown k₁ (by simp [hm]))
        (Client.step_samePools (hknown k (by simp)) hk)
    | addPool a clients losses strategy policy backoffMicros =>
      exact fun k hm => (ih k hm).samePools (hw.known k hm)
        fun id p hp => ⟨p, Arena.pool?_addPool hp _, rfl⟩
    | join a clients losses => exact List.forall_mem_cons.2 ⟨by simp [Client.Lone], ih⟩
    | handOver a clients rest giver taker kept h losses hc hh =>
      obtain ⟨hgiver, hmore⟩ := forall_of_perm hc ih
      obtain ⟨htaker, hrest⟩ := List.forall_mem_cons.1 hmore
      exact List.forall_mem_cons.2 ⟨hgiver, List.forall_mem_cons.2 ⟨htaker, hrest⟩⟩

end World

end SlotPool
