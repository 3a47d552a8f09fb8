import SlotPool.Proofs.Draws
import SlotPool.Proofs.Faults

/-!
# What the journal tells of the growth of a pool

When the new slots of a call are counted, the call learns how many slots there are with them, and it
notes that some steps later. Until then the entry is pending with the call. The entries of a pool,
pending ones included, lead from no slots to all that are counted, one after the other, in the order
in which the slots were counted, which need not be the order in which they are noted.
-/

namespace SlotPool

open Memory

variable {ε : Type}

/-! ## Entries -/

/-- What is noted of the growth of a pool. -/
structure Expansion where
  path : GrowthPath
  blocks : Nat
  slots : Nat
  /-- The slots that are allocated with the new ones. -/
  allocated : Nat
deriving DecidableEq, Repr

namespace Expansion

/-- The new slots are those of whole blocks, and of one block if the pool grew for one slot. -/
structure Whole (blockSize : Nat) (x : Expansion) : Prop where
  pos : 0 < x.slots
  slots : x.slots = x.blocks * blockSize
  single : x.path = .single → x.blocks = 1

/-- The entries lead from `start` to `total`, each from where the one before has led to. -/
def Chained (start : Nat) : List Expansion → Nat → Prop
  | [], total => total = start
  | x :: rest, total => x.allocated = start + x.slots ∧ Chained x.allocated rest total

theorem Chained.concat {start total : Nat} {l : List Expansion} (h : Chained start l total)
    {x : Expansion} (hx : x.allocated = total + x.slots) :
    Chained start (l ++ [x]) x.allocated := by
  induction l generalizing start with
  | nil =>
    obtain rfl : total = start := h
    exact ⟨hx, rfl⟩
  | cons y l ih => exact ⟨h.1, ih h.2⟩

theorem Chained.sum {start total : Nat} {l : List Expansion} (h : Chained start l total) :
    total = start + (l.map (·.slots)).sum := by
  induction l generalizing start with
  | nil => exact h
  | cons x l ih =>
    have htotal := ih h.2
    rw [h.1] at htotal
    rw [List.map_cons, List.sum_cons]
    omega

theorem Chained.lt_allocated {start total : Nat} {l : List Expansion} (h : Chained start l total)
    (hpos : ∀ x ∈ l, 0 < x.slots) : ∀ x ∈ l, start < x.allocated := by
  induction l generalizing start with
  | nil => exact fun _ hx => nomatch hx
  | cons y l ih =>
    obtain ⟨hy, hrest⟩ := List.forall_mem_cons.1 hpos
    have hstart : start < y.allocated := by
      rw [h.1]
      omega
    exact List.forall_mem_cons.2 ⟨hstart, fun x hx => hstart.trans (ih h.2 hrest x hx)⟩

theorem Chained.pairwise {start total : Nat} {l : List Expansion} (h : Chained start l total)
    (hpos : ∀ x ∈ l, 0 < x.slots) : l.Pairwise fun x y => x.allocated < y.allocated := by
  induction l generalizing start with
  | nil => exact .nil
  | cons x l ih =>
    obtain ⟨-, hrest⟩ := List.forall_mem_cons.1 hpos
    exact .cons (h.2.lt_allocated hrest) (ih h.2 hrest)

end Expansion

/-- What the event tells of the growth of the pool named `id`. -/
def Event.expansion? (id : PoolId) : Event → Option Expansion
  | grown pool path _ blocks slots allocated =>
    if pool = id then some ⟨path, blocks, slots, allocated⟩ else none
  | _ => none

namespace Event

/-- What the events tell of the growth of the pool named `id`. -/
def expansions (id : PoolId) (events : List Event) : List Expansion :=
  events.filterMap (expansion? id)

theorem expansions_concat (id : PoolId) (events : List Event) (e : Option Event) :
    expansions id (events ++ e.toList) =
      expansions id events ++ (e.bind (expansion? id)).toList := by
  rw [expansions, expansions, List.filterMap_append]
  cases e with
  | none => rfl
  | some event => cases he : event.expansion? id <;> simp [he]

end Event

def Arena.expansions (a : Arena ε) (id : PoolId) : List Expansion :=
  Event.expansions id a.journal.toList

/-! ## Calls -/

namespace Call

/-- What the call has still to note. -/
def expansion? (blockSize : Nat) : Call → Option Expansion
  | countGrowth g _ allocated
  | countBlocks g _ allocated
  | noteGrowth g _ allocated =>
    some ⟨g.origin.path, g.fresh.length / blockSize, g.fresh.length, allocated⟩
  | _ => none

/-- The call has counted a growth that it has still to note. -/
def isTallied : Call → Bool
  | countBlocks .. => true
  | noteGrowth .. => true
  | _ => false

theorem isTallied_of_expansion {blockSize : Nat} {c : Call} (h : c.expansion? blockSize = none) :
    c.isTallied = false := by
  cases c with
  | countBlocks | noteGrowth => cases h
  | _ => rfl

theorem expansion?_of_isBeginning (blockSize : Nat) {c : Call} (h : c.isBeginning = true) :
    c.expansion? blockSize = none := by
  cases c with
  | countGrowth | countBlocks | noteGrowth => cases h
  | _ => rfl

theorem expansion?_of_outcome (blockSize : Nat) {c : Call} (h : c.outcome?.isSome = true) :
    c.expansion? blockSize = none := by
  cases c with
  | countGrowth | countBlocks | noteGrowth => cases h
  | _ => rfl

theorem expansion?_afterGrowth (blockSize : Nat) (g : Growth) (fault : Option PoolError) :
    (afterGrowth g fault).expansion? blockSize = none := by
  obtain ⟨origin, blocks, granted, fresh⟩ := g
  cases origin <;> cases fault <;> rfl

theorem Continues.expansion?_eq {g : Growth} {c : Call} (h : Continues g c) (blockSize : Nat) :
    c.expansion? blockSize = none := by
  cases h with
  | afterGrowth fault hf hb => exact expansion?_afterGrowth blockSize g fault
  | _ => rfl

/-- New slots are counted only if there are any. -/
def CountsSome : Call → Prop
  | countSlots g _ => g.fresh.isEmpty = false
  | _ => True

theorem countsSome_afterGrowth (g : Growth) (fault : Option PoolError) :
    (afterGrowth g fault).CountsSome := by
  obtain ⟨origin, blocks, granted, fresh⟩ := g
  cases origin <;> cases fault <;> trivial

theorem Continues.countsSome {g : Growth} {c : Call} (h : Continues g c) : c.CountsSome := by
  cases h with
  | countSlots fault hf hb => exact hf
  | afterGrowth fault hf hb => exact countsSome_afterGrowth g fault
  | _ => trivial

section

variable {id : PoolId} {granted : Bool} {m m' : Memory ε} {p p' : Pool ε} {c c' : Call}
  {e : Option Event}

/-- The next step notes something. -/
def notes : Call → Bool
  | noteBackoff => true
  | noteGrowth .. => true
  | noteFailure .. => true
  | _ => false

theorem step_silent (h : c.step id granted m p = (m', p', e, c')) (hc : c.notes = false) :
    e = none := by
  have he : (c.step id granted m p).2.2.1 = none := by
    cases c with
    | noteBackoff | noteGrowth | noteFailure => cases hc
    | _ =>
      simp only [step]
      repeat' split
      all_goals rfl
  rw [h] at he
  exact he

theorem claimGrowth_goes_on (h : claimGrowth.step id granted m p = (m', p', e, c')) :
    (∃ growing, p' = { p with growing }) ∧
      (c' = countBackoff ∨ Continues { origin := .single, blocks := 1 } c') := by
  simp only [step] at h
  split at h
  · obtain ⟨-, rfl, -, rfl⟩ := h
    exact ⟨⟨p.growing, rfl⟩, Or.inl rfl⟩
  · simp only [Prod.mk.injEq] at h
    obtain ⟨-, rfl, -, rfl⟩ := h
    exact ⟨⟨true, rfl⟩, Or.inr (continues_startGrowth _ _ _)⟩

theorem popMany_goes_on {count : Nat} (h : (popMany count).step id granted m p = (m', p', e, c')) :
    (∃ free, p' = { p with free }) ∧
      ((∃ v, c' = finished (.broken v)) ∨ (∃ st, c' = countAcquired count (.many st)) ∨
        ∃ deficit taken blocks, Continues { origin := .bulk count deficit taken, blocks } c') := by
  by_cases hcount : count ≤ p.free.length
  · simp only [step, hcount, if_true] at h
    split at h
    · obtain ⟨-, rfl, -, rfl⟩ := h
      exact ⟨⟨_, rfl⟩, Or.inr (Or.inl ⟨_, rfl⟩)⟩
    · obtain ⟨-, rfl, -, rfl⟩ := h
      exact ⟨⟨p.free, rfl⟩, Or.inl ⟨_, rfl⟩⟩
  · obtain ⟨-, rfl, blocks, -, hnext⟩ := popMany_short hcount h
    exact ⟨⟨_, rfl⟩, Or.inr (Or.inr ⟨_, _, blocks, hnext⟩)⟩

/-- What a step does to the entry that the call has still to note: it allots one when it counts new
slots, notes it, or leaves it. -/
inductive Enters (id : PoolId) (p p' : Pool ε) : Option Event → Call → Call → Prop where
  | allot (g : Growth) (fault : Option PoolError)
      (hp : p'.allocated = p.allocated + g.fresh.length)
      (hc : p'.counters.growthEvents = p.counters.growthEvents) :
      Enters id p p' none (countSlots g fault)
        (countGrowth g fault (p.allocated + g.fresh.length))
  | tally (g : Growth) (fault : Option PoolError) (allocated : Nat)
      (hp : p'.allocated = p.allocated)
      (hc : p'.counters.growthEvents = p.counters.growthEvents + 1) :
      Enters id p p' none (countGrowth g fault allocated) (countBlocks g fault allocated)
  | keep (g : Growth) (fault : Option PoolError) (allocated : Nat)
      (hp : p'.allocated = p.allocated)
      (hc : p'.counters.growthEvents = p.counters.growthEvents) :
      Enters id p p' none (countBlocks g fault allocated) (noteGrowth g fault allocated)
  | note (g : Growth) (fault : Option PoolError) (allocated : Nat) (hp : p' = p) :
      Enters id p p' (some (.grown id g.origin.path p.policy (g.fresh.length / p.blockSize)
        g.fresh.length allocated)) (noteGrowth g fault allocated) (afterGrowth g fault)
  | none {e : Option Event} {c c' : Call} (hp : p'.allocated = p.allocated)
      (hc : p'.counters.growthEvents = p.counters.growthEvents)
      (he : ∀ other, e.bind (Event.expansion? other) = none)
      (hbefore : ∀ n, c.expansion? n = none) (hafter : ∀ n, c'.expansion? n = none)
      (hsome : c'.CountsSome) : Enters id p p' e c c'

theorem step_enters (h : c.step id granted m p = (m', p', e, c')) : Enters id p p' e c c' := by
  cases c with
  | countSlots g fault =>
    obtain ⟨rfl, rfl, rfl, rfl⟩ := h
    exact .allot g fault rfl rfl
  | countGrowth g fault allocated =>
    obtain ⟨rfl, rfl, rfl, rfl⟩ := h
    exact .tally g fault allocated rfl rfl
  | countBlocks g fault allocated =>
    obtain ⟨rfl, rfl, rfl, rfl⟩ := h
    exact .keep g fault allocated rfl rfl
  | noteGrowth g fault allocated =>
    obtain ⟨rfl, rfl, rfl, rfl⟩ := h
    exact .note g fault allocated rfl
  | claimGrowth =>
    obtain rfl := step_silent h rfl
    obtain ⟨⟨growing, rfl⟩, rfl | hnext⟩ := claimGrowth_goes_on h
    · exact .none rfl rfl (fun _ => rfl) (fun _ => rfl) (fun _ => rfl) trivial
    · exact .none rfl rfl (fun _ => rfl) (fun _ => rfl) hnext.expansion?_eq hnext.countsSome
  | popMany count =>
    obtain rfl := step_silent h rfl
    obtain ⟨⟨free, rfl⟩, ⟨v, rfl⟩ | ⟨st, rfl⟩ | ⟨deficit, taken, blocks, hnext⟩⟩ :=
      popMany_goes_on h
    · exact .none rfl rfl (fun _ => rfl) (fun _ => rfl) (fun _ => rfl) trivial
    · exact .none rfl rfl (fun _ => rfl) (fun _ => rfl) (fun _ => rfl) trivial
    · exact .none rfl rfl (fun _ => rfl) (fun _ => rfl) hnext.expansion?_eq hnext.countsSome
  | reserve g =>
    obtain ⟨rfl, rfl, rfl, rfl⟩ := h
    have hnext := continues_afterReservation p.strategy g granted
    exact .none rfl rfl (fun _ => rfl) (fun _ => rfl) hnext.expansion?_eq hnext.countsSome
  | build g =>
    simp only [step, Prod.mk.injEq] at h
    obtain ⟨rfl, rfl, rfl, rfl⟩ := h
    have hnext := continues_nextBlock (buildBlock id p.strategy m g).2
    exact .none rfl rfl (fun _ => rfl) (fun _ => rfl) hnext.expansion?_eq hnext.countsSome
  | _ =>
    simp only [step] at h
    repeat' split at h
    all_goals
      simp only [Prod.mk.injEq] at h
      obtain ⟨rfl, rfl, rfl, rfl⟩ := h
      exact .none rfl rfl (fun _ => rfl) (fun _ => rfl) (fun _ => rfl) trivial

theorem Enters.countsSome (h : Enters id p p' e c c') : c'.CountsSome := by
  cases h with
  | note g fault allocated hp => exact countsSome_afterGrowth g fault
  | none hp hc he hbefore hafter hsome => exact hsome
  | _ => trivial

theorem Enters.expansion?_of_ne (h : Enters id p p' e c c') {other : PoolId} (hne : id ≠ other) :
    e.bind (Event.expansion? other) = Option.none := by
  cases h with
  | note g fault allocated hp => exact if_neg hne
  | none hp hc he hbefore hafter hsome => exact he other
  | _ => rfl

end

end Call

/-! ## Entries that are noted and entries that are pending -/

/-- The entries that are noted or pending lead from none to all slots that are counted, in some
order. Growths are counted that are noted, and those pending that are tallied. -/
structure Told (noted pending : List Expansion) (tallied blockSize allocated growthEvents : Nat) :
    Prop where
  chain : ∃ l, l.Perm (noted ++ pending) ∧ Expansion.Chained 0 l allocated
  tally : growthEvents = noted.length + tallied
  whole : ∀ x ∈ noted ++ pending, x.Whole blockSize

section

variable {noted noted' pending pending' : List Expansion}
  {tallied tallied' blockSize allocated growthEvents growthEvents' : Nat} {x : Expansion}

theorem Told.moved (h : Told noted pending tallied blockSize allocated growthEvents)
    (hp : (noted ++ pending).Perm (noted' ++ pending'))
    (ht : growthEvents' + (noted.length + tallied) =
      growthEvents + (noted'.length + tallied')) :
    Told noted' pending' tallied' blockSize allocated growthEvents' := by
  obtain ⟨l, hl, hchained⟩ := h.chain
  refine ⟨⟨l, hl.trans hp, hchained⟩, ?_, fun x hx => h.whole x (hp.mem_iff.2 hx)⟩
  have htally := h.tally
  omega

theorem Told.allot (h : Told noted pending tallied blockSize allocated growthEvents)
    (hx : x.Whole blockSize) (ha : x.allocated = allocated + x.slots) :
    Told noted (x :: pending) tallied blockSize x.allocated growthEvents := by
  obtain ⟨l, hl, hchained⟩ := h.chain
  have hnew : (l ++ [x]).Perm (noted ++ x :: pending) :=
    (List.perm_append_singleton x l).trans ((hl.cons x).trans List.perm_middle.symm)
  refine ⟨⟨l ++ [x], hnew, hchained.concat ha⟩, h.tally, fun y hy => ?_⟩
  rcases List.mem_cons.1 (List.perm_middle.mem_iff.1 hy) with rfl | hy
  · exact hx
  · exact h.whole y hy

end

/-- The slots that are counted next are those of whole blocks. -/
def Growth.Sized (blockSize : Nat) (g : Growth) : Prop :=
  0 < g.fresh.length ∧ blockSize ∣ g.fresh.length ∧
    (g.origin.isSingle = true → g.fresh.length = blockSize)

theorem Growth.Sized.whole {blockSize : Nat} {g : Growth} (h : g.Sized blockSize)
    (hpos : 0 < blockSize) (allocated : Nat) :
    Expansion.Whole blockSize
      ⟨g.origin.path, g.fresh.length / blockSize, g.fresh.length, allocated⟩ := by
  obtain ⟨hlen, hdvd, hsingle⟩ := h
  refine ⟨hlen, (Nat.div_mul_cancel hdvd).symm, fun hpath => ?_⟩
  have hone : g.fresh.length = blockSize := by
    apply hsingle
    cases horigin : g.origin with
    | single => rfl
    | bulk => rw [horigin] at hpath; cases hpath
  simp only [hone, Nat.div_self hpos]

theorem Call.Enters.told {id : PoolId} {p p' : Pool ε} {e : Option Event} {c c' : Call}
    {noted rest : List Expansion} {tallied : Nat} (h : Enters id p p' e c c')
    (hsized : ∀ g fault, c = countSlots g fault → g.Sized p.blockSize)
    (ht : Told noted ((c.expansion? p.blockSize).toList ++ rest) (c.isTallied.toNat + tallied)
      p.blockSize p.allocated p.counters.growthEvents) :
    Told (noted ++ (e.bind (Event.expansion? id)).toList)
      ((c'.expansion? p.blockSize).toList ++ rest) (c'.isTallied.toNat + tallied)
      p.blockSize p'.allocated p'.counters.growthEvents := by
  cases h with
  | allot g fault hp hc =>
    have hwhole := (hsized g fault rfl).whole p.strategy.blockSize_pos
      (p.allocated + g.fresh.length)
    rw [hp, hc]
    simpa [expansion?, isTallied] using ht.allot hwhole rfl
  | tally g fault allocated hp hc =>
    rw [hp, hc]
    refine ht.moved (by simp [expansion?]) ?_
    simp [isTallied]
    omega
  | keep g fault allocated hp hc =>
    rw [hp, hc]
    exact ht.moved (by simp [expansion?]) (by simp [isTallied])
  | note g fault allocated hp =>
    rw [hp]
    have hafter := expansion?_afterGrowth p.blockSize g fault
    rw [hafter, isTallied_of_expansion hafter]
    refine ht.moved ?_ ?_
    · simp [expansion?, Event.expansion?]
    · simp [isTallied, Event.expansion?]
      omega
  | none hp hc he hbefore hafter hsome =>
    rw [hp, hc]
    refine ht.moved ?_ ?_
    · simp [he, hbefore, hafter]
    · simp [he, isTallied_of_expansion (hbefore p.blockSize),
        isTallied_of_expansion (hafter p.blockSize)]

/-! ## Clients -/

namespace Client

/-- What the client's call has still to note of the growth of the pool. -/
def expansion? (id : PoolId) (blockSize : Nat) (k : Client) : Option Expansion :=
  match k.call with
  | some (id', c) => if id' = id then c.expansion? blockSize else none
  | none => none

def isTallied (id : PoolId) (k : Client) : Bool :=
  match k.call with
  | some (id', c) => id' = id && c.isTallied
  | none => false

variable {id : PoolId} {blockSize : Nat} {k : Client}

theorem expansion?_eq_none
    (h : ∀ c, k.call = some (id, c) → c.expansion? blockSize = none) :
    k.expansion? id blockSize = none := by
  unfold expansion?
  split
  · rename_i id' c hc
    split
    · rename_i he
      exact h c (he ▸ hc)
    · rfl
  · rfl

theorem isTallied_eq_false (h : ∀ c, k.call = some (id, c) → c.expansion? blockSize = none) :
    k.isTallied id = false := by
  unfold isTallied
  split
  · rename_i id' c hc
    by_cases he : id' = id
    · subst he
      rw [Call.isTallied_of_expansion (h c hc), Bool.and_false]
    · rw [decide_eq_false he, Bool.false_and]
  · rfl

theorem step_journal {a a' : Arena ε} {k' : Client} {new : Losses} (h : Step a k a' k' new)
    (hover : ∀ id c, k.call = some (id, c) → c.outcome?.isSome = true) :
    a'.journal = a.journal := by
  cases h with
  | run a' held id granted c c' hc hr =>
    have hend := hover id c rfl
    rw [hc] at hend
    cases hend
  | _ => rfl

end Client

/-- What is noted of the growth of the pool, and what the calls of clients have still to note. -/
def Arena.Tells (a : Arena ε) (clients : List Client) (id : PoolId) (p : Pool ε) : Prop :=
  Told (a.expansions id) (clients.filterMap (·.expansion? id p.blockSize))
    (clients.countP (·.isTallied id)) p.blockSize p.allocated p.counters.growthEvents

namespace Arena

variable {a a' : Arena ε} {id : PoolId} {p p' : Pool ε} {k k' : Client}
  {clients rest : List Client}

theorem Tells.perm (h : a.Tells clients id p) (hc : clients.Perm rest) : a.Tells rest id p := by
  refine Told.moved h ((hc.filterMap _).append_left _) ?_
  rw [hc.countP_eq]

theorem tells_cons : a.Tells (k :: rest) id p ↔
    Told (a.expansions id)
      ((k.expansion? id p.blockSize).toList ++ rest.filterMap (·.expansion? id p.blockSize))
      ((k.isTallied id).toNat + rest.countP (·.isTallied id)) p.blockSize p.allocated
      p.counters.growthEvents := by
  have hpending : (k :: rest).filterMap (·.expansion? id p.blockSize) =
      (k.expansion? id p.blockSize).toList ++ rest.filterMap (·.expansion? id p.blockSize) := by
    cases hk : k.expansion? id p.blockSize <;> simp [hk]
  have htallied : (k :: rest).countP (·.isTallied id) =
      (k.isTallied id).toNat + rest.countP (·.isTallied id) := by
    rw [List.countP_cons, Nat.add_comm]
    cases k.isTallied id <;> rfl
  rw [Tells, hpending, htallied]

theorem tells_cons_of_none
    (h : ∀ c, k.call = some (id, c) → c.expansion? p.blockSize = none) :
    a.Tells (k :: rest) id p ↔ a.Tells rest id p := by
  rw [tells_cons, Client.expansion?_eq_none h, Client.isTallied_eq_false h]
  simp [Tells]

theorem expansions_of_journal (h : a'.journal = a.journal) :
    a'.expansions id = a.expansions id := by
  rw [expansions, expansions, h]

theorem expansions_put (m' : Memory ε) (other : PoolId) (p' : Pool ε) (e : Option Event) :
    (a.put other m' p' e.toList).expansions id =
      a.expansions id ++ (e.bind (Event.expansion? id)).toList := by
  show Event.expansions id (a.journal ++ e.toList.toArray).toList = _
  rw [Array.toList_append]
  exact Event.expansions_concat id a.journal.toList e

theorem Tells.client {new : Losses} (ht : a.Tells (k :: rest) id p) (hk : k.Known a)
    (h : Client.Step a k a' k' new) (hp : a.pool? id = some p) (hp' : a'.pool? id = some p')
    (hsized : ∀ g fault, k.call = some (id, .countSlots g fault) → g.Sized p.blockSize) :
    a'.Tells (k' :: rest) id p' := by
  obtain ⟨held, id', granted, c, c', rfl, rfl, hc, hr⟩ | ⟨hpools, hover, hbegun⟩ :=
    Client.step_run_or_begin h
  · obtain ⟨q, hq⟩ := hk.call id' c rfl
    obtain ⟨m', q', e, hs, rfl⟩ := eq_put_of_step hq hr
    have henters := Call.step_enters hs
    rw [pool?_put hq] at hp'
    rw [tells_cons] at ht ⊢
    rw [expansions_put]
    -- A step of a call to another pool notes nothing of this one.
    by_cases he : id' = id
    · subst he
      rw [if_pos rfl] at hp'
      obtain rfl := Option.some.inj (hq.symm.trans hp)
      obtain rfl := Option.some.inj hp'
      simp only [Client.expansion?, Client.isTallied, if_true, decide_true, Bool.true_and] at ht ⊢
      have hsame : q'.blockSize = q.blockSize := by
        rw [Pool.blockSize, Call.step_strategy id' granted hs, Pool.blockSize]
      rw [hsame]
      exact henters.told (fun g fault hg => hsized g fault (by rw [hg])) ht
    · rw [if_neg (Ne.symm he)] at hp'
      obtain rfl := Option.some.inj (hp.symm.trans hp')
      rw [henters.expansion?_of_ne he]
      simpa [Client.expansion?, Client.isTallied, he] using ht
  · rw [pool?, hpools, ← pool?, hp] at hp'
    obtain rfl := Option.some.inj hp'
    rw [tells_cons_of_none fun c hc => Call.expansion?_of_outcome _ (hover id c hc)] at ht
    rw [tells_cons_of_none fun c hc => Call.expansion?_of_isBeginning _ (hbegun id c hc)]
    rw [Tells, expansions_of_journal (Client.step_journal h hover)]
    exact ht

end Arena

/-! ## Worlds -/

namespace World

theorem sized_of_reachable {w : World ε} (h : w.Reachable) {k : Client} (hk : k ∈ w.clients)
    {id : PoolId} {g : Growth} {fault : Option PoolError}
    (hc : k.call = some (id, .countSlots g fault)) {p : Pool ε}
    (hp : w.arena.pool? id = some p) : g.Sized p.blockSize := by
  have hsome : g.fresh.isEmpty = false := by
    refine h.calls (I := fun _ c => c.CountsSome) (fun _ c hbegun => ?_)
      (fun id granted m m' p p' e c c' hstep _ => (Call.step_enters hstep).countsSome) k hk id _ p
      hc hp
    cases c with
    | countSlots => cases hbegun
    | _ => trivial
  have hpiece : Piece.chain g.fresh ∈ w.pieces := by
    refine List.mem_append_right _ (List.mem_append_left _ (List.mem_flatMap.2 ⟨k, hk, ?_⟩))
    refine List.mem_append_right _ ?_
    rw [Client.running, hc]
    exact List.mem_cons_self
  have hfresh : g.fresh.Spans w.memory (g.fresh.slots w.memory) :=
    (whole_of_reachable h).partition.sound _ hpiece
  refine ⟨?_, ((audited_of_reachable h).fits k hk id _ p hc hp).dvd, fun hsingle => ?_⟩
  · rw [hfresh.length]
    refine List.length_pos_of_ne_nil fun hnil => ?_
    rw [hfresh.isEmpty_iff.2 hnil] at hsome
    cases hsome
  · exact (lone_of_reachable h k hk id _ p hc hp hsingle).2.2

/-- The journal tells of the growth of the pool. A pool that is not there has not grown. -/
structure Entered (w : World ε) (id : PoolId) : Prop where
  tells : ∀ p, w.arena.pool? id = some p → w.arena.Tells w.clients id p
  none : w.arena.pool? id = none → w.arena.expansions id = []

theorem Entered.client {a a' : Arena ε} {clients rest : List Client} {k k' : Client}
    {losses new : Losses} {id : PoolId} (he : Entered ⟨a, clients, losses⟩ id)
    (hr : Reachable ⟨a, clients, losses⟩) (hc : clients.Perm (k :: rest))
    (hk : Client.Step a k a' k' new) :
    Entered ⟨a', k' :: rest,
      ⟨losses.leaked ++ new.leaked, losses.forfeited ++ new.forfeited⟩⟩ id := by
  have hmem : k ∈ clients := hc.mem_iff.2 List.mem_cons_self
  have hknown : k.Known a := (whole_of_reachable hr).known k hmem
  have hsize := Client.step_pools_size hknown hk
  constructor
  · intro p' hp'
    have hlt := (Array.getElem?_eq_some_iff.1 hp').1
    rw [hsize] at hlt
    obtain ⟨p, hp⟩ : ∃ p, a.pool? id = some p := ⟨_, Array.getElem?_eq_getElem hlt⟩
    exact ((he.tells p hp).perm hc).client hknown hk hp hp' fun g fault hg =>
      sized_of_reachable hr hmem hg hp
  · intro hnone
    have hbefore : a.pool? id = Option.none := by
      rw [Arena.pool?, Array.getElem?_eq_none_iff] at hnone ⊢
      rwa [hsize] at hnone
    have hempty : a.expansions id = [] := he.none hbefore
    obtain ⟨held, id', granted, c, c', rfl, rfl, -, hrun⟩ | ⟨-, hover, -⟩ :=
      Client.step_run_or_begin hk
    · obtain ⟨q, hq⟩ := hknown.call id' c rfl
      obtain ⟨m', q', e, hs, rfl⟩ := Arena.eq_put_of_step hq hrun
      have hne : id' ≠ id := by
        rintro rfl
        rw [hbefore] at hq
        cases hq
      show Arena.expansions _ id = []
      rw [Arena.expansions_put, hempty, (Call.step_enters hs).expansion?_of_ne hne]
      rfl
    · exact (Arena.expansions_of_journal (Client.step_journal hk hover)).trans hempty

theorem tells_fresh {w : World ε} {id : PoolId} (hw : w.Whole) (hid : w.arena.pool? id = none)
    (he : w.arena.expansions id = []) (strategy : Strategy ε) (policy : GrowthPolicy)
    (backoffMicros : Nat) :
    w.arena.Tells w.clients id (.fresh strategy policy backoffMicros) := by
  have hcalls : ∀ k ∈ w.clients, ∀ c, k.call ≠ some (id, c) := by
    intro k hk c hc
    obtain ⟨p, hp⟩ := (hw.known k hk).call id c hc
    rw [hid] at hp
    cases hp
  generalize w.clients = clients at hcalls
  induction clients with
  | nil =>
    rw [Arena.Tells, he]
    exact ⟨⟨[], List.Perm.refl [], rfl⟩, rfl, fun x hx => nomatch hx⟩
  | cons k rest ih =>
    obtain ⟨hk, hrest⟩ := List.forall_mem_cons.1 hcalls
    exact (Arena.tells_cons_of_none fun c hc => absurd hc (hk c)).2 (ih hrest)

theorem entered_of_reachable {w : World ε} (h : w.Reachable) (id : PoolId) : w.Entered id := by
  induction h with
  | start => exact ⟨fun p hp => by simp [Arena.pool?] at hp, fun _ => rfl⟩
  | step hr hs ih =>
    cases hs with
    | client a a' clients rest k k' losses new hc hk => exact ih.client hr hc hk
    | addPool a clients losses strategy policy backoffMicros =>
      have hjournal : (a.addPool (.fresh strategy policy backoffMicros)).journal = a.journal := rfl
      constructor
      · intro p hp
        have htells : a.Tells clients id p := by
          cases hq : a.pool? id with
          | some q =>
            obtain rfl : q = p := Option.some.inj ((Arena.pool?_addPool hq _).symm.trans hp)
            exact ih.tells q hq
          | none =>
            obtain hp | rfl := Arena.of_pool?_addPool hp
            · rw [hq] at hp
              cases hp
            · exact tells_fresh (whole_of_reachable hr) hq (ih.none hq) strategy policy
                backoffMicros
        exact htells
      · intro hnone
        refine ih.none ?_
        cases hq : a.pool? id with
        | none => rfl
        | some q =>
          have hq' := Arena.pool?_addPool hq (.fresh strategy policy backoffMicros)
          exact (Option.some_ne_none q (hq'.symm.trans hnone)).elim
    | join a clients losses =>
      refine ⟨fun p hp => ?_, ih.none⟩
      exact (Arena.tells_cons_of_none fun c hc => (Option.some_ne_none _ hc.symm).elim).2
        (ih.tells p hp)
    | handOver a clients rest giver taker kept h losses hc hh =>
      refine ⟨fun p hp => ?_, ih.none⟩
      show a.Tells (giver :: taker :: rest) id p
      exact (ih.tells p hp).perm hc

theorem whole_of_pending {w : World ε} (h : w.Reachable) {k : Client} (hk : k ∈ w.clients)
    {id : PoolId} {c : Call} (hc : k.call = some (id, c)) {p : Pool ε}
    (hp : w.arena.pool? id = some p) {x : Expansion} (hx : c.expansion? p.blockSize = some x) :
    x.Whole p.blockSize := by
  refine ((entered_of_reachable h id).tells p hp).whole x (List.mem_append_right _ ?_)
  refine List.mem_filterMap.2 ⟨k, hk, ?_⟩
  rw [Client.expansion?, hc]
  exact (if_pos rfl).trans hx

end World

/-! ## At rest -/

/-- The entries are all there is to tell of the growth of the pool. In ascending order each leads on
from the one before, and the last one to what is allocated. -/
structure Pool.Journaled (p : Pool ε) (xs : List Expansion) : Prop where
  growths : xs.length = p.counters.growthEvents
  whole : ∀ x ∈ xs, x.Whole p.blockSize
  slots : (xs.map (·.slots)).sum = p.allocated
  blocks : (xs.map (·.blocks)).sum = p.blocks.length
  distinct : (xs.map (·.allocated)).Nodup
  chained : ∃ l, l.Perm xs ∧ l.Pairwise (fun x y => x.allocated < y.allocated) ∧
    Expansion.Chained 0 l p.allocated

theorem Expansion.sum_slots {blockSize : Nat} {xs : List Expansion}
    (h : ∀ x ∈ xs, x.Whole blockSize) :
    (xs.map (·.slots)).sum = (xs.map (·.blocks)).sum * blockSize := by
  induction xs with
  | nil => exact (Nat.zero_mul _).symm
  | cons x xs ih =>
    obtain ⟨hx, hxs⟩ := List.forall_mem_cons.1 h
    simp only [List.map_cons, List.sum_cons, ih hxs, hx.slots, Nat.add_mul]

theorem Told.journaled {noted : List Expansion} {p : Pool ε}
    (h : Told noted [] 0 p.blockSize p.allocated p.counters.growthEvents)
    (hall : p.allocated = p.blocks.length * p.blockSize) : p.Journaled noted := by
  obtain ⟨⟨l, hl, hchained⟩, htally, hwhole⟩ := h
  rw [List.append_nil] at hl hwhole
  have hasc := hchained.pairwise fun x hx => (hwhole x (hl.mem_iff.1 hx)).pos
  have hsum : (noted.map (·.slots)).sum = p.allocated := by
    rw [← (hl.map (·.slots)).sum_nat, hchained.sum, Nat.zero_add]
  refine ⟨htally.symm, hwhole, hsum, ?_, ?_, ⟨l, hl, hasc, hchained⟩⟩
  · refine Nat.eq_of_mul_eq_mul_right p.strategy.blockSize_pos ?_
    exact (Expansion.sum_slots hwhole).symm.trans (hsum.trans hall)
  · refine (hl.map (·.allocated)).nodup_iff.1 (List.pairwise_map.2 ?_)
    exact hasc.imp Nat.ne_of_lt

namespace World

variable {w : World ε} {id : PoolId} {p : Pool ε}

theorem AtRest.due_eq_zero (hrest : w.AtRest id) : due w.clients (·.unlisted) id = 0 := by
  rw [due, List.sum_eq_zero_iff_forall_eq_nat]
  intro n hn
  obtain ⟨k, hk, rfl⟩ := List.mem_map.1 hn
  unfold Client.dues
  split
  · rename_i id' c hc
    split
    · rename_i he
      subst he
      have hend := hrest k hk c hc
      cases c with
      | finished o => cases o <;> rfl
      | _ => cases hend
    · rfl
  · rfl

theorem AtRest.journaled (hrest : w.AtRest id) (h : w.Reachable)
    (hp : w.arena.pool? id = some p) : p.Journaled (w.arena.expansions id) := by
  have hnone : ∀ k ∈ w.clients, ∀ c, k.call = some (id, c) → c.expansion? p.blockSize = none :=
    fun k hk c hc => Call.expansion?_of_outcome _ (hrest k hk c hc)
  have htells := (entered_of_reachable h id).tells p hp
  have hpending : w.clients.filterMap (·.expansion? id p.blockSize) = [] :=
    List.filterMap_eq_nil_iff.2 fun k hk => Client.expansion?_eq_none (hnone k hk)
  have htallied : w.clients.countP (·.isTallied id) = 0 := by
    refine List.countP_eq_zero.2 fun k hk => ?_
    rw [Client.isTallied_eq_false (hnone k hk)]
    exact Bool.false_ne_true
  rw [Arena.Tells, hpending, htallied] at htells
  have hlisted := ((audited_of_reachable h).balanced id p hp).listed
  rw [hrest.due_eq_zero, Nat.add_zero] at hlisted
  exact htells.journaled hlisted

end World

end SlotPool
