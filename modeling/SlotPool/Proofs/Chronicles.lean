import SlotPool.Proofs.Journal
import SlotPool.Proofs.Oversize

/-!
# What one call notes among the steps of all others

`World.Chronicle` follows a call as `World.Underway` does, and records what its own steps note. A
call notes the blocks that it has built, and nothing else of a growth. A call for many slots that
fails notes that last, and no other call notes such a thing.
-/

namespace SlotPool

open Memory

variable {ε : Type}

/-! ## Events -/

namespace Event

def isDenial : Event → Bool
  | bulkFailed .. => true
  | _ => false

/-- What a call for many slots notes when it has built so many blocks. -/
def ofGrowth (id : PoolId) (p : Pool ε) (blocks allocated : Nat) : List Event :=
  if blocks = 0 then []
  else [.grown id .bulk p.policy blocks (blocks * p.blockSize) allocated]

def ofOutcome (id : PoolId) (count : Nat) : Outcome → List Event
  | .failed error => [.bulkFailed id count error]
  | _ => []

end Event

/-! ## Blocks that are still to be noted -/

namespace Call

/-- The blocks that the call has built and not noted yet. -/
def unnoted (blockSize : Nat) : Call → Nat
  | reserve g
  | build g
  | countSlots g _
  | countGrowth g _ _
  | countBlocks g _ _
  | noteGrowth g _ _ => g.fresh.length / blockSize
  | _ => 0

theorem unnoted_of_isBeginning (blockSize : Nat) {c : Call} (h : c.isBeginning = true) :
    c.unnoted blockSize = 0 := by
  cases c <;> first | rfl | cases h

theorem unnoted_afterGrowth (blockSize : Nat) (g : Growth) (fault : Option PoolError) :
    (afterGrowth g fault).unnoted blockSize = 0 := by
  obtain ⟨origin, blocks, granted, fresh⟩ := g
  cases origin <;> cases fault <;> rfl

theorem Continues.unnoted_eq {g : Growth} {c : Call} (h : Continues g c)
    (hf : g.fresh.isEmpty = true → g.fresh.length = 0) (blockSize : Nat) :
    c.unnoted blockSize = g.fresh.length / blockSize := by
  cases h with
  | afterGrowth fault hempty hb =>
    rw [unnoted_afterGrowth, hf hempty, Nat.zero_div]
  | _ => rfl

theorem Continues.unnoted_of_start {origin : Origin} {blocks : Nat} {c : Call}
    (h : Continues { origin, blocks } c) (blockSize : Nat) : c.unnoted blockSize = 0 :=
  (h.unnoted_eq (fun _ => rfl) blockSize).trans (Nat.zero_div blockSize)

section

variable {id : PoolId} {granted : Bool} {m m' : Memory ε} {p p' : Pool ε} {c c' : Call}
  {e : Option Event} {frame : List Piece}

theorem Enters.expansion?_eq (h : Enters id p p' e c c') {x : Expansion}
    (hx : e.bind (Event.expansion? id) = some x) : c.expansion? p.blockSize = some x := by
  cases h with
  | note g fault allocated hp =>
    rw [← hx]
    exact (if_pos rfl).symm
  | none hp hc he hbefore hafter hsome =>
    rw [he id] at hx
    cases hx
  | _ => cases hx

theorem step_unnoted (h : c.step id granted m p = (m', p', e, c'))
    (hp : Partition m ((.chain p.free :: c.pieces) ++ frame)) :
    p.blocks.length + ((e.bind (Event.expansion? id)).toList.map (·.blocks)).sum +
      c'.unnoted p.blockSize = p'.blocks.length + c.unnoted p.blockSize := by
  have hfresh : ∀ g : Growth, c.pieces = g.pieces → g.fresh.isEmpty = true →
      g.fresh.length = 0 := by
    intro g hg hempty
    have hspans : g.fresh.Spans m (g.fresh.slots m) :=
      hp.sound (.chain g.fresh) (by simp [hg, Growth.pieces])
    exact hspans.length_of_isEmpty hempty
  cases c with
  | reserve g =>
    obtain ⟨rfl, rfl, rfl, rfl⟩ := h
    rw [(continues_afterReservation _ _ _).unnoted_eq (hfresh g rfl)]
    rfl
  | build g =>
    simp only [step, Prod.mk.injEq] at h
    obtain ⟨rfl, rfl, rfl, rfl⟩ := h
    rw [(continues_nextBlock _).unnoted_eq (buildBlock_isEmpty hp), length_buildBlock]
    simp only [BlockList.length_push]
    have hmore := Nat.add_div_right g.fresh.length p.strategy.blockSize_pos
    show p.blocks.length + 0 + (g.fresh.length + p.strategy.blockSize) / p.strategy.blockSize =
      p.blocks.length + 1 + g.fresh.length / p.strategy.blockSize
    omega
  | noteGrowth g fault allocated =>
    obtain ⟨rfl, rfl, rfl, rfl⟩ := h
    rw [unnoted_afterGrowth]
    simp [Event.expansion?, unnoted]
  | claimGrowth =>
    obtain rfl := step_silent h rfl
    obtain ⟨⟨growing, rfl⟩, rfl | hnext⟩ := claimGrowth_goes_on h
    · rfl
    · rw [hnext.unnoted_of_start]
      rfl
  | popMany count =>
    obtain rfl := step_silent h rfl
    obtain ⟨⟨free, rfl⟩, ⟨v, rfl⟩ | ⟨st, rfl⟩ | ⟨deficit, taken, blocks, hnext⟩⟩ :=
      popMany_goes_on h
    · rfl
    · rfl
    · rw [hnext.unnoted_of_start]
      rfl
  | _ =>
    simp only [step] at h
    repeat' split at h
    all_goals
      simp only [Prod.mk.injEq] at h
      obtain ⟨rfl, rfl, rfl, rfl⟩ := h
      rfl

/-! ## Notes of failure -/

def asksMany : Call → Bool
  | popMany _ => true
  | reserve g
  | build g
  | countSlots g _
  | countGrowth g _ _
  | countBlocks g _ _
  | noteGrowth g _ _ => !g.origin.isSingle
  | carve .. => true
  | surrender .. => true
  | noteFailure .. => true
  | restore .. => true
  | _ => false

theorem asksMany_afterGrowth {g : Growth} (hg : g.origin.isSingle = true)
    (fault : Option PoolError) : (afterGrowth g fault).asksMany = false := by
  obtain ⟨origin, blocks, granted, fresh⟩ := g
  cases origin with
  | single => rfl
  | bulk count deficit taken => cases hg

theorem Continues.asksMany_eq {g : Growth} {c : Call} (h : Continues g c)
    (hg : g.origin.isSingle = true) : c.asksMany = false := by
  cases h with
  | afterGrowth fault hf hb => exact asksMany_afterGrowth hg fault
  | _ => exact congrArg not hg

theorem step_asksMany (h : c.step id granted m p = (m', p', e, c')) (hs : c.asksMany = false) :
    c'.asksMany = false := by
  have hsingle : ∀ g : Growth, (!g.origin.isSingle) = false → g.origin.isSingle = true := by
    intro g hg
    simpa using hg
  cases c with
  | claimGrowth =>
    obtain ⟨-, rfl | hnext⟩ := claimGrowth_goes_on h
    · rfl
    · exact hnext.asksMany_eq rfl
  | reserve g =>
    obtain ⟨-, -, -, rfl⟩ := h
    exact (continues_afterReservation _ _ _).asksMany_eq (hsingle g hs)
  | build g =>
    simp only [step, Prod.mk.injEq] at h
    obtain ⟨-, -, -, rfl⟩ := h
    exact (continues_nextBlock _).asksMany_eq (hsingle g hs)
  | noteGrowth g fault allocated =>
    obtain ⟨-, -, -, rfl⟩ := h
    exact asksMany_afterGrowth (hsingle g hs) fault
  | countSlots | countGrowth | countBlocks =>
    obtain ⟨-, -, -, rfl⟩ := h
    exact hs
  | popMany | carve | surrender | noteFailure | restore => cases hs
  | _ =>
    simp only [step] at h
    repeat' split at h
    all_goals
      simp only [Prod.mk.injEq] at h
      obtain ⟨-, -, -, rfl⟩ := h
      rfl

theorem step_undenied (h : c.step id granted m p = (m', p', e, c')) (hs : c.asksMany = false) :
    ∀ event ∈ e, event.isDenial = false := by
  cases c with
  | noteBackoff | noteGrowth =>
    obtain ⟨-, -, rfl, -⟩ := h
    rintro event ⟨⟩
    rfl
  | noteFailure => cases hs
  | _ =>
    obtain rfl := step_silent h rfl
    exact fun event he => (Option.not_mem_none event he).elim

end

/-! ## Notes of a call for many slots -/

/-- The events are what a call for many slots notes of its growth, if it notes anything. -/
def NotesGrowth (id : PoolId) (policy : GrowthPolicy) (events : List Event) : Prop :=
  events = [] ∨ ∃ blocks slots allocated, events = [.grown id .bulk policy blocks slots allocated]

/-- What a call for `count` slots has noted when it has come so far. -/
def NotesMany (id : PoolId) (policy : GrowthPolicy) (count : Nat) (events : List Event) :
    Call → Prop
  | popMany n => n = count ∧ events = []
  | reserve g
  | build g
  | countSlots g _
  | countGrowth g _ _
  | countBlocks g _ _
  | noteGrowth g _ _ => (∃ deficit taken, g.origin = .bulk count deficit taken) ∧ events = []
  | carve .. => NotesGrowth id policy events
  | surrender .. => NotesGrowth id policy events
  | noteFailure n _ _ _ => n = count ∧ NotesGrowth id policy events
  | restore _ _ error =>
    ∃ grown, NotesGrowth id policy grown ∧ events = grown ++ [.bulkFailed id count error]
  | countAcquired .. => NotesGrowth id policy events
  | finished o =>
    ∃ grown, NotesGrowth id policy grown ∧ events = grown ++ Event.ofOutcome id count o
  | _ => False

theorem notesMany_afterGrowth {id : PoolId} {policy : GrowthPolicy} {count : Nat}
    {events : List Event} {g : Growth} (fault : Option PoolError)
    (ho : ∃ deficit taken, g.origin = .bulk count deficit taken)
    (h : NotesGrowth id policy events) :
    (afterGrowth g fault).NotesMany id policy count events := by
  obtain ⟨origin, blocks, granted, fresh⟩ := g
  obtain ⟨deficit, taken, rfl⟩ : ∃ deficit taken, origin = .bulk count deficit taken := ho
  cases fault with
  | none => exact h
  | some error => exact ⟨rfl, h⟩

theorem Continues.notesMany {id : PoolId} {policy : GrowthPolicy} {count : Nat} {g : Growth}
    {c : Call} (h : Continues g c) (ho : ∃ deficit taken, g.origin = .bulk count deficit taken) :
    c.NotesMany id policy count [] := by
  cases h with
  | afterGrowth fault hf hb => exact notesMany_afterGrowth fault ho (Or.inl rfl)
  | _ => exact ⟨ho, rfl⟩

theorem NotesMany.step {id : PoolId} {granted : Bool} {m m' : Memory ε} {p p' : Pool ε}
    {c c' : Call} {e : Option Event} {count : Nat} {events : List Event}
    (hn : c.NotesMany id p.policy count events) (hc : c.outcome? = none)
    (h : c.step id granted m p = (m', p', e, c')) :
    c'.NotesMany id p.policy count (events ++ e.toList) := by
  have hstill : ∀ {c₁ : Call}, e = none → c₁.NotesMany id p.policy count events →
      c₁.NotesMany id p.policy count (events ++ e.toList) := by
    rintro c₁ rfl h₁
    rwa [Option.toList_none, List.append_nil]
  cases c with
  | popMany n =>
    obtain ⟨rfl, rfl⟩ := hn
    refine hstill (step_silent h rfl) ?_
    obtain ⟨-, ⟨v, rfl⟩ | ⟨st, rfl⟩ | ⟨deficit, taken, blocks, hnext⟩⟩ := popMany_goes_on h
    · exact ⟨[], Or.inl rfl, rfl⟩
    · exact Or.inl rfl
    · exact hnext.notesMany ⟨deficit, taken, rfl⟩
  | reserve g =>
    obtain ⟨ho, rfl⟩ := hn
    obtain ⟨-, -, rfl, rfl⟩ := h
    exact hstill rfl ((continues_afterReservation _ _ _).notesMany ho)
  | build g =>
    obtain ⟨ho, rfl⟩ := hn
    simp only [Call.step, Prod.mk.injEq] at h
    obtain ⟨-, -, rfl, rfl⟩ := h
    exact hstill rfl ((continues_nextBlock _).notesMany ho)
  | countSlots | countGrowth | countBlocks =>
    obtain ⟨-, -, rfl, rfl⟩ := h
    exact hstill rfl hn
  | noteGrowth g fault allocated =>
    obtain ⟨ho, rfl⟩ := hn
    obtain ⟨-, -, rfl, rfl⟩ := h
    refine notesMany_afterGrowth fault ho
      (Or.inr ⟨g.fresh.length / p.blockSize, g.fresh.length, allocated, ?_⟩)
    obtain ⟨deficit, taken, horigin⟩ := ho
    rw [horigin]
    rfl
  | carve n deficit taken fresh =>
    simp only [Call.step] at h
    split at h
    · simp only [Prod.mk.injEq] at h
      obtain ⟨-, -, rfl, rfl⟩ := h
      refine hstill rfl ?_
      split <;> exact hn
    · obtain ⟨-, -, rfl, rfl⟩ := h
      exact hstill rfl ⟨events, hn, (List.append_nil _).symm⟩
  | surrender n taken surplus =>
    obtain ⟨-, -, rfl, rfl⟩ := h
    exact hstill rfl hn
  | noteFailure n taken fresh error =>
    obtain ⟨rfl, hgrown⟩ := hn
    obtain ⟨-, -, rfl, rfl⟩ := h
    exact ⟨events, hgrown, rfl⟩
  | restore taken fresh error =>
    obtain ⟨-, -, rfl, rfl⟩ := h
    exact hstill rfl hn
  | countAcquired n slots =>
    obtain ⟨-, -, rfl, rfl⟩ := h
    exact hstill rfl ⟨events, hn, (List.append_nil _).symm⟩
  | finished o => cases hc
  | _ => exact hn.elim

end Call

/-! ## One call among others -/

namespace World

/-- Something happens to a world and to what a client beside it holds, which is in a call meanwhile.
-/
inductive Meanwhile : World ε → List Held → World ε → List Held → Prop where
  | others {w w' : World ε} {held : List Held} (hs : w.Step w') : Meanwhile w held w' held
  /-- The client hands a thing to another one. -/
  | gives {a : Arena ε} {rest others : List Client} {losses : Losses} {held kept : List Held}
      (x : Held) (taker : Client) (hh : held.Perm (x :: kept)) (hc : rest.Perm (taker :: others)) :
      Meanwhile ⟨a, rest, losses⟩ held
        ⟨a, { taker with held := x :: taker.held } :: others, losses⟩ kept
  /-- Another client hands it a thing. -/
  | takes {a : Arena ε} {rest others : List Client} {losses : Losses} {held kept : List Held}
      (x : Held) (giver : Client) (hc : rest.Perm (giver :: others))
      (hh : giver.held.Perm (x :: kept)) :
      Meanwhile ⟨a, rest, losses⟩ held
        ⟨a, { giver with held := kept } :: others, losses⟩ (x :: held)

/-- A call that has begun as `c₀`, and has come to `c`. The world is that of all others, without the
client. It is recorded what the steps of the call noted, and what they did. -/
inductive Chronicle (id : PoolId) (c₀ : Call) :
    List Event → List (Stride ε) → World ε → List Held → Call → Prop where
  | start {a : Arena ε} {clients rest : List Client} {losses : Losses} {held : List Held}
      (h : Reachable ⟨a, clients, losses⟩) (hc : clients.Perm (⟨held, some (id, c₀)⟩ :: rest)) :
      Chronicle id c₀ [] [] ⟨a, rest, losses⟩ held c₀
  | own {events noted : List Event} {strides : List (Stride ε)} {a a' : Arena ε}
      {rest : List Client} {losses : Losses} {held : List Held} {c c' : Call} {p p' : Pool ε}
      (granted : Bool) (h : Chronicle id c₀ events strides ⟨a, rest, losses⟩ held c)
      (hc : c.outcome? = none) (hp : a.pool? id = some p) (hs : a.step id granted c = (a', c'))
      (hp' : a'.pool? id = some p') (hj : a'.journal = a.journal ++ noted.toArray) :
      Chronicle id c₀ (events ++ noted) (strides ++ [⟨a.memory, p, a'.memory, p'⟩])
        ⟨a', rest, ⟨losses.leaked, losses.forfeited ++ c.forfeited a'.memory c'⟩⟩ held c'
  | meanwhile {events : List Event} {strides : List (Stride ε)} {w w' : World ε}
      {held held' : List Held} {c : Call} (h : Chronicle id c₀ events strides w held c)
      (hm : Meanwhile w held w' held') : Chronicle id c₀ events strides w' held' c

variable {id : PoolId} {c₀ c : Call} {events : List Event} {strides : List (Stride ε)}
  {w w' : World ε} {held held' : List Held} {p : Pool ε}

theorem Underway.meanwhile (h : Underway id c₀ strides w held c)
    (hm : Meanwhile w held w' held') : Underway id c₀ strides w' held' c := by
  cases hm with
  | others hs => exact h.others hs
  | gives x taker hh hc => exact h.gives x taker hh hc
  | takes x giver hc hh => exact h.takes x giver hc hh

theorem Chronicle.underway (h : Chronicle id c₀ events strides w held c) :
    Underway id c₀ strides w held c := by
  induction h with
  | start h hc => exact .start h hc
  | own granted h hc hp hs hp' hj ih => exact ih.own granted hc hp hs hp'
  | meanwhile h hm ih => exact ih.meanwhile hm

/-- Of each call that is followed there is a record of what it notes. -/
theorem Underway.exists_chronicle (h : Underway id c₀ strides w held c) :
    ∃ events, Chronicle id c₀ events strides w held c := by
  induction h with
  | start h hc => exact ⟨[], .start h hc⟩
  | @own strides a a' rest losses held c c' p p' granted h hc hp hs hp' ih =>
    obtain ⟨events, hchronicle⟩ := ih
    obtain ⟨m', q, e, -, rfl⟩ := Arena.eq_put_of_step hp hs
    exact ⟨_, hchronicle.own granted hc hp hs hp' rfl⟩
  | others h hs ih =>
    obtain ⟨events, hchronicle⟩ := ih
    exact ⟨events, hchronicle.meanwhile (.others hs)⟩
  | gives x taker h hh hc ih =>
    obtain ⟨events, hchronicle⟩ := ih
    exact ⟨events, hchronicle.meanwhile (.gives x taker hh hc)⟩
  | takes x giver h hc hh ih =>
    obtain ⟨events, hchronicle⟩ := ih
    exact ⟨events, hchronicle.meanwhile (.takes x giver hc hh)⟩

namespace Chronicle

theorem keeps {P : List Event → List (Stride ε) → Pool ε → Call → Prop}
    (hstart : ∀ q, P [] [] q c₀)
    (hown : ∀ events strides (a : Arena ε) rest losses held c m' c' q q' granted e,
      Underway id c₀ strides ⟨a, rest, losses⟩ held c → c.outcome? = none →
      a.pool? id = some q → c.step id granted a.memory q = (m', q', e, c') →
      P events strides q c → P (events ++ e.toList) (strides ++ [⟨a.memory, q, m', q'⟩]) q' c')
    (hsetup : ∀ events strides q q' c, q.SameSetup q' → P events strides q c →
      P events strides q' c)
    (h : Chronicle id c₀ events strides w held c) (hp : w.arena.pool? id = some p) :
    P events strides p c := by
  induction h generalizing p with
  | start h hc => exact hstart p
  | @own events noted strides a a' rest losses held c c' q q' granted h hc hq hs hq' hj ih =>
    obtain rfl : q' = p := Option.some.inj (hq'.symm.trans hp)
    obtain ⟨m', q₁, e, hstep, rfl⟩ := Arena.eq_put_of_step hq hs
    rw [Arena.pool?_put hq, if_pos rfl] at hq'
    obtain rfl := Option.some.inj hq'
    obtain rfl : e.toList = noted :=
      congrArg Array.toList ((Array.append_right_inj a.journal).1 hj)
    exact hown _ _ _ _ _ _ _ _ _ _ _ _ _ h.underway hc hq hstep (ih hq)
  | @meanwhile events strides w w' held held' c h hm ih =>
    cases hm with
    | others hs =>
      obtain ⟨q, hq⟩ := h.underway.has.exists_pool
      obtain ⟨q', hq', hsame⟩ := h.underway.others_sameSetup hs hq
      obtain rfl : q' = p := Option.some.inj (hq'.symm.trans hp)
      exact hsetup _ _ _ _ _ hsame (ih hq)
    | gives x taker hh hc => exact ih hp
    | takes x giver hc hh => exact ih hp

end Chronicle

end World

/-! ## What has been noted -/

/-- What the events tell of the blocks that a call to the pool has built so far. -/
structure Call.Reports (id : PoolId) (blockSize : Nat) (events : List Event)
    (strides : List (Stride ε)) (c : Call) : Prop where
  whole : ∀ x ∈ Event.expansions id events, x.Whole blockSize
  others : ∀ other, id ≠ other → Event.expansions other events = []
  blocks : Measure.blocks.gain strides =
    (((Event.expansions id events).map (·.blocks)).sum + c.unnoted blockSize : Nat)

theorem Call.Bulk.short_of_note {id : PoolId} {granted : Bool} {m m' m'' : Memory ε}
    {p p' : Pool ε} {c c' : Call} {event : Event} {count blockSize : Nat}
    {strides : List (Stride ε)} (hb : c.Bulk count blockSize strides m'')
    (h : c.step id granted m p = (m', p', some event, c')) :
    strides ≠ [] ∧ (Stride.found strides).length < count := by
  cases c with
  | noteGrowth g fault allocated =>
    obtain ⟨taken, -, hshort⟩ := hb
    exact ⟨hshort.begun, hshort.short⟩
  | noteFailure n taken fresh error => exact ⟨Short.begun hb, Short.short hb⟩
  | noteBackoff => exact hb.elim
  | _ => exact (Option.some_ne_none event (step_silent h rfl)).elim

namespace World.Chronicle

variable {id : PoolId} {c₀ c : Call} {events : List Event} {strides : List (Stride ε)}
  {w : World ε} {held : List Held} {p : Pool ε}

theorem reports (h : Chronicle id c₀ events strides w held c) (hbegun : c₀.isBeginning = true)
    (hp : w.arena.pool? id = some p) : c.Reports id p.blockSize events strides := by
  refine h.keeps (P := fun events strides q c => c.Reports id q.blockSize events strides)
    (fun q => ⟨fun _ hx => (nomatch hx), fun _ _ => rfl, ?_⟩)
    (fun events strides a rest losses held c m' c' q q' granted e hu hc hq hstep ih => ?_)
    (fun events strides q q' c hs ih => ?_) hp
  · rw [Call.unnoted_of_isBeginning _ hbegun]
    rfl
  · have hsize : q'.blockSize = q.blockSize := by
      rw [Pool.blockSize, (Call.step_sameSetup hstep).strategy, Pool.blockSize]
    have henters := Call.step_enters hstep
    obtain ⟨frame, hpart⟩ := hu.has.exists_call_partition
    obtain ⟨others, hfree, -⟩ := Arena.free_perm hq
    -- What is noted is no longer to be noted, so that only a new block changes the sum of both.
    have hunnoted := Call.step_unnoted hstep (Arena.local_partition hfree hpart)
    rw [hsize]
    constructor
    · intro x hx
      rw [Event.expansions_concat] at hx
      rcases List.mem_append.1 hx with hx | hx
      · exact ih.whole x hx
      -- Before it was noted the entry was pending, and so it is whole.
      · obtain ⟨clients, hr, hperm⟩ := hu.exists_reachable
        exact whole_of_pending hr (hperm.mem_iff.2 List.mem_cons_self) rfl hq
          (henters.expansion?_eq (Option.mem_toList.1 hx))
    · intro other hne
      rw [Event.expansions_concat, ih.others other hne, henters.expansion?_of_ne hne]
      rfl
    · have hblocks := ih.blocks
      rw [Measure.gain_concat, Event.expansions_concat, List.map_append, List.sum_append]
      simp only [Measure.read]
      omega
  · rw [Pool.blockSize, hs.strategy]
    exact ih

theorem notesMany {count : Nat} (h : Chronicle id (.popMany count) events strides w held c)
    (hp : w.arena.pool? id = some p) : c.NotesMany id p.policy count events := by
  refine h.keeps (P := fun events _ q c => c.NotesMany id q.policy count events)
    (fun q => ?_)
    (fun events strides a rest losses held c m' c' q q' granted e hu hc hq hstep ih => ?_)
    (fun events strides q q' c hs ih => ?_) hp
  · exact ⟨rfl, rfl⟩
  · rw [(Call.step_sameSetup hstep).policy]
    exact ih.step hc hstep
  · rwa [hs.policy]

theorem short_of_noted {count : Nat} (h : Chronicle id (.popMany count) events strides w held c)
    (hp : w.arena.pool? id = some p) (hnoted : events ≠ []) :
    strides ≠ [] ∧ (Stride.found strides).length < count := by
  refine h.keeps (P := fun events strides _ _ => events ≠ [] →
      strides ≠ [] ∧ (Stride.found strides).length < count) (fun q hnil => absurd rfl hnil)
    (fun events strides a rest losses held c m' c' q q' granted e hu hc hq hstep ih hnoted => ?_)
    (fun events strides q q' c hs ih => ih) hp hnoted
  have hshort : strides ≠ [] ∧ (Stride.found strides).length < count := by
    cases e with
    | none =>
      rw [Option.toList_none, List.append_nil] at hnoted
      exact ih hnoted
    | some event => exact (hu.bulk hq).short_of_note hstep
  rw [Stride.found_concat hshort.1]
  exact ⟨by simp, hshort.2⟩

theorem undenied (h : Chronicle id c₀ events strides w held c) (hc₀ : c₀.asksMany = false)
    (hp : w.arena.pool? id = some p) : ∀ event ∈ events, event.isDenial = false := by
  have hall : c.asksMany = false ∧ ∀ event ∈ events, event.isDenial = false := by
    refine h.keeps (P := fun events _ _ c => c.asksMany = false ∧
        ∀ event ∈ events, event.isDenial = false) (fun q => ⟨hc₀, fun _ he => nomatch he⟩)
      (fun events strides a rest losses held c m' c' q q' granted e hu hc hq hstep ih => ?_)
      (fun events strides q q' c hs ih => ih) hp
    refine ⟨Call.step_asksMany hstep ih.1, fun event he => ?_⟩
    rcases List.mem_append.1 he with he | he
    · exact ih.2 event he
    · exact Call.step_undenied hstep ih.1 event (Option.mem_toList.1 he)
  exact hall.2

end World.Chronicle

/-- What a call has noted that has begun as `c₀`, has done these steps and has come to `o`. -/
structure Call.Noted (id : PoolId) (p : Pool ε) (c₀ : Call) (strides : List (Stride ε))
    (o : Outcome) (events : List Event) : Prop where
  whole : ∀ x ∈ Event.expansions id events, x.Whole p.blockSize
  blocks : Measure.blocks.gain strides =
    (((Event.expansions id events).map (·.blocks)).sum : Nat)
  /-- Without a block that it has built, it has noted no growth. -/
  idle : Measure.blocks.gain strides = 0 → ∀ other, Event.expansions other events = []
  /-- A call for many slots has noted just that it has grown, if it has, and that it has failed, if
  it has. If it found enough slots it has noted nothing. -/
  many : ∀ count, c₀ = .popMany count →
    (∃ blocks allocated : Nat, Measure.blocks.gain strides = blocks ∧
      events = Event.ofGrowth id p blocks allocated ++ Event.ofOutcome id count o) ∧
    (count ≤ (Stride.found strides).length → events = [])
  single : (∀ count, c₀ ≠ .popMany count) → ∀ event ∈ events, event.isDenial = false

theorem Expansion.eq_nil_of_sum {blockSize : Nat} {xs : List Expansion}
    (h : ∀ x ∈ xs, x.Whole blockSize) (hsum : (xs.map (·.blocks)).sum = 0) : xs = [] := by
  have hslots := Expansion.sum_slots h
  rw [hsum, Nat.zero_mul] at hslots
  cases xs with
  | nil => rfl
  | cons x xs =>
    have hpos := (h x List.mem_cons_self).pos
    rw [List.map_cons, List.sum_cons] at hslots
    omega

theorem Call.NotesGrowth.exists_eq {id : PoolId} {p : Pool ε} {events : List Event}
    (h : NotesGrowth id p.policy events)
    (hwhole : ∀ x ∈ Event.expansions id events, x.Whole p.blockSize) :
    ∃ allocated, events =
      Event.ofGrowth id p ((Event.expansions id events).map (·.blocks)).sum allocated := by
  obtain rfl | ⟨blocks, slots, allocated, rfl⟩ := h
  · exact ⟨0, rfl⟩
  · have hexpansions : Event.expansions id [.grown id .bulk p.policy blocks slots allocated] =
        [⟨.bulk, blocks, slots, allocated⟩] := by
      simp [Event.expansions, Event.expansion?]
    rw [hexpansions] at hwhole ⊢
    have hpos : 0 < slots := (hwhole _ List.mem_cons_self).pos
    have hslots : slots = blocks * p.blockSize := (hwhole _ List.mem_cons_self).slots
    have hblocks : blocks ≠ 0 := by
      rintro rfl
      rw [Nat.zero_mul] at hslots
      omega
    refine ⟨allocated, ?_⟩
    rw [List.map_singleton, List.sum_singleton, Event.ofGrowth, if_neg hblocks, ← hslots]

theorem Event.expansions_ofOutcome (id : PoolId) (events : List Event) (count : Nat)
    (o : Outcome) :
    expansions id (events ++ ofOutcome id count o) = expansions id events := by
  rw [expansions, List.filterMap_append]
  cases o <;> exact List.append_nil _

namespace World

theorem Chronicle.noted {id : PoolId} {c₀ : Call} {events : List Event}
    {strides : List (Stride ε)} {w : World ε} {held : List Held} {o : Outcome} {p : Pool ε}
    (h : Chronicle id c₀ events strides w held (.finished o)) (hbegun : c₀.isBeginning = true)
    (hp : w.arena.pool? id = some p) : Call.Noted id p c₀ strides o events := by
  obtain ⟨hwhole, hothers, hblocks⟩ := h.reports hbegun hp
  have hgain : Measure.blocks.gain strides =
      (((Event.expansions id events).map (·.blocks)).sum : Nat) := hblocks
  refine ⟨hwhole, hgain, fun hzero other => ?_, ?_, fun hmany => ?_⟩
  · by_cases hid : id = other
    · subst hid
      exact Expansion.eq_nil_of_sum hwhole (by omega)
    · exact hothers other hid
  · rintro count rfl
    obtain ⟨grown, hgrown, hevents⟩ : ∃ grown, Call.NotesGrowth id p.policy grown ∧
        events = grown ++ Event.ofOutcome id count o := h.notesMany hp
    have hsame : Event.expansions id events = Event.expansions id grown := by
      rw [hevents, Event.expansions_ofOutcome]
    rw [hsame] at hwhole hgain
    obtain ⟨allocated, hnote⟩ := hgrown.exists_eq hwhole
    refine ⟨⟨_, allocated, hgain, by rw [← hnote, hevents]⟩, fun henough => ?_⟩
    by_contra hnoted
    exact Nat.not_lt_of_le henough (h.short_of_noted hp hnoted).2
  · refine h.undenied ?_ hp
    cases c₀ with
    | popMany count => exact absurd rfl (hmany count)
    | _ => first | rfl | cases hbegun

/-- While no call to a pool is under way, the journal tells all of its growth: each growth once,
with whole blocks, and with the slots that were allocated when it was counted. Each call has noted the
blocks that it has built, and a call for many slots that has failed has noted that last; nothing
else is noted of growth or failure. -/
theorem journal_tells_growth (id : PoolId) :
    (∀ (w : World ε) (p : Pool ε), w.Reachable → w.AtRest id → w.arena.pool? id = some p →
      p.Journaled (w.arena.expansions id)) ∧
    ∀ (c₀ : Call) (events : List Event) (strides : List (Stride ε)) (w : World ε)
      (held : List Held) (o : Outcome) (p : Pool ε), c₀.isBeginning = true →
      Chronicle id c₀ events strides w held (.finished o) → w.arena.pool? id = some p →
      Call.Noted id p c₀ strides o events :=
  ⟨fun _ _ h hrest hp => hrest.journaled h hp,
    fun _ _ _ _ _ _ _ hbegun h hp => h.noted hbegun hp⟩

/-- The pool of pairs has grown once, by a block. A call for three slots notes its growth, and that
it has failed. -/
theorem journal_tells_growth_pairs :
    (∃ p, resting.Reachable ∧ resting.AtRest ⟨0⟩ ∧ resting.arena.pool? ⟨0⟩ = some p ∧
      resting.arena.expansions ⟨0⟩ = [⟨.single, 1, 2, 2⟩] ∧
      p.Journaled [⟨.single, 1, 2, 2⟩]) ∧
    ∃ (events : List Event) (strides : List (Stride Nat)) (w : World Nat) (p : Pool Nat),
      Chronicle ⟨0⟩ (.popMany 3) events strides w [] (.finished (.failed (.outOfMemory 2 24))) ∧
        w.arena.pool? ⟨0⟩ = some p ∧
        Call.Noted ⟨0⟩ p (.popMany 3) strides (.failed (.outOfMemory 2 24)) events := by
  obtain ⟨hjournaled, hnoted⟩ := journal_tells_growth (ε := Nat) ⟨0⟩
  obtain ⟨p, hp⟩ := Option.isSome_iff_exists.1
    (show (resting.arena.pool? ⟨0⟩).isSome = true by decide +kernel)
  have hexpansions : resting.arena.expansions ⟨0⟩ = [⟨.single, 1, 2, 2⟩] := by decide +kernel
  have hover : (finishing (fun _ _ => true) halted.1 halted.2.call).2.call =
      .finished (.failed (.outOfMemory 2 24)) := by decide +kernel
  obtain ⟨strides, losses, hhalted⟩ := underway_halted
  obtain ⟨strides', w, h⟩ := hhalted.finishes (fun _ _ => true)
  rw [hover] at h
  obtain ⟨q, hq⟩ := h.has.exists_pool
  obtain ⟨events, hchronicle⟩ := h.exists_chronicle
  exact ⟨⟨p, resting_reachable, resting_atRest, hp, hexpansions,
      hexpansions ▸ hjournaled _ p resting_reachable resting_atRest hp⟩,
    events, strides', w, q, hchronicle, hq, hnoted _ _ _ _ _ _ q rfl hchronicle hq⟩

end World

end SlotPool
