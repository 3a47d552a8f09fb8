import SlotPool.Proofs.Attempts
import SlotPool.Proofs.Balance

/-!
# What a reader of the statistics sees

A call for the statistics reads one word after the other, and anything may happen in between. So
what it reads are words of eight states of the pool, in the order of time, each of which keeps the
laws of the counters. The slots that it finds free may be more than those that it found allocated
before, but by no more than were allocated in between, and the same holds of releases and
acquisitions.
-/

namespace SlotPool

open Memory

variable {ε : Type}

/-! ## Words that only grow -/

/-- There are at least as many allocated slots and acquisitions. -/
structure Pool.Grows (p p' : Pool ε) : Prop where
  allocated : p.allocated ≤ p'.allocated
  acquisitions : p.counters.acquisitions ≤ p'.counters.acquisitions

theorem Pool.Grows.refl (p : Pool ε) : p.Grows p := ⟨le_rfl, le_rfl⟩

theorem Pool.Grows.trans {p p' p'' : Pool ε} (h : p.Grows p') (h' : p'.Grows p'') : p.Grows p'' :=
  ⟨h.allocated.trans h'.allocated, h.acquisitions.trans h'.acquisitions⟩

theorem Call.step_grows {id : PoolId} {granted : Bool} {m m' : Memory ε} {p p' : Pool ε}
    {c c' : Call} {e : Option Event} (h : c.step id granted m p = (m', p', e, c')) :
    p.Grows p' := by
  have hp : p.Grows (c.step id granted m p).2.1 := by
    cases c <;> simp only [step]
    all_goals repeat' split
    all_goals constructor <;> simp
  rw [h] at hp
  exact hp

/-- Pools stay where they are, and their words only grow. -/
def Arena.Grows (a a' : Arena ε) : Prop :=
  ∀ id p, a.pool? id = some p → ∃ p', a'.pool? id = some p' ∧ p.Grows p'

theorem Client.step_grows {a a' : Arena ε} {k k' : Client} {new : Losses} (hk : k.Known a)
    (h : Step a k a' k' new) : a.Grows a' := by
  cases h with
  | run a' held id granted c c' hc hr =>
    obtain ⟨p, hp⟩ := hk.call id c rfl
    obtain ⟨p', e, hstep, hpools⟩ := Arena.step_eq hp hr
    intro other q hq
    rw [Arena.pool?_set hp hpools other]
    split
    · rename_i he
      obtain rfl : p = q := Option.some.inj (hp.symm.trans (he ▸ hq))
      exact ⟨p', rfl, Call.step_grows hstep⟩
    · exact ⟨q, hq, .refl q⟩
  | _ => exact fun id p hp => ⟨p, hp, .refl p⟩

/-! ## Words read one after the other -/

namespace PoolStats

/-- The statistics that are put together from states of a pool, one word from each. -/
def ofReads (ps : List (Pool ε)) : PoolStats :=
  (Gauge.all.zip ps).foldl (fun seen look => look.1.read look.2 seen) {}

theorem ofReads_concat (ps : List (Pool ε)) (p : Pool ε) {gauge : Gauge} {left : List Gauge}
    (hleft : Gauge.all.drop ps.length = gauge :: left) :
    ofReads (ps ++ [p]) = gauge.read p (ofReads ps) := by
  obtain ⟨seen, hall, hlength⟩ : ∃ seen, Gauge.all = seen ++ gauge :: left ∧
      seen.length = ps.length := by
    refine ⟨Gauge.all.take ps.length, by rw [← hleft, List.take_append_drop], ?_⟩
    rw [List.length_take, Nat.min_eq_left]
    by_contra hge
    simp [List.drop_eq_nil_of_le (Nat.le_of_not_le hge)] at hleft
  have hbefore : (seen ++ gauge :: left).zip ps = seen.zip ps := by
    have happend : (seen ++ gauge :: left).zip (ps ++ []) =
        seen.zip ps ++ (gauge :: left).zip [] := List.zip_append hlength
    simpa using happend
  rw [ofReads, ofReads, hall, hbefore, List.zip_append hlength]
  simp

end PoolStats

namespace Call

/-- How far a call for the statistics has come that has looked at such states of the pool. After the
last word it takes one step more. -/
inductive Looks : Call → List (Pool ε) → Prop where
  | observe (ps : List (Pool ε)) (hps : ps.length ≤ Gauge.all.length) :
      Looks (.observe (Gauge.all.drop ps.length) (.ofReads ps)) ps
  | finished (ps : List (Pool ε)) (p : Pool ε) (hps : ps.length = Gauge.all.length) :
      Looks (.finished (.observed (.ofReads ps))) (ps ++ [p])

theorem Looks.step {id : PoolId} {granted : Bool} {m m' : Memory ε} {p p' : Pool ε} {c c' : Call}
    {e : Option Event} {ps : List (Pool ε)} (hl : c.Looks ps) (hc : c.outcome? = none)
    (h : c.step id granted m p = (m', p', e, c')) : c'.Looks (ps ++ [p]) := by
  cases hl with
  | finished ps p hps => simp [outcome?] at hc
  | observe ps hps =>
    obtain hend | hlt := Nat.eq_or_lt_of_le hps
    · rw [List.drop_eq_nil_of_le hend.ge] at h
      obtain ⟨-, -, -, rfl⟩ := h
      exact .finished ps p hend
    · have hleft := List.drop_eq_getElem_cons hlt
      rw [hleft] at h
      obtain ⟨-, -, -, rfl⟩ := h
      rw [← PoolStats.ofReads_concat ps p hleft, show ps.length + 1 = (ps ++ [p]).length by simp]
      exact .observe _ (by rw [List.length_append]; exact hlt)

end Call

/-! ## Laws at every instant -/

/-- There are not more free slots than allocated ones, nor more releases than acquisitions. -/
structure Pool.Plausible (p : Pool ε) : Prop where
  available_le : p.available ≤ p.allocated
  releases_le : p.counters.releases ≤ p.counters.acquisitions

namespace World

theorem plausible_of_reachable {w : World ε} (h : w.Reachable) {id : PoolId} {p : Pool ε}
    (hp : w.arena.pool? id = some p) : p.Plausible := by
  have hw := whole_of_reachable h
  have ht := tended_of_reachable h
  obtain ⟨hslots, hlisted, -, hsettled⟩ := (audited_of_reachable h).balanced id p hp
  have hunlisted := unlisted_le_running ht hw hp
  have hplaces := owned_slots ht hw hp
  constructor <;> omega

theorem step_grows {w w' : World ε} (hw : w.Whole) (hs : w.Step w') : w.arena.Grows w'.arena := by
  cases hs with
  | client a a' clients rest k k' losses new hc hk =>
    exact Client.step_grows (hw.known k (hc.mem_iff.2 (by simp))) hk
  | addPool a clients losses strategy policy backoffMicros =>
    exact fun id p hp => ⟨p, Arena.pool?_addPool hp _, .refl p⟩
  | _ => exact fun id p hp => ⟨p, hp, .refl p⟩

/-! ## A reader among other clients -/

/-- A client reads the statistics of a pool, from where it starts in `w`. The states of the pool
before each of its own steps are recorded. Between them anything happens after which there is still
a client in that call. -/
inductive Reading (id : PoolId) (w : World ε) : List (Pool ε) → World ε → Call → Prop where
  | start (k : Client) (hk : k ∈ w.clients) (hc : k.call = some (id, .readStats)) :
      Reading id w [] w .readStats
  | look {ps : List (Pool ε)} {a a' : Arena ε} {clients rest : List Client} {held : List Held}
      {losses new : Losses} {c c' : Call} {p : Pool ε} (h : Reading id w ps ⟨a, clients, losses⟩ c)
      (hc : c.outcome? = none) (hp : a.pool? id = some p)
      (hperm : clients.Perm (⟨held, some (id, c)⟩ :: rest))
      (hk : Client.Step a ⟨held, some (id, c)⟩ a' ⟨held, some (id, c')⟩ new) :
      Reading id w (ps ++ [p]) ⟨a', ⟨held, some (id, c')⟩ :: rest,
        ⟨losses.leaked ++ new.leaked, losses.forfeited ++ new.forfeited⟩⟩ c'
  | other {ps : List (Pool ε)} {w₁ w₂ : World ε} {c : Call} (k : Client)
      (h : Reading id w ps w₁ c) (hs : w₁.Step w₂) (hk : k ∈ w₂.clients)
      (hc : k.call = some (id, c)) : Reading id w ps w₂ c

variable {id : PoolId} {w w' : World ε} {ps : List (Pool ε)} {c : Call}

theorem Reading.reachable (h : Reading id w ps w' c) (hw : w.Reachable) : w'.Reachable := by
  induction h with
  | start k hk hc => exact hw
  | look h hc hp hperm hk ih => exact ih.step (.client _ _ _ _ _ _ _ _ hperm hk)
  | other k h hs hk hc ih => exact ih.step hs

theorem Reading.looks (h : Reading id w ps w' c) : c.Looks ps := by
  induction h with
  | start k hk hc => exact .observe [] (Nat.zero_le _)
  | look h hc hp hperm hk ih =>
    obtain ⟨granted, c₁, he, hr⟩ := Client.step_of_call hk hc
    obtain rfl : c₁ = _ := by simpa using he.symm
    obtain ⟨p', e, hstep, -⟩ := Arena.step_eq hp hr
    exact ih.step hc hstep
  | other k h hs hk hc ih => exact ih

theorem Reading.exists_client (h : Reading id w ps w' c) :
    ∃ k ∈ w'.clients, k.call = some (id, c) := by
  cases h with
  | start k hk hc => exact ⟨k, hk, hc⟩
  | look h hc hp hperm hk => exact ⟨_, List.mem_cons_self, rfl⟩
  | other k h hs hk hc => exact ⟨k, hk, hc⟩

/-- The states that were looked at are plausible, and their words grow up to now. -/
theorem Reading.states (h : Reading id w ps w' c) (hw : w.Reachable) :
    (∀ p ∈ ps, p.Plausible) ∧ ps.Pairwise Pool.Grows ∧
      ∀ q, w'.arena.pool? id = some q → ∀ p ∈ ps, p.Grows q := by
  induction h with
  | start k hk hc => simp
  | @look ps a a' clients rest held losses new c c' p h hc hp hperm hk ih =>
    obtain ⟨hsound, hpairs, hnow⟩ := ih
    have hr := h.reachable hw
    have hstep : World.Step ⟨a, clients, losses⟩ _ := .client _ _ _ rest _ _ losses _ hperm hk
    obtain ⟨p', hp', hgrows⟩ := step_grows (whole_of_reachable hr) hstep id p hp
    refine ⟨?_, ?_, fun q hq => ?_⟩
    · exact List.forall_mem_append.2
        ⟨hsound, List.forall_mem_singleton.2 (plausible_of_reachable hr hp)⟩
    · refine List.pairwise_append.2 ⟨hpairs, List.pairwise_singleton _ _, fun x hx y hy => ?_⟩
      obtain rfl := List.mem_singleton.1 hy
      exact hnow _ hp x hx
    · obtain rfl : p' = q := Option.some.inj (hp'.symm.trans hq)
      refine List.forall_mem_append.2 ⟨fun x hx => (hnow p hp x hx).trans hgrows, ?_⟩
      exact List.forall_mem_singleton.2 hgrows
  | @other ps w₁ w₂ c k h hs hk hc ih =>
    obtain ⟨hsound, hpairs, hnow⟩ := ih
    have hwhole := whole_of_reachable (h.reachable hw)
    obtain ⟨reader, hreader, hcall⟩ := h.exists_client
    obtain ⟨p, hp⟩ := (hwhole.known reader hreader).call id c hcall
    obtain ⟨p', hp', hgrows⟩ := step_grows hwhole hs id p hp
    refine ⟨hsound, hpairs, fun q hq x hx => ?_⟩
    obtain rfl : p' = q := Option.some.inj (hp'.symm.trans hq)
    exact (hnow p hp x hx).trans hgrows

/-- What is read are words of eight states of the pool, each of which is plausible. Free slots may
be more than allocated ones, and releases more than acquisitions, only by what the pool has grown by
between the two looks. If the pool is in the same state all the time, its statistics are read. -/
theorem snapshot_of_states {w w' : World ε} (h : w.Reachable) {id : PoolId} {ps : List (Pool ε)}
    {s : PoolStats} (hrun : Reading id w ps w' (.finished (.observed s))) :
    ∃ p₁ p₂ p₃ p₄ p₅ p₆ p₇ p₈ : Pool ε, ps = [p₁, p₂, p₃, p₄, p₅, p₆, p₇, p₈] ∧
      s = {
        allocated := p₁.allocated
        available := p₂.available
        acquisitions := p₃.counters.acquisitions
        releases := p₄.counters.releases
        growthEvents := p₅.counters.growthEvents
        blocksProvisioned := p₆.counters.blocksProvisioned
        backoffs := p₇.counters.backoffs } ∧
      (∀ p ∈ ps, p.Plausible) ∧ ps.Pairwise Pool.Grows ∧
      s.available ≤ s.allocated + (p₂.allocated - p₁.allocated) ∧
      s.releases ≤
        s.acquisitions + (p₄.counters.acquisitions - p₃.counters.acquisitions) ∧
      ((∀ p ∈ ps, p = p₁) →
        s = p₁.stats ∧ s.available ≤ s.allocated ∧ s.releases ≤ s.acquisitions) := by
  obtain ⟨hsound, hpairs, -⟩ := hrun.states h
  cases hrun.looks with
  | finished seen p hseen =>
    obtain ⟨p₁, p₂, p₃, p₄, p₅, p₆, p₇, rfl⟩ : ∃ p₁ p₂ p₃ p₄ p₅ p₆ p₇,
        seen = [p₁, p₂, p₃, p₄, p₅, p₆, p₇] := by
      match seen, hseen with
      | [p₁, p₂, p₃, p₄, p₅, p₆, p₇], _ => exact ⟨p₁, p₂, p₃, p₄, p₅, p₆, p₇, rfl⟩
    have hfree := (hsound p₂ (by simp)).available_le
    have hreleased := (hsound p₄ (by simp)).releases_le
    refine ⟨p₁, p₂, p₃, p₄, p₅, p₆, p₇, p, rfl, rfl, hsound, hpairs, ?_, ?_, fun hsame => ?_⟩
    · change p₂.available ≤ p₁.allocated + (p₂.allocated - p₁.allocated)
      omega
    · change p₄.counters.releases ≤ p₃.counters.acquisitions +
        (p₄.counters.acquisitions - p₃.counters.acquisitions)
      omega
    · obtain ⟨rfl, rfl, rfl, rfl, rfl, rfl⟩ : p₂ = p₁ ∧ p₃ = p₁ ∧ p₄ = p₁ ∧ p₅ = p₁ ∧ p₆ = p₁ ∧
        p₇ = p₁ := by simp [hsame]
      exact ⟨rfl, hfree, hreleased⟩

/-! ## Statistics that contradict themselves -/

/-- Two clients of an empty pool of pairs: one is asking for a slot, and one for the statistics. -/
def watched : World Nat :=
  ⟨pairArena, [⟨[], some (⟨0⟩, .popOne)⟩, ⟨[], some (⟨0⟩, .readStats)⟩], {}⟩

theorem watched_reachable : watched.Reachable := by
  have h₁ : Reachable ⟨pairArena, [⟨[], some (⟨0⟩, .readStats)⟩, {}], {}⟩ :=
    (fleet_reachable 2 pairs .headroom 100).act (.ask _ [] ⟨0⟩ _ _ rfl .readStats)
  exact h₁.step (.client _ _ _ _ _ _ _ _ (List.Perm.swap _ _ _) (.ask _ [] ⟨0⟩ _ _ rfl .popOne))

/-- The reader has come to the call `c`, and the other client holds `held` and is in `call`. -/
def ReadBeside (a : Arena Nat) (held : List Held) (call : Option (PoolId × Call)) (c : Call) :
    Prop :=
  ∃ ps clients losses, Reading ⟨0⟩ watched ps ⟨a, clients, losses⟩ c ∧
    clients.Perm [⟨held, call⟩, ⟨[], some (⟨0⟩, c)⟩]

section

variable {a a' : Arena Nat} {held held' : List Held} {call call' : Option (PoolId × Call)}
  {c : Call}

theorem readBeside_start : ReadBeside pairArena [] (some (⟨0⟩, .popOne)) .readStats :=
  ⟨[], _, _, .start ⟨[], some (⟨0⟩, .readStats)⟩ (by simp [watched]) rfl, List.Perm.refl _⟩

theorem ReadBeside.look (h : ReadBeside a held call c) (granted : Bool) (hc : c.outcome? = none) :
    ReadBeside (a.step ⟨0⟩ granted c).1 held call (a.step ⟨0⟩ granted c).2 := by
  obtain ⟨ps, clients, losses, hrun, hperm⟩ := h
  have hknown := (whole_of_reachable (hrun.reachable watched_reachable)).known
  obtain ⟨p, hp⟩ := (hknown ⟨[], some (⟨0⟩, c)⟩ (hperm.mem_iff.2 (by simp))).call ⟨0⟩ c rfl
  have hstep := Client.Step.run a _ [] ⟨0⟩ granted c _ hc rfl
  exact ⟨_, _, _, hrun.look hc hp (hperm.trans (List.Perm.swap _ _ _)) hstep,
    List.Perm.swap _ _ _⟩

theorem ReadBeside.turn (h : ReadBeside a held call c) {new : Losses}
    (hs : Client.Step a ⟨held, call⟩ a' ⟨held', call'⟩ new) : ReadBeside a' held' call' c := by
  obtain ⟨ps, clients, losses, hrun, hperm⟩ := h
  refine ⟨ps, _, _, hrun.other ⟨[], some (⟨0⟩, c)⟩ (.client _ _ _ _ _ _ _ _ hperm hs) ?_ rfl,
    List.Perm.refl _⟩
  simp

theorem ReadBeside.proceed {c₁ : Call} (h : ReadBeside a held (some (⟨0⟩, c₁)) c)
    (pause : Call → Bool) (fuel : Nat) :
    ReadBeside (a.proceed (fun _ _ => true) ⟨0⟩ pause fuel ⟨c₁, 0⟩).1 held
      (some (⟨0⟩, (a.proceed (fun _ _ => true) ⟨0⟩ pause fuel ⟨c₁, 0⟩).2.call)) c :=
  Arena.proceed_keeps (P := fun a c₁ => ReadBeside a held (some (⟨0⟩, c₁)) c)
    (fun a c₁ granted hc₁ h => h.turn (.run a _ held ⟨0⟩ granted c₁ _ hc₁ rfl)) _ pause fuel h

end

def lookedOnce : Arena Nat × Call := pairArena.step ⟨0⟩ true .readStats

def takenBeside : Arena Nat × Arena.Progress :=
  lookedOnce.1.proceed (fun _ _ => true) ⟨0⟩ (fun c => c matches .countAcquired ..) 20 ⟨.popOne, 0⟩

def lookedTwice : Arena Nat × Call := takenBeside.1.step ⟨0⟩ true lookedOnce.2

def lookedThrice : Arena Nat × Call := lookedTwice.1.step ⟨0⟩ true lookedTwice.2

def gotBeside : Arena Nat × Arena.Progress :=
  lookedThrice.1.proceed (fun _ _ => true) ⟨0⟩ (fun _ => false) 20 ⟨takenBeside.2.call, 0⟩

def givenBeside : Arena Nat × Arena.Progress :=
  gotBeside.1.proceed (fun _ _ => true) ⟨0⟩ (fun _ => false) 20 ⟨.cleanOne ⟨1⟩, 0⟩

def lookedLast : Arena Nat × Arena.Progress :=
  givenBeside.1.proceed (fun _ _ => true) ⟨0⟩ (fun _ => false) 20 ⟨lookedThrice.2, 0⟩

def torn : PoolStats :=
  { allocated := 0, available := 1, acquisitions := 0, releases := 1, growthEvents := 1,
    blocksProvisioned := 1, backoffs := 0 }

theorem reading_torn : ∃ ps w, Reading ⟨0⟩ watched ps w (.finished (.observed torn)) := by
  have hcalls : lookedOnce.2.outcome? = none ∧ lookedTwice.2.outcome? = none ∧
      gotBeside.2.call = .finished (.acquired (.one ⟨1⟩)) ∧
      (gotBeside.1.pool? ⟨0⟩).isSome = true ∧
      lookedLast.2.call = .finished (.observed torn) := by decide +kernel
  obtain ⟨hone, htwo, hgot, hpool, hlast⟩ := hcalls
  obtain ⟨p, hp⟩ := Option.isSome_iff_exists.1 hpool
  have htaken : ReadBeside takenBeside.1 [] (some (⟨0⟩, takenBeside.2.call)) lookedOnce.2 :=
    (readBeside_start.look true rfl).proceed _ 20
  have hthrice : ReadBeside lookedThrice.1 [] (some (⟨0⟩, takenBeside.2.call)) lookedThrice.2 :=
    (htaken.look true hone).look true htwo
  have hacquired : ReadBeside gotBeside.1 [] (some (⟨0⟩, gotBeside.2.call)) lookedThrice.2 :=
    hthrice.proceed (fun _ => false) 20
  rw [hgot] at hacquired
  have hheld := hacquired.turn (.receive gotBeside.1 [] ⟨0⟩ (.one ⟨1⟩) false (.slot ⟨1⟩) rfl)
  have hgiving := hheld.turn (.give gotBeside.1 _ [] (.slot ⟨1⟩) .slot ⟨0⟩ p (.cleanOne ⟨1⟩)
    (List.Perm.refl _) hp rfl)
  have hgiven : ReadBeside givenBeside.1 [] (some (⟨0⟩, givenBeside.2.call)) lookedThrice.2 :=
    hgiving.proceed (fun _ => false) 20
  have hread : ReadBeside lookedLast.1 [] (some (⟨0⟩, givenBeside.2.call)) lookedLast.2.call :=
    Arena.proceed_keeps (P := fun a c => ReadBeside a [] (some (⟨0⟩, givenBeside.2.call)) c)
      (fun a c granted hc h => h.look granted hc) _ _ 20 hgiven
  rw [hlast] at hread
  obtain ⟨ps, clients, losses, hrun, -⟩ := hread
  exact ⟨ps, _, hrun⟩

/-- Between the first two looks the pool grows, so that more slots are free than were allocated, and
between the third and the fourth a slot is acquired and given back. -/
theorem snapshot_of_states_torn :
    watched.Reachable ∧ ∃ ps w, Reading ⟨0⟩ watched ps w (.finished (.observed torn)) ∧
      ∃ p₁ ∈ ps, ∃ p₂ ∈ ps, p₁.allocated = 0 ∧ p₂.available = 1 ∧ 1 ≤ p₂.allocated := by
  obtain ⟨ps, w, hrun⟩ := reading_torn
  obtain ⟨p₁, p₂, p₃, p₄, p₅, p₆, p₇, p₈, rfl, hs, hsound, -, hle, -, -⟩ :=
    snapshot_of_states watched_reachable hrun
  have hallocated : 0 = p₁.allocated := congrArg PoolStats.allocated hs
  have havailable : 1 = p₂.available := congrArg PoolStats.available hs
  refine ⟨watched_reachable, _, w, hrun, p₁, by simp, p₂, by simp, hallocated.symm,
    havailable.symm, ?_⟩
  have := (hsound p₂ (by simp)).available_le
  omega

/-- Statistics that are read while others use the pool need not fit together. -/
theorem not_plausible_of_reading :
    ¬ ∀ (w w' : World Nat) id ps s, w.Reachable → Reading id w ps w' (.finished (.observed s)) →
      s.available ≤ s.allocated ∧ s.releases ≤ s.acquisitions := by
  intro hsound
  obtain ⟨ps, w, hrun⟩ := reading_torn
  exact absurd (hsound watched w ⟨0⟩ ps torn watched_reachable hrun).1 (by decide)

end World

end SlotPool
