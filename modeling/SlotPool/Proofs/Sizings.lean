import SlotPool.Cli.Sizing
import SlotPool.Proofs.Alone
import SlotPool.Proofs.Configs
import Mathlib.Order.Bounds.Basic

/-!
# What the two policies come to

A fresh pool that is asked for slots all at once grows to the blocks that its policy says, and what
is left over of them is free. With the exact fit these are as few as cover the request, and with
headroom as few as have more than that. How long a call waits for another one has no part in it.
-/

namespace SlotPool

open Memory

variable {ε : Type}

/-! ## Pools that wait longer -/

namespace Pool

def withBackoff (p : Pool ε) (micros : Nat) : Pool ε := { p with backoffMicros := micros }

end Pool

theorem Call.step_withBackoff (id : PoolId) (granted : Bool) (m : Memory ε) (p : Pool ε)
    (micros : Nat) (c : Call) :
    ∃ e, c.step id granted m (p.withBackoff micros) =
      ((c.step id granted m p).1, (c.step id granted m p).2.1.withBackoff micros, e,
        (c.step id granted m p).2.2.2) := by
  cases c with
  | popOne =>
    rcases hpop : p.free.pop m with ⟨m', free, _ | s⟩ <;>
      exact ⟨none, by simp only [Call.step, Pool.withBackoff, hpop]⟩
  | claimGrowth =>
    cases hgrowing : p.growing <;>
      exact ⟨none, by simp [Call.step, Pool.withBackoff, hgrowing]⟩
  | popMany count =>
    by_cases hcount : count ≤ p.free.length
    · rcases hsplit : p.free.split m count with ⟨m', v | ⟨st, free⟩⟩ <;>
        exact ⟨none, by simp only [Call.step, Pool.withBackoff, hcount, if_true, hsplit]⟩
    · refine ⟨none, ?_⟩
      simp only [Call.step, Pool.withBackoff, hcount, if_false]
      rfl
  | carve count deficit taken fresh =>
    rcases hsplit : fresh.split m deficit with ⟨m', v | ⟨needed, surplus⟩⟩ <;>
      exact ⟨none, by simp only [Call.step, Pool.withBackoff, hsplit]⟩
  | cleanOne s =>
    rcases hclean : cleanAll id p.strategy.pristine m [s] with ⟨m', _ | v⟩ <;>
      exact ⟨none, by simp only [Call.step, Pool.withBackoff, hclean]⟩
  | cleanMany st =>
    by_cases hempty : st.isEmpty = true
    · exact ⟨none, by simp only [Call.step, Pool.withBackoff, hempty, if_true]⟩
    · rcases hclean : cleanAll id p.strategy.pristine m (st.slots m) with ⟨m', _ | v⟩ <;>
        exact ⟨none, by simp [Call.step, Pool.withBackoff, hempty, hclean]⟩
  | observe left seen =>
    cases left with
    | nil => exact ⟨none, rfl⟩
    | cons gauge left => exact ⟨none, by cases gauge <;> rfl⟩
  | _ => exact ⟨_, rfl⟩

namespace Arena

/-- The arenas differ only in how long calls to their pools wait, and in the journal. -/
structure Alike (micros : Nat) (a a' : Arena ε) : Prop where
  memory : a'.memory = a.memory
  pools : ∀ id, a'.pool? id = (a.pool? id).map (·.withBackoff micros)

theorem Alike.step {micros : Nat} {a a' : Arena ε} {id : PoolId} {p : Pool ε}
    (h : Alike micros a a') (hp : a.pool? id = some p) (granted : Bool) (c : Call) :
    Alike micros (a.step id granted c).1 (a'.step id granted c).1 ∧
      (a'.step id granted c).2 = (a.step id granted c).2 ∧
      ∃ p', (a.step id granted c).1.pool? id = some p' := by
  obtain ⟨e', hs'⟩ := Call.step_withBackoff id granted a.memory p micros c
  rcases hs : c.step id granted a.memory p with ⟨m₁, p₁, e, c₁⟩
  rw [hs] at hs'
  have hp' : a'.pool? id = some (p.withBackoff micros) := by rw [h.pools, hp, Option.map_some]
  obtain ⟨a₁, ha₁, hm₁, hpools₁⟩ := exists_step hp hs
  obtain ⟨a₂, ha₂, hm₂, hpools₂⟩ := exists_step hp' (h.memory.symm ▸ hs')
  rw [ha₁, ha₂]
  refine ⟨⟨hm₂.trans hm₁.symm, fun other => ?_⟩, rfl, p₁, by rw [hpools₁, if_pos rfl]⟩
  rw [hpools₂, hpools₁]
  split
  · rfl
  · exact h.pools other

theorem Alike.proceed {micros : Nat} {id : PoolId} (allocator : Allocator) (pause : Call → Bool)
    (fuel : Nat) {a a' : Arena ε} {p : Pool ε} (h : Alike micros a a') (hp : a.pool? id = some p)
    (c : Progress) :
    Alike micros (a.proceed allocator id pause fuel c).1 (a'.proceed allocator id pause fuel c).1 ∧
      (a'.proceed allocator id pause fuel c).2 = (a.proceed allocator id pause fuel c).2 := by
  induction fuel generalizing a a' p c with
  | zero => exact ⟨h, rfl⟩
  | succ fuel ih =>
    obtain ⟨c, made⟩ := c
    unfold Arena.proceed
    split
    · exact ⟨h, rfl⟩
    · have hr : a'.reservation? id c = a.reservation? id c := by
        rw [reservation?, reservation?, h.pools, hp]
        rfl
      rw [hr]
      cases a.reservation? id c with
      | none =>
        obtain ⟨hnext, hc, p', hp'⟩ := h.step hp true c
        simp only [hc]
        exact ih hnext hp' _
      | some r =>
        obtain ⟨hnext, hc, p', hp'⟩ := h.step hp (allocator made r) c
        simp only [hc]
        exact ih hnext hp' _

end Arena

/-! ## Blocks for a request -/

namespace GrowthPolicy

/-- The sizes that a policy is content with when `count` slots are asked for at once. -/
def enough (blockSize count : Nat) : GrowthPolicy → Set Nat
  | .headroom => {n | blockSize ∣ n ∧ (0 < count → count < n)}
  | .exactFit => {n | blockSize ∣ n ∧ count ≤ n}

variable {policy : GrowthPolicy} {count blockSize blocks : Nat}

theorem blocksFor_le (hsize : 0 < blockSize) (h : policy.blocksFor count blockSize = some blocks) :
    blocks ≤ count / blockSize + 1 := by
  cases policy with
  | headroom =>
    obtain ⟨-, rfl⟩ := Word.add?_eq_some.1 h
    exact Nat.le_refl _
  | exactFit =>
    obtain rfl := Option.some.inj h
    refine Nat.max_le.2 ⟨?_, Nat.le_add_left 1 _⟩
    rw [← Nat.add_div_right count hsize]
    exact Nat.div_le_div_right (by omega)

theorem isLeast_blocksFor (hsize : 0 < blockSize) (hcount : 0 < count)
    (h : policy.blocksFor count blockSize = some blocks) :
    IsLeast (policy.enough blockSize count) (blocks * blockSize) := by
  cases policy with
  | headroom =>
    obtain ⟨-, rfl⟩ := Word.add?_eq_some.1 h
    refine ⟨⟨Nat.dvd_mul_left _ _, fun _ => ?_⟩, ?_⟩
    · exact Nat.lt_mul_of_div_lt (Nat.lt_succ_self _) hsize
    · rintro n ⟨⟨k, rfl⟩, hn⟩
      rw [Nat.mul_comm]
      exact Nat.mul_le_mul_left _ (Nat.div_lt_of_lt_mul (hn hcount))
  | exactFit =>
    obtain rfl := Option.some.inj h
    have hpos : 1 ≤ (count + (blockSize - 1)) / blockSize := by
      rw [Nat.le_div_iff_mul_le hsize]
      omega
    rw [Nat.max_eq_left hpos]
    refine ⟨⟨Nat.dvd_mul_left _ _, ?_⟩, ?_⟩
    · have hrest := Nat.div_add_mod (count + (blockSize - 1)) blockSize
      have hmod := Nat.mod_lt (count + (blockSize - 1)) hsize
      have hcomm := Nat.mul_comm ((count + (blockSize - 1)) / blockSize) blockSize
      omega
    · rintro n ⟨⟨k, rfl⟩, hn⟩
      rw [Nat.mul_comm]
      refine Nat.mul_le_mul_left _ (Nat.le_of_lt_succ (Nat.div_lt_of_lt_mul ?_))
      rw [Nat.mul_succ]
      omega

end GrowthPolicy

namespace Pool

variable {strategy : Strategy ε} {policy : GrowthPolicy} {backoffMicros count : Nat}

theorem blocksAhead_fresh : (fresh strategy policy backoffMicros).blocksAhead count =
    if count = 0 then 0 else (policy.blocksFor count strategy.blockSize).getD 0 := by
  rw [blocksAhead]
  simp only [fresh, Nat.le_zero, Nat.sub_zero]
  rfl

theorem blocksAhead_fresh_le (strategy : Strategy ε) (policy : GrowthPolicy)
    (backoffMicros count : Nat) :
    (fresh strategy policy backoffMicros).blocksAhead count ≤ count / strategy.blockSize + 1 := by
  rw [blocksAhead_fresh]
  split
  · exact Nat.zero_le _
  · cases hfor : policy.blocksFor count strategy.blockSize with
    | none => exact Nat.zero_le _
    | some blocks => exact GrowthPolicy.blocksFor_le strategy.blockSize_pos hfor

end Pool

/-! ## The table -/

namespace Cli.Sizing

/-- The arena of one pool, and a call for `count` slots that has come to its end there. -/
def request (allocator : Allocator) (p : Pool Int) (count : Nat) : Arena Int × Arena.Progress :=
  (({} : Arena Int).addPool p).complete allocator ⟨0⟩ { call := .popMany count }

/-- What a call for `count` slots comes to in a fresh pool of the configuration with this policy. -/
def outcome? (allocator : Allocator) (c : Config) (count : Nat) (policy : GrowthPolicy) :
    Option Outcome :=
  match Pool.ofConfig (ItemType.number 0).layout { c with growthPolicy := policy } with
  | .ok p => (request allocator p count).2.call.outcome?
  | .error _ => none

def Succeeds (allocator : Allocator) (c : Config) (count : Nat) (policy : GrowthPolicy) : Prop :=
  ∃ slots, outcome? allocator c count policy = some (.acquired slots)

/-- A row for `count` slots in blocks of this size: as few blocks as the policy is content with, and
free what was not asked for. -/
structure Row.Meets (blockSize count : Nat) (policy : GrowthPolicy) (r : Row) : Prop where
  least : IsLeast (policy.enough blockSize count) r.allocated
  allocated : r.blocks * blockSize = r.allocated
  available : r.available + count = r.allocated
  policy : r.policy = policy

variable {c c' : Config} {allocator : Allocator} {count : Nat} {policy : GrowthPolicy}

theorem ofConfig_eq (hc : c.validate = .ok ()) (policy : GrowthPolicy) :
    ∃ hsize : 0 < c.blockSize,
      Pool.ofConfig (ItemType.number 0).layout { c with growthPolicy := policy } =
        .ok (.fresh (.objects (ItemType.number 0).layout c.blockSize hsize) policy
          c.backoffMicros) := by
  have hvalid : ({ c with growthPolicy := policy } : Config).validate = .ok () := hc
  have hsize : 0 < c.blockSize := (Config.fault?_eq_none.1 (Config.validate_eq_ok.1 hc)).1
  refine ⟨hsize, ?_⟩
  simp only [Pool.ofConfig, hvalid, bind, Except.bind, hsize, dite_true]
  rfl

def opened (p : Pool Int) : Session Int where
  item := .number 0
  arena := ({} : Arena Int).addPool p

theorem perform_newPool {p : Pool Int} (hp : Pool.ofConfig (ItemType.number 0).layout c = .ok p)
    (allocator : Allocator) :
    ({ item := .number 0 } : Session Int).perform allocator (.newPool (.config c)) =
      (opened p, .ok (.pool 0)) := by
  have hmade : Session.makePool (ItemType.number 0) (.config c) = .ok p := by
    simp only [Session.makePool, Session.makePool.ofConfig]
    rw [if_neg (by decide), hp]
    rfl
  simp only [Session.perform, Session.start, Session.newPool, hmade]
  rfl

theorem rests_opened {p : Pool Int} (hp : Pool.ofConfig (ItemType.number 0).layout c = .ok p) :
    Session.Rests (.number 0) (opened p) :=
  Session.Rests.of_perform (.inl rfl) (perform_newPool hp Session.granting)

theorem start_acquireStack (p : Pool Int) (count : Nat) :
    (opened p).start (.acquireStack 0 count false "request") =
      (opened p, .call ⟨0⟩ (.popMany count) (.keep "request" false none)) := rfl

theorem row_eq {p : Pool Int}
    (hp : Pool.ofConfig (ItemType.number 0).layout { c with growthPolicy := policy } = .ok p) :
    row allocator c count policy =
      match (opened p).perform allocator (.acquireStack 0 count false "request") with
      | (s, .ok _) =>
        match s.pool? 0 with
        | some p => .ok ⟨policy, p.blocks.length, p.allocated, p.available⟩
        | none => .error (.refused .noSuchPool)
      | (_, .error f) => .error f := by
  simp only [row, Session.performAll, perform_newPool hp]
  rcases (opened p).perform allocator (.acquireStack 0 count false "request") with ⟨s, f | reply⟩
  · rfl
  · simp only [bind, Except.bind]
    cases s.pool? 0 <;> rfl

theorem meets_of_exact {strategy : Strategy Int} {p : Pool Int} (backoffMicros : Nat)
    (hs : p.strategy = strategy)
    (hb : p.blocks.length = (Pool.fresh strategy policy backoffMicros).blocksAhead count)
    (he : p.Exact count) :
    Row.Meets strategy.blockSize count policy
      ⟨policy, p.blocks.length, p.allocated, p.available⟩ := by
  have hsize : p.blockSize = strategy.blockSize := congrArg Strategy.blockSize hs
  have hallocated : p.blocks.length * strategy.blockSize = p.allocated :=
    hsize ▸ he.allocated_eq.symm
  refine ⟨?_, hallocated, he.held_eq.symm, rfl⟩
  rw [← hallocated]
  rw [Pool.blocksAhead_fresh] at hb
  split at hb
  · rename_i hcount
    rw [hb, Nat.zero_mul, hcount]
    refine ⟨?_, fun n _ => Nat.zero_le n⟩
    cases policy with
    | headroom => exact ⟨Nat.dvd_zero _, fun h => h⟩
    | exactFit => exact ⟨Nat.dvd_zero _, Nat.le_refl _⟩
  · rename_i hcount
    cases hfor : policy.blocksFor count strategy.blockSize with
    | none =>
      -- A request for so many blocks fails, so that the pool does not have the slots.
      have hnone : p.blocks.length = 0 := by rw [hb, hfor, Option.getD_none]
      rw [hnone, Nat.zero_mul] at hallocated
      have := he.held_eq
      omega
    | some blocks =>
      rw [hb, hfor, Option.getD_some]
      exact GrowthPolicy.isLeast_blocksFor strategy.blockSize_pos (Nat.pos_of_ne_zero hcount) hfor

theorem row_cases (hc : c.validate = .ok ()) (allocator : Allocator) (count : Nat)
    (policy : GrowthPolicy) :
    (Succeeds allocator c count policy ∧
      ∃ r, row allocator c count policy = .ok r ∧ r.Meets c.blockSize count policy) ∨
    ∃ e, outcome? allocator c count policy = some (.failed e) ∧
      row allocator c count policy = .error (.error e) := by
  obtain ⟨hsize, hp⟩ := ofConfig_eq hc policy
  generalize hstrategy : Strategy.objects (ItemType.number 0).layout c.blockSize hsize = strategy
    at hp
  have hblock : strategy.blockSize = c.blockSize := by rw [← hstrategy]; rfl
  have hrests := rests_opened hp
  generalize hfresh : Pool.fresh strategy policy c.backoffMicros = p at hp hrests
  have hfuel : 3 * p.blocksAhead count + 8 ≤
      (opened p).arena.patience ⟨0⟩ (.popMany count) := by
    have hle := Pool.blocksAhead_fresh_le strategy policy c.backoffMicros count
    rw [hfresh] at hle
    change _ ≤ 3 * (count / p.strategy.blockSize + 1) + 32
    rw [show p.strategy = strategy by rw [← hfresh]; rfl]
    omega
  have hends : Call.Ends allocator ⟨0⟩ (fun _ => Call.GotMany p count (p.blocksAhead count))
      (3 * p.blocksAhead count + 8) (opened p).arena.memory p (.popMany count) 0 :=
    Call.popMany_ends count
  obtain ⟨a, p', o, made, hdone, hpools, hgot⟩ := hends.complete rfl hfuel
  have houtcome : outcome? allocator c count policy = some o := by
    simp only [outcome?, hp]
    exact congrArg (fun x => x.2.call.outcome?) hdone
  have hp' : a.pool? ⟨0⟩ = some p' := by rw [hpools, if_pos rfl]
  rw [houtcome, row_eq hp, Succeeds, houtcome]
  cases hgot with
  | broken v => cases hrests.breaks_of_broken (start_acquireStack _ count) hdone
  | failed e =>
    right
    rw [Session.perform_failed (start_acquireStack _ count) hdone]
    exact ⟨e, rfl, rfl⟩
  | acquired st hs hb ha hr =>
    left
    obtain ⟨x, -, hperform⟩ := hrests.perform_acquired (start_acquireStack _ count) hdone rfl
    obtain ⟨held, hexact⟩ := (hrests.of_perform hperform).exact ⟨0⟩ hp'
    have hheld : held = count := by
      have hacquired := hexact.acquired_eq
      rw [ha, hr, ← hfresh] at hacquired
      simpa [Pool.fresh] using hacquired.symm
    subst hheld
    rw [hperform]
    refine ⟨⟨_, rfl⟩, ⟨policy, p'.blocks.length, p'.allocated, p'.available⟩, ?_, ?_⟩
    · simp only [Session.pool?]
      rw [show a.pools[0]? = some p' from hp']
    · rw [← hblock]
      refine meets_of_exact c.backoffMicros ?_ ?_ hexact
      · rw [hs, ← hfresh]
        rfl
      · rw [hb, hfresh, ← hfresh]
        exact Nat.zero_add _

/-! ## What the table does not depend on -/

theorem alike_addPool (p : Pool Int) (micros : Nat) :
    Arena.Alike micros (({} : Arena Int).addPool p)
      (({} : Arena Int).addPool (p.withBackoff micros)) := by
  refine ⟨rfl, fun id => ?_⟩
  obtain ⟨index⟩ := id
  cases index with
  | zero => rfl
  | succ index => simp [Arena.pool?, Arena.addPool]

theorem request_withBackoff (p : Pool Int) (micros : Nat) :
    (request allocator (p.withBackoff micros) count).2 = (request allocator p count).2 :=
  ((alike_addPool p micros).proceed allocator _ _
    (show (({} : Arena Int).addPool p).pool? ⟨0⟩ = some p from rfl) _).2

theorem outcome?_congr (allocator : Allocator) (count : Nat) (hc : c.validate = .ok ())
    (hc' : c'.validate = .ok ()) (hb : c'.blockSize = c.blockSize) (policy : GrowthPolicy) :
    outcome? allocator c' count policy = outcome? allocator c count policy := by
  obtain ⟨hsize, hp⟩ := ofConfig_eq hc policy
  obtain ⟨hsize', hp'⟩ := ofConfig_eq hc' policy
  have hsame : Pool.fresh (.objects (ItemType.number 0).layout c'.blockSize hsize') policy
      c'.backoffMicros =
      (Pool.fresh (.objects (ItemType.number 0).layout c.blockSize hsize) policy
        c.backoffMicros).withBackoff c'.backoffMicros := by
    simp only [hb]
    rfl
  rw [outcome?, outcome?, hp, hp', hsame]
  simp only [request_withBackoff]

theorem Row.Meets.unique {blockSize : Nat} {r r' : Row} (hsize : 0 < blockSize)
    (h : r.Meets blockSize count policy) (h' : r'.Meets blockSize count policy) : r = r' := by
  obtain ⟨p, blocks, allocated, available⟩ := r
  obtain ⟨p', blocks', allocated', available'⟩ := r'
  obtain ⟨hleast, hallocated, havailable, rfl⟩ := h
  obtain ⟨hleast', hallocated', havailable', rfl⟩ := h'
  simp only at *
  obtain rfl := hleast.unique hleast'
  obtain rfl : available = available' := by omega
  obtain rfl : blocks = blocks' :=
    Nat.eq_of_mul_eq_mul_right hsize (hallocated.trans hallocated'.symm)
  rfl

theorem row_congr (hc : c.validate = .ok ()) (hc' : c'.validate = .ok ())
    (hb : c'.blockSize = c.blockSize) (policy : GrowthPolicy) :
    row allocator c' count policy = row allocator c count policy := by
  have hsize : 0 < c.blockSize := (ofConfig_eq hc policy).1
  have hsame := outcome?_congr allocator count hc hc' hb policy
  rcases row_cases hc allocator count policy with ⟨⟨slots, ho⟩, r, hr, hm⟩ | ⟨e, ho, hr⟩ <;>
    rcases row_cases hc' allocator count policy with ⟨⟨slots', ho'⟩, r', hr', hm'⟩ | ⟨e', ho', hr'⟩
  · rw [hb] at hm'
    rw [hr, hr', hm'.unique hsize hm]
  · simp [ho, ho'] at hsame
  · simp [ho, ho'] at hsame
  · obtain rfl : e' = e := by simpa [ho, ho'] using hsame
    rw [hr, hr']

theorem rows_congr {allocators : GrowthPolicy → Allocator} (hc : c.validate = .ok ())
    (hc' : c'.validate = .ok ()) (hb : c'.blockSize = c.blockSize) (ps : List GrowthPolicy) :
    rows allocators c' count ps = rows allocators c count ps := by
  induction ps with
  | nil => rfl
  | cons policy ps ih => rw [rows, rows, row_congr hc hc' hb, ih]

/-! ## Both rows -/

/-- What the rows of headroom and of the exact fit say. -/
structure Table (blockSize count : Nat) (headroom exactFit : Row) : Prop where
  headroom_policy : headroom.policy = .headroom
  exactFit_policy : exactFit.policy = .exactFit
  exactFit_least : IsLeast {n | blockSize ∣ n ∧ count ≤ n} exactFit.allocated
  headroom_least : 0 < count → IsLeast {n | blockSize ∣ n ∧ count < n} headroom.allocated
  headroom_none : count = 0 → headroom.allocated = 0
  blocks : ∀ r ∈ [headroom, exactFit], r.blocks * blockSize = r.allocated
  available : ∀ r ∈ [headroom, exactFit], count ≤ r.allocated ∧ r.available = r.allocated - count
  one_more : 0 < count → blockSize ∣ count → headroom.blocks = exactFit.blocks + 1
  same : ¬ (0 < count ∧ blockSize ∣ count) → headroom = { exactFit with policy := .headroom }

theorem table_of_meets {blockSize : Nat} {h e : Row} (hsize : 0 < blockSize)
    (hh : h.Meets blockSize count .headroom) (he : e.Meets blockSize count .exactFit) :
    Table blockSize count h e := by
  have hmore : 0 < count → GrowthPolicy.enough blockSize count .headroom =
      {n | blockSize ∣ n ∧ count < n} := by
    intro hcount
    ext n
    simp [GrowthPolicy.enough, hcount]
  refine ⟨hh.policy, he.policy, he.least, fun hcount => hmore hcount ▸ hh.least, ?_, ?_, ?_, ?_, ?_⟩
  · rintro rfl
    refine Nat.le_zero.1 (hh.least.2 ⟨Nat.dvd_zero _, fun h => h⟩)
  · simp [hh.allocated, he.allocated]
  · have hfree := hh.available
    have hfree' := he.available
    simp
    omega
  · intro hcount hdvd
    have hexact : e.allocated = count :=
      he.least.unique ⟨⟨hdvd, Nat.le_refl _⟩, fun n hn => hn.2⟩
    have hroom : h.allocated = count + blockSize := by
      refine hh.least.unique ⟨⟨(Nat.dvd_add_right hdvd).2 (Nat.dvd_refl _), fun _ => by omega⟩, ?_⟩
      rintro n ⟨hn, hlt⟩
      have hgap := Nat.le_of_dvd (Nat.sub_pos_of_lt (hlt hcount)) (Nat.dvd_sub hn hdvd)
      have := hlt hcount
      omega
    refine Nat.eq_of_mul_eq_mul_right hsize ?_
    rw [hh.allocated, hroom, Nat.add_mul, he.allocated, hexact, Nat.one_mul]
  · intro hcount
    have hsame : GrowthPolicy.enough blockSize count .headroom =
        GrowthPolicy.enough blockSize count .exactFit := by
      ext n
      constructor
      · rintro ⟨hn, hlt⟩
        refine ⟨hn, ?_⟩
        rcases Nat.eq_zero_or_pos count with rfl | hpos
        · exact Nat.zero_le _
        · exact Nat.le_of_lt (hlt hpos)
      · rintro ⟨hn, hle⟩
        refine ⟨hn, fun hpos => Nat.lt_of_le_of_ne hle ?_⟩
        rintro rfl
        exact hcount ⟨hpos, hn⟩
    exact hh.unique hsize ⟨hsame ▸ he.least, he.allocated, he.available, rfl⟩

variable {allocators : GrowthPolicy → Allocator}

theorem report_of_rows (rs : List Row) (h : rows allocators c count policies = (rs, none)) :
    report allocators c count = .ofTexts (heading c count ++ rs.map Row.line ++ [""]) := by
  rw [report, h]

theorem report_of_failure (rs : List Row) (f : Failure)
    (h : rows allocators c count policies = (rs, some f)) :
    report allocators c count =
      { lines := (heading c count ++ rs.map Row.line).map .text,
        fault := some (.ofFailure f) } := by
  rw [report, h]
  simp [Report.andThen, Report.ofTexts, Report.ofFailure, Report.ofFault]

/-- The table for every valid configuration. Each policy's request has the slots or fails, and then
the command fails in the same way and shows the rows before. The rows say how far each policy goes,
and depend on the size of a block only. -/
theorem table_of_policies (c : Config) (hc : c.validate = .ok ())
    (allocators : GrowthPolicy → Allocator) (count : Nat) :
    (∀ policy, Succeeds (allocators policy) c count policy ∨
      ∃ error, outcome? (allocators policy) c count policy = some (.failed error)) ∧
    (Succeeds (allocators .headroom) c count .headroom →
      Succeeds (allocators .exactFit) c count .exactFit →
      ∃ h e, Table c.blockSize count h e ∧
        report allocators c count = .ofTexts (heading c count ++ [h.line, e.line, ""])) ∧
    (∀ error, outcome? (allocators .headroom) c count .headroom = some (.failed error) →
      report allocators c count =
        { lines := (heading c count).map .text, fault := some (.ofFailure (.error error)) }) ∧
    (∀ error, Succeeds (allocators .headroom) c count .headroom →
      outcome? (allocators .exactFit) c count .exactFit = some (.failed error) →
      ∃ h : Row, h.Meets c.blockSize count .headroom ∧
        report allocators c count =
          { lines := (heading c count ++ [h.line]).map .text,
            fault := some (.ofFailure (.error error)) }) ∧
    ∀ c', c'.validate = .ok () → c'.blockSize = c.blockSize →
      report allocators c' count = report allocators c count := by
  have hsize : 0 < c.blockSize := (ofConfig_eq hc .headroom).1
  have hrow : ∀ policy, Succeeds (allocators policy) c count policy →
      ∃ r, row (allocators policy) c count policy = .ok r ∧ r.Meets c.blockSize count policy := by
    rintro policy ⟨slots, ho⟩
    rcases row_cases hc (allocators policy) count policy with ⟨-, hr⟩ | ⟨e, ho', -⟩
    · exact hr
    · simp [ho] at ho'
  have hfails : ∀ policy error,
      outcome? (allocators policy) c count policy = some (.failed error) →
      row (allocators policy) c count policy = .error (.error error) := by
    intro policy error ho
    rcases row_cases hc (allocators policy) count policy with ⟨⟨slots, ho'⟩, -⟩ | ⟨e, ho', hr⟩
    · simp [ho] at ho'
    · obtain rfl : error = e := by simpa [ho] using ho'
      exact hr
  refine ⟨fun policy => ?_, fun hh he => ?_, fun error hf => ?_, fun error hh hf => ?_,
    fun c' hc' hb => ?_⟩
  · exact (row_cases hc (allocators policy) count policy).imp And.left fun ⟨e, ho, _⟩ => ⟨e, ho⟩
  · obtain ⟨h, hr, hm⟩ := hrow .headroom hh
    obtain ⟨e, hr', hm'⟩ := hrow .exactFit he
    refine ⟨h, e, table_of_meets hsize hm hm', ?_⟩
    rw [report_of_rows [h, e] (by simp [policies, rows, hr, hr'])]
    simp
  · rw [report_of_failure [] (.error error)
      (by simp [policies, rows, hfails .headroom error hf])]
    simp
  · obtain ⟨h, hr, hm⟩ := hrow .headroom hh
    refine ⟨h, hm, ?_⟩
    rw [report_of_failure [h] (.error error)
      (by simp [policies, rows, hr, hfails .exactFit error hf])]
    simp
  · have hheading : heading c' count = heading c count := by rw [heading, heading, hb]
    rw [report, report, rows_congr hc hc' hb, hheading]

def scarce : GrowthPolicy → Allocator
  | .headroom => Session.granting
  | .exactFit => fun _ _ => false

theorem table_of_policies_pairs :
    ({ blockSize := 2 } : Config).validate = .ok () ∧
    (∃ h e, Table 2 4 h e ∧ report (fun _ => Session.granting) { blockSize := 2 } 4 =
      .ofTexts (heading { blockSize := 2 } 4 ++ [h.line, e.line, ""])) ∧
    ∃ h : Row, h.Meets 2 4 .headroom ∧ report scarce { blockSize := 2 } 4 =
      { lines := (heading { blockSize := 2 } 4 ++ [h.line]).map .text,
        fault := some (.ofFailure (.error (.outOfMemory 2 24))) } := by
  have hvalid : ({ blockSize := 2 } : Config).validate = .ok () := by rfl
  have hheadroom : outcome? Session.granting { blockSize := 2 } 4 .headroom =
      some (.acquired (.many ⟨some ⟨5⟩, some ⟨2⟩, 4⟩)) := by decide +kernel
  have hexactFit : outcome? Session.granting { blockSize := 2 } 4 .exactFit =
      some (.acquired (.many ⟨some ⟨3⟩, some ⟨0⟩, 4⟩)) := by decide +kernel
  have hscarce : outcome? (scarce .exactFit) { blockSize := 2 } 4 .exactFit =
      some (.failed (.outOfMemory 2 24)) := by decide +kernel
  obtain ⟨-, hboth, -⟩ := table_of_policies { blockSize := 2 } hvalid (fun _ => Session.granting) 4
  obtain ⟨-, -, -, hsecond, -⟩ := table_of_policies { blockSize := 2 } hvalid scarce 4
  exact ⟨hvalid, hboth ⟨_, hheadroom⟩ ⟨_, hexactFit⟩, hsecond _ ⟨_, hheadroom⟩ hscarce⟩

end Cli.Sizing

end SlotPool
