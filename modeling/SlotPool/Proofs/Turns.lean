import SlotPool.Proofs.Pace

/-!
# Threads that take turns come to an end

In a sweep each thread takes a step. If none of them gets anything done, all that are not done look
for a slot in vain, and the next one to find a slot comes nearer: the growth flag is lowered, a
thread raises it, that thread brings slots, and one that looks for a slot finds it. As that takes no
more than so many sweeps, the patience of a plan is enough for all that its threads have to do.
-/

namespace SlotPool

variable {ε : Type}

/-! ## Turns -/

namespace Crew

def Calls (c : Crew ε) (i : Nat) (call : Call) : Prop :=
  ∃ t, c.threads[i]? = some t ∧ t.call? = some (⟨0⟩, call)

theorem turn_of_isDone {c : Crew ε} {i : Nat} (limit : Nat)
    (h : ∀ t, c.threads[i]? = some t → t.isDone = true) : c.turn limit i = c := by
  cases ht : c.threads[i]? with
  | none => exact advance_none _ ht
  | some t =>
    have hstep : ∀ granted, t.step c.item granted c.arena = (c.arena, t) := by
      intro granted
      unfold Thread.step
      rw [if_pos (h t ht)]
    have hset : c.threads.setIfInBounds i t = c.threads := by
      obtain ⟨hlt, rfl⟩ := Array.getElem?_eq_some_iff.1 ht
      simp [Array.setIfInBounds, hlt]
    obtain ⟨granted, hturn, -⟩ := exists_turn limit c i
    rw [hturn, advance_eq granted ht, hstep, hset]

theorem IsWorld.exists_guard {c : Crew ε} (h : c.IsWorld) {p : Pool ε}
    (hp : c.arena.pool? ⟨0⟩ = some p) (hraised : p.growing = true) :
    ∃ i call, c.Calls i call ∧ call.guards = true := by
  obtain ⟨clients, losses, ks, hr, hc, hm⟩ := h
  have hcount : clients.countP (·.guards ⟨0⟩) = p.growing.toNat :=
    World.guarded_of_reachable hr ⟨0⟩ p hp
  have hpos : 0 < clients.countP (·.guards ⟨0⟩) := by
    rw [hcount, hraised]
    decide
  obtain ⟨k, hk, hguards⟩ := List.countP_pos_iff.1 hpos
  obtain ⟨i, hi⟩ := List.getElem?_of_mem (hc.mem_iff.1 hk)
  obtain ⟨t, ht, hmatches, -⟩ := forall₂_set hm.flip hi
  obtain ⟨held, call⟩ := k
  cases call with
  | none => cases hguards
  | some call =>
    obtain ⟨id, call⟩ := call
    obtain ⟨rfl, hguards⟩ : id = ⟨0⟩ ∧ call.guards = true := by
      simpa [Client.guards] using hguards
    exact ⟨i, call, ⟨t, by simpa using ht, hmatches.call.symm⟩, hguards⟩

end Crew

namespace World.Has

theorem lone {rest : List Client} {a : Arena ε} {held : List Held} {id : PoolId} {c : Call}
    {p : Pool ε} (h : Has rest a held (some (id, c))) (hp : a.pool? id = some p) :
    c.guards = true → c.Lone p.blockSize := by
  obtain ⟨l, clients, losses, hr, hc, hl⟩ := h
  exact lone_of_reachable hr _ (hc.mem_iff.2 List.mem_cons_self) id c p rfl hp

end World.Has

namespace Cli.Stress

/-- In its turn thread `i` looks for a slot and does not find it. -/
structure Waits (c c' : Crew Int) (i : Nat) (call call' : Call) (p p' : Pool Int) : Prop where
  before : c.Calls i call
  after : c'.Calls i call'
  others : ∀ j, j ≠ i → c'.threads[j]? = c.threads[j]?
  pool : c.arena.pool? ⟨0⟩ = some p
  pool' : c'.arena.pool? ⟨0⟩ = some p'
  seeks : call.Seeks
  seeks' : call'.Seeks
  step : Call.SeekStep p p' call call'
  nearer : call'.toGo < call.toGo ∨ call = .popOne

section

variable {limit batch slots : Nat} {strategy : Strategy Int} {policy : GrowthPolicy}
  {c : Crew Int}

theorem Fed.turn_cases (h : Fed limit batch slots strategy policy c) (i : Nat) :
    (c.turn limit i = c ∧ ∀ t, c.threads[i]? = some t → t.isDone = true) ∨
      (c.turn limit i).total Thread.budget < c.total Thread.budget ∨
      (c.turn limit i).total Thread.budget = c.total Thread.budget ∧
        ∃ call call' p p', Waits c (c.turn limit i) i call call' p p' := by
  by_cases hdone : ∀ t, c.threads[i]? = some t → t.isDone = true
  · exact .inl ⟨Crew.turn_of_isDone limit hdone, hdone⟩
  obtain ⟨t, ht, hnot⟩ : ∃ t, c.threads[i]? = some t ∧ t.isDone = false := by
    simpa using hdone
  refine .inr ?_
  obtain ⟨granted, hturn, hgranted⟩ := Crew.exists_turn limit c i
  have hserved := h.served ht fun r hr => hgranted t r ht hr
  have hstep := Crew.advance_eq granted ht
  have htotal := Crew.total_advance Thread.budget granted ht
  rw [hturn]
  obtain ⟨rest, hhas, -⟩ := h.isWorld.exists_has ht
  obtain ⟨p, hp, hstrategy, -⟩ := h.pool
  obtain hless | ⟨hsame, call, call', hlingers⟩ := (h.courses i t ht).pace hhas
    (Nat.le_of_eq h.size) hp (hstrategy ▸ h.width) h.item hserved hnot
  · exact .inl (by omega)
  · refine .inr ⟨by omega, call, call', p, ?_⟩
    rw [hlingers.before] at hhas
    obtain ⟨p', e, hcall, hp', -⟩ := Arena.exists_pool_of_step hp granted call
    rw [hlingers.step] at hcall hp'
    obtain ⟨frame, hpart⟩ := hhas.exists_call_partition
    have hsound : ∀ q ∈ call.pieces, q.Sound c.arena.memory := fun q hq =>
      hpart.sound q (List.mem_append_left _ (List.mem_append_right _ hq))
    refine ⟨p', ⟨t, ht, hlingers.before⟩, ⟨_, ?_, hlingers.after⟩, fun j hj => ?_, hp, ?_,
      hlingers.seeks, hlingers.seeks',
      Call.step_seek hcall hlingers.seeks hlingers.seeks' (hhas.lone hp) hsound,
      (Call.step_toGo hcall hlingers.seeks.outcome?_eq).imp id And.left⟩
    · have hlt := (Array.getElem?_eq_some_iff.1 ht).1
      rw [hstep, Array.getElem?_setIfInBounds, if_pos rfl, if_pos hlt]
    · rw [hstep, Array.getElem?_setIfInBounds, if_neg hj.symm]
    · rw [hstep]
      exact hp'

/-! ## Sweeps -/

theorem Fed.turn_le (h : Fed limit batch slots strategy policy c) (i : Nat) :
    (c.turn limit i).total Thread.budget ≤ c.total Thread.budget := by
  obtain ⟨hsame, -⟩ | hless | ⟨hsame, -⟩ := h.turn_cases i
  · rw [hsame]
  · exact Nat.le_of_lt hless
  · exact Nat.le_of_eq hsame

theorem Fed.sweep_le (h : Fed limit batch slots strategy policy c) (count : Nat) :
    (c.sweep limit count).total Thread.budget ≤ c.total Thread.budget := by
  induction count generalizing c with
  | zero => exact Nat.le_refl _
  | succ count ih => exact Nat.le_trans (ih (h.turn count)) (h.turn_le count)

/-- The threads have less to do than `n`, or no more and `Q` holds. -/
def Onward (n : Nat) (Q : Crew Int → Prop) (c : Crew Int) : Prop :=
  c.total Thread.budget < n ∨ c.total Thread.budget ≤ n ∧ Q c

/-- What holds stays so while other threads than `j` look for slots in vain. -/
def Kept (limit j : Nat) (Q : Crew Int → Prop) : Prop :=
  ∀ c i call call' p p', i ≠ j → Q c → Waits c (c.turn limit i) i call call' p p' →
    Q (c.turn limit i)

variable {n j : Nat} {Q R : Crew Int → Prop}

theorem Fed.sweep_others (h : Fed limit batch slots strategy policy c) (hQ : Kept limit j Q)
    (hn : c.total Thread.budget ≤ n) (hq : Q c) {count : Nat} (hcount : count ≤ j) :
    Onward n Q (c.sweep limit count) := by
  induction count generalizing c with
  | zero => exact .inr ⟨hn, hq⟩
  | succ count ih =>
    obtain ⟨hsame, -⟩ | hless | ⟨hsame, call, call', p, p', hwaits⟩ := h.turn_cases count
    · simp only [Crew.sweep, hsame]
      exact ih h hn hq (Nat.le_of_succ_le hcount)
    · exact .inl (Nat.lt_of_le_of_lt ((h.turn count).sweep_le count) (Nat.lt_of_lt_of_le hless hn))
    · exact ih (h.turn count) (hsame ▸ hn)
        (hQ c count call call' p p' (Nat.ne_of_lt hcount) hq hwaits) (Nat.le_of_succ_le hcount)

theorem Fed.sweep_thread (h : Fed limit batch slots strategy policy c) (hQ : Kept limit j Q)
    (hR : Kept limit j R)
    (hdone : ∀ c, Fed limit batch slots strategy policy c → Q c →
      (∀ t, c.threads[j]? = some t → t.isDone = true) → R c)
    (hself : ∀ c call call' p p', Fed limit batch slots strategy policy (c.turn limit j) → Q c →
      Waits c (c.turn limit j) j call call' p p' → R (c.turn limit j))
    (hn : c.total Thread.budget ≤ n) (hq : Q c) {count : Nat} (hcount : j < count) :
    Onward n R (c.sweep limit count) := by
  -- A sweep begins with the last thread: the turns of those after `j` leave `Q`, and those of the
  -- ones before it `R`.
  induction count generalizing c with
  | zero => exact absurd hcount (Nat.not_lt_zero j)
  | succ count ih =>
    obtain ⟨hsame, hall⟩ | hless | ⟨hsame, call, call', p, p', hwaits⟩ := h.turn_cases count
    · simp only [Crew.sweep, hsame]
      obtain rfl | hlt := Nat.eq_or_lt_of_le (Nat.le_of_lt_succ hcount)
      · exact h.sweep_others hR hn (hdone c h hq hall) (Nat.le_refl j)
      · exact ih h hn hq hlt
    · exact .inl (Nat.lt_of_le_of_lt ((h.turn count).sweep_le count) (Nat.lt_of_lt_of_le hless hn))
    · obtain rfl | hlt := Nat.eq_or_lt_of_le (Nat.le_of_lt_succ hcount)
      · exact (h.turn j).sweep_others hR (hsame ▸ hn) (hself c call call' p p' (h.turn j) hq hwaits)
          (Nat.le_refl j)
      · exact ih (h.turn count) (hsame ▸ hn)
          (hQ c count call call' p p' (Nat.ne_of_gt hlt) hq hwaits) hlt

/-! ## What threads wait for -/

/-- Slots are free. -/
def Ripe (c : Crew Int) : Prop := ∃ p, c.arena.pool? ⟨0⟩ = some p ∧ p.free.isEmpty = false

/-- The growth flag is not raised. -/
def Low (c : Crew Int) : Prop := ∃ p, c.arena.pool? ⟨0⟩ = some p ∧ p.growing = false

/-- Slots are free, or a thread is about to bring some. It lowers the flag with three steps to go.
-/
def Soon (c : Crew Int) : Prop :=
  Ripe c ∨ ∃ i call, c.Calls i call ∧ call.guards = true ∧ 4 ≤ call.toGo

/-- Slots are free, or thread `j` brings some after no more than `d` steps. -/
def Brings (j d : Nat) (c : Crew Int) : Prop :=
  Ripe c ∨ ∃ call, c.Calls j call ∧ call.guards = true ∧ 4 ≤ call.toGo ∧ call.toGo ≤ d + 3

/-- Steps to the next try to raise the growth flag. -/
def toClaim : Call → Nat
  | .claimGrowth => 0
  | .popOne => 1
  | .noteBackoff => 2
  | .countBackoff => 3
  | _ => 4

/-- Thread `j` has something left to do, and while it looks for a slot, no more than `d` by the
measure `f`. -/
def Near (f : Call → Nat) (j d : Nat) (c : Crew Int) : Prop :=
  ∃ t, c.threads[j]? = some t ∧ t.isDone = false ∧
    ∀ call, t.call? = some (⟨0⟩, call) → call.Seeks → f call ≤ d

/-- Slots are to come soon, or thread `j` is about to raise the growth flag for them. -/
def Claims (j d : Nat) (c : Crew Int) : Prop := Soon c ∨ Low c ∧ Near toClaim j d c

section

variable {c' : Crew Int} {i d : Nat} {call call' guard : Call} {p p' : Pool Int} {f : Call → Nat}

theorem calls_unique {call₁ call₂ : Call} (h₁ : c.Calls i call₁) (h₂ : c.Calls i call₂) :
    call₁ = call₂ := by
  obtain ⟨t, ht, hcall⟩ := h₁
  obtain ⟨t', ht', hcall'⟩ := h₂
  obtain rfl := Option.some.inj (ht.symm.trans ht')
  simpa using hcall.symm.trans hcall'

theorem Waits.calls (h : Waits c c' i call call' p p') (hj : j ≠ i) (hguard : c.Calls j guard) :
    c'.Calls j guard := by
  obtain ⟨t, ht, hcall⟩ := hguard
  exact ⟨t, (h.others j hj).trans ht, hcall⟩

theorem Waits.ripe (h : Waits c c' i call call' p p') (hripe : Ripe c) : Ripe c' := by
  obtain ⟨q, hq, hfree⟩ := hripe
  obtain rfl := Option.some.inj (h.pool.symm.trans hq)
  refine ⟨p', h.pool', ?_⟩
  cases h.step with
  | miss hempty => simp [hfree] at hempty
  | publish fresh hfree' => exact hfree'
  | yield _ hp => rwa [hp]
  | retry hp => rwa [hp]
  | back hsame => rwa [hsame]
  | claim _ _ hsame => rwa [hsame]
  | grow _ _ _ hsame => rwa [hsame]
  | lower hsame => rwa [hsame]

theorem Waits.nearer_of_ripe (h : Waits c c' i call call' p p') (hripe : Ripe c) :
    call'.toGo < call.toGo := by
  obtain hnearer | rfl := h.nearer
  · exact hnearer
  obtain ⟨q, hq, hfree⟩ := hripe
  obtain rfl := Option.some.inj (h.pool.symm.trans hq)
  cases h.step with
  | miss hempty => simp [hfree] at hempty
  | grow hguards => cases hguards

theorem Waits.brings (h : Waits c c' i call call' p p') (hguards : call.guards = true)
    (hahead : 4 ≤ call.toGo) (hle : call.toGo ≤ d + 1 + 3) : Brings i d c' := by
  have hnearer := h.nearer
  cases h.step with
  | grow _ hguards' hahead' =>
    obtain hless | rfl := hnearer
    · exact .inr ⟨call', h.after, hguards', hahead', by omega⟩
    · cases hguards
  | publish fresh hfree => exact .inl ⟨p', h.pool', hfree⟩
  | lower => exact absurd hahead (by decide)
  | _ => cases hguards

theorem Brings.soon (h : Brings j d c) : Soon c :=
  h.imp id fun ⟨call, hcall, hguards, hahead, _⟩ => ⟨j, call, hcall, hguards, hahead⟩

theorem Waits.soon (h : Waits c c' i call call' p p') (hsoon : Soon c) : Soon c' := by
  obtain hripe | ⟨k, guard, hguard, hguards, hahead⟩ := hsoon
  · exact .inl (h.ripe hripe)
  by_cases hk : k = i
  · subst hk
    obtain rfl := calls_unique hguard h.before
    exact (h.brings hguards hahead (Nat.le_add_right _ 4)).soon
  · exact .inr ⟨k, guard, h.calls hk hguard, hguards, hahead⟩

theorem Waits.claims (h : Waits c c' i call call' p p') (hlow : Low c) :
    Soon c' ∨ Low c' ∧ toClaim call' < toClaim call := by
  obtain ⟨q, hq, hlow⟩ := hlow
  obtain rfl := Option.some.inj (h.pool.symm.trans hq)
  cases h.step with
  | miss _ hp => exact .inr ⟨⟨p', h.pool', hp ▸ hlow⟩, by decide⟩
  | yield hraised => simp [hlow] at hraised
  | retry hp => exact .inr ⟨⟨p', h.pool', hp ▸ hlow⟩, by decide⟩
  | back _ hflag => exact .inr ⟨⟨p', h.pool', hflag.trans hlow⟩, by decide⟩
  | lower _ hlow' => exact .inr ⟨⟨p', h.pool', hlow'⟩, by decide⟩
  | publish fresh hfree => exact .inl (.inl ⟨p', h.pool', hfree⟩)
  | claim _ _ _ hguards hahead => exact .inl (.inr ⟨i, call', h.after, hguards, hahead⟩)
  | grow _ hguards hahead => exact .inl (.inr ⟨i, call', h.after, hguards, hahead⟩)

theorem Waits.low (h : Waits c c' i call call' p p') (hlow : Low c) : Low c' ∨ Soon c' :=
  (h.claims hlow).symm.imp And.left id

theorem Waits.lowers (h : Waits c c' i call call' p p') (hguards : call.guards = true) :
    Low c' ∨ Soon c' := by
  cases h.step with
  | grow _ hguards' hahead' => exact .inr (.inr ⟨i, call', h.after, hguards', hahead'⟩)
  | publish fresh hfree => exact .inr (.inl ⟨p', h.pool', hfree⟩)
  | lower _ hlow => exact .inl ⟨p', h.pool', hlow⟩
  | _ => cases hguards

/-! ### Being near -/

theorem Near.keep (h : Near f j d c) (hwaits : Waits c c' i call call' p p') (hi : i ≠ j) :
    Near f j d c' := by
  obtain ⟨t, ht, hrest⟩ := h
  exact ⟨t, (hwaits.others j hi.symm).trans ht, hrest⟩

theorem Near.le (h : Near f j d c) (hwaits : Waits c c' j call call' p p') : f call ≤ d := by
  obtain ⟨t, ht, -, hle⟩ := h
  obtain ⟨t', ht', hcall⟩ := hwaits.before
  obtain rfl := Option.some.inj (ht.symm.trans ht')
  exact hle call hcall hwaits.seeks

theorem Near.not_done (h : Near f j d c) : ¬ ∀ t, c.threads[j]? = some t → t.isDone = true := by
  obtain ⟨t, ht, hnot, -⟩ := h
  exact fun hall => by simp [hall t ht] at hnot

theorem Near.lt_size (h : Near f j d c) : j < c.threads.size := by
  obtain ⟨t, ht, -⟩ := h
  exact (Array.getElem?_eq_some_iff.1 ht).1

theorem Fed.not_done (h : Fed limit batch slots strategy policy c) {t : Thread Int}
    (ht : c.threads[j]? = some t) (hcall : t.call? = some (⟨0⟩, call)) : t.isDone = false := by
  have hcontent := (h.courses j t ht).content
  obtain ⟨work, registers, begun, left, current, complaint⟩ := t
  cases current with
  | none => cases hcall
  | some d => simp_all [Thread.isDone]

theorem Waits.near (hwaits : Waits c c' j call call' p p')
    (h : Fed limit batch slots strategy policy c') (hle : f call' ≤ d) : Near f j d c' := by
  obtain ⟨t, ht, hcall⟩ := hwaits.after
  refine ⟨t, ht, h.not_done ht hcall, fun call'' hcall'' _ => ?_⟩
  obtain rfl : call' = call'' := by simpa using hcall.symm.trans hcall''
  exact hle

theorem Fed.lone (h : Fed limit batch slots strategy policy c) (hcalls : c.Calls j call) :
    call.guards = true → call.Lone strategy.blockSize := by
  obtain ⟨t, ht, hcall⟩ := hcalls
  obtain ⟨rest, hhas, -⟩ := h.isWorld.exists_has ht
  obtain ⟨p, hp, rfl, -⟩ := h.pool
  rw [hcall] at hhas
  exact hhas.lone hp

theorem exists_busy (hdone : c.isDone = false) :
    ∃ (j : Nat) (t : Thread Int), c.threads[j]? = some t ∧ t.isDone = false := by
  by_contra hnone
  have hall : ∀ t ∈ c.threads, t.isDone = true := by
    intro t ht
    obtain ⟨j, hj⟩ := Array.getElem?_of_mem ht
    cases hbusy : t.isDone with
    | true => rfl
    | false => exact absurd ⟨j, t, hj, hbusy⟩ hnone
  rw [Crew.isDone, Array.all_eq_true_iff_forall_mem.2 hall] at hdone
  cases hdone

theorem Fed.exists_near (h : Fed limit batch slots strategy policy c) (hdone : c.isDone = false) :
    ∃ j, Near Call.toGo j 18 c := by
  obtain ⟨j, t, ht, hnot⟩ := exists_busy hdone
  exact ⟨j, t, ht, hnot, fun call hcall hseeks => hseeks.toGo_le (h.lone ⟨t, ht, hcall⟩)⟩

/-! ### What the turns of others leave -/

theorem kept_near (f : Call → Nat) (j d : Nat) : Kept limit j fun c => Ripe c ∧ Near f j d c :=
  fun _ _ _ _ _ _ hi hq hwaits => ⟨hwaits.ripe hq.1, hq.2.keep hwaits hi⟩

theorem kept_brings (j d : Nat) : Kept limit j (Brings j d) := by
  rintro c i call call' p p' hi (hripe | ⟨guard, hguard, hrest⟩) hwaits
  · exact .inl (hwaits.ripe hripe)
  · exact .inr ⟨guard, hwaits.calls hi.symm hguard, hrest⟩

theorem kept_soon (j : Nat) : Kept limit j Soon :=
  fun _ _ _ _ _ _ _ hq hwaits => hwaits.soon hq

theorem kept_claims (j d : Nat) : Kept limit j (Claims j d) := by
  rintro c i call call' p p' hi (hsoon | ⟨hlow, hnear⟩) hwaits
  · exact .inl (hwaits.soon hsoon)
  · exact (hwaits.low hlow).symm.imp id fun hlow' => ⟨hlow', hnear.keep hwaits hi⟩

theorem kept_low (j : Nat) : Kept limit j fun c => Low c ∨ Soon c :=
  fun _ _ _ _ _ _ _ hq hwaits => hq.elim hwaits.low fun hsoon => .inr (hwaits.soon hsoon)

theorem kept_guard (j : Nat) :
    Kept limit j fun c => ∃ call, c.Calls j call ∧ call.guards = true := by
  rintro c i call call' p p' hi ⟨guard, hguard, hguards⟩ hwaits
  exact ⟨guard, hwaits.calls hi.symm hguard, hguards⟩

end

/-! ## The end -/

/-- So many sweeps are enough for all threads to be done. -/
def Ends (limit k : Nat) (c : Crew Int) : Prop :=
  ∀ fuel, k ≤ fuel → (c.sweeps limit fuel).isDone = true

theorem Ends.mono {k k' : Nat} (h : Ends limit k c) (hle : k ≤ k') : Ends limit k' c :=
  fun fuel hfuel => h fuel (Nat.le_trans hle hfuel)

theorem ends_of_isDone (h : c.isDone = true) : Ends limit 0 c := by
  intro fuel _
  cases fuel with
  | zero => exact h
  | succ fuel => rwa [Crew.sweeps, if_pos h]

theorem Ends.of_sweep {k : Nat} (h : Ends limit k (c.sweep limit c.threads.size)) :
    Ends limit (k + 1) c := by
  intro fuel hfuel
  cases fuel with
  | zero => exact absurd hfuel (Nat.not_succ_le_zero k)
  | succ fuel =>
    unfold Crew.sweeps
    split
    · assumption
    · exact h fuel (Nat.le_of_succ_le_succ hfuel)

section

variable {k m : Nat} (hless : ∀ c, Fed limit batch slots strategy policy c →
  c.total Thread.budget < n → Ends limit k c)

include hless

/-- A sweep in which thread `j` has its turn leads from `Q` to `R`. Threads with less to do than `n`
are known to come to an end. -/
theorem Fed.ends_of_sweep (h : Fed limit batch slots strategy policy c) (hQ : Kept limit j Q)
    (hR : Kept limit j R)
    (hdone : ∀ c, Fed limit batch slots strategy policy c → Q c →
      (∀ t, c.threads[j]? = some t → t.isDone = true) → R c)
    (hself : ∀ c call call' p p', Fed limit batch slots strategy policy (c.turn limit j) → Q c →
      Waits c (c.turn limit j) j call call' p p' → R (c.turn limit j))
    (hnext : ∀ c, Fed limit batch slots strategy policy c → c.total Thread.budget ≤ n → R c →
      Ends limit (k + m) c)
    (hn : c.total Thread.budget ≤ n) (hj : j < c.threads.size) (hq : Q c) :
    Ends limit (k + m + 1) c := by
  refine Ends.of_sweep ?_
  have hfed := (h.sweep c.threads.size).2
  obtain hlt | ⟨hle, hr⟩ := h.sweep_thread hQ hR hdone hself hn hq hj
  · exact (hless _ hfed hlt).mono (Nat.le_add_right k m)
  · exact hnext _ hfed hle hr

theorem Fed.ends_of_near (d : Nat) (h : Fed limit batch slots strategy policy c)
    (hn : c.total Thread.budget ≤ n) (hripe : Ripe c) (hnear : Near Call.toGo j (d + 1) c) :
    Ends limit (k + d + 1) c := by
  induction d generalizing c with
  | zero =>
    refine h.ends_of_sweep hless (R := fun _ => False) (m := 0) (kept_near Call.toGo j 1)
      (fun _ _ _ _ _ _ _ hr _ => hr) (fun c _ hq hall => hq.2.not_done hall) ?_
      (fun _ _ _ hr => hr.elim) hn hnear.lt_size ⟨hripe, hnear⟩
    intro c call call' p p' _ hq hwaits
    exact absurd (hq.2.le hwaits) (Nat.not_le_of_lt hwaits.seeks.toGo)
  | succ d ih =>
    refine h.ends_of_sweep hless (kept_near Call.toGo j (d + 2)) (kept_near Call.toGo j (d + 1))
      (fun c _ hq hall => (hq.2.not_done hall).elim) ?_ (fun c hc hle hr => ih hc hle hr.1 hr.2)
      hn hnear.lt_size ⟨hripe, hnear⟩
    intro c call call' p p' hfed hq hwaits
    refine ⟨hwaits.ripe hq.1, hwaits.near hfed ?_⟩
    have hle := hq.2.le hwaits
    have hnearer := hwaits.nearer_of_ripe hq.1
    omega

theorem Fed.ends_of_ripe (h : Fed limit batch slots strategy policy c)
    (hn : c.total Thread.budget ≤ n) (hripe : Ripe c) : Ends limit (k + 18) c := by
  cases hdone : c.isDone with
  | true => exact (ends_of_isDone hdone).mono (Nat.zero_le _)
  | false =>
    obtain ⟨j, hnear⟩ := h.exists_near hdone
    exact h.ends_of_near hless 17 hn hripe hnear

theorem Fed.ends_of_brings (d : Nat) (h : Fed limit batch slots strategy policy c)
    (hn : c.total Thread.budget ≤ n) (hbrings : Brings j d c) : Ends limit (k + (18 + d)) c := by
  induction d generalizing c with
  | zero =>
    obtain hripe | ⟨call, -, -, hahead, hle⟩ := hbrings
    · exact h.ends_of_ripe hless hn hripe
    · omega
  | succ d ih =>
    obtain hripe | ⟨call, ⟨t, ht, hcall⟩, hguards, hahead, hle⟩ := hbrings
    · exact (h.ends_of_ripe hless hn hripe).mono (by omega)
    refine h.ends_of_sweep hless (m := 18 + d) (kept_brings j (d + 1)) (kept_brings j d) ?_ ?_
      (fun c hc hle hr => ih hc hle hr) hn
      (Array.getElem?_eq_some_iff.1 ht).1 (.inr ⟨call, ⟨t, ht, hcall⟩, hguards, hahead, hle⟩)
    · rintro c hc (hripe | ⟨call, ⟨t, ht, hcall⟩, -⟩) hall
      · exact .inl hripe
      · exact absurd (hall t ht) (by simp [hc.not_done ht hcall])
    · rintro c call call' p p' hfed (hripe | ⟨guard, hguard, hguards, hahead, hle⟩) hwaits
      · exact .inl (hwaits.ripe hripe)
      · obtain rfl := calls_unique hguard hwaits.before
        exact hwaits.brings hguards hahead hle

theorem Fed.ends_of_soon (h : Fed limit batch slots strategy policy c)
    (hn : c.total Thread.budget ≤ n) (hsoon : Soon c) : Ends limit (k + 32) c := by
  obtain hripe | ⟨j, call, hcall, hguards, hahead⟩ := hsoon
  · exact (h.ends_of_ripe hless hn hripe).mono (by omega)
  · exact h.ends_of_brings hless 14 hn
      (.inr ⟨call, hcall, hguards, hahead, (h.lone hcall hguards).toGo_le⟩)

theorem Fed.ends_of_claims (d : Nat) (h : Fed limit batch slots strategy policy c)
    (hn : c.total Thread.budget ≤ n) (hclaims : Claims j d c) :
    Ends limit (k + (33 + d)) c := by
  induction d generalizing c with
  | zero =>
    obtain hsoon | ⟨hlow, hnear⟩ := hclaims
    · exact (h.ends_of_soon hless hn hsoon).mono (by omega)
    refine h.ends_of_sweep hless (m := 32) (kept_claims j 0) (kept_soon j) ?_ ?_
      (fun c hc hle hr => hc.ends_of_soon hless hle hr) hn hnear.lt_size (.inr ⟨hlow, hnear⟩)
    · rintro c hc (hsoon | ⟨-, hnear⟩) hall
      · exact hsoon
      · exact absurd hall hnear.not_done
    · rintro c call call' p p' hfed (hsoon | ⟨hlow, hnear⟩) hwaits
      · exact hwaits.soon hsoon
      · refine (hwaits.claims hlow).resolve_right fun hnearer => ?_
        have := hnear.le hwaits
        omega
  | succ d ih =>
    obtain hsoon | ⟨hlow, hnear⟩ := hclaims
    · exact (h.ends_of_soon hless hn hsoon).mono (by omega)
    refine h.ends_of_sweep hless (m := 33 + d) (kept_claims j (d + 1)) (kept_claims j d) ?_ ?_
      (fun c hc hle hr => ih hc hle hr) hn hnear.lt_size (.inr ⟨hlow, hnear⟩)
    · rintro c hc (hsoon | ⟨-, hnear⟩) hall
      · exact .inl hsoon
      · exact absurd hall hnear.not_done
    · rintro c call call' p p' hfed (hsoon | ⟨hlow, hnear⟩) hwaits
      · exact .inl (hwaits.soon hsoon)
      · refine (hwaits.claims hlow).imp id fun ⟨hlow', hnearer⟩ => ⟨hlow', hwaits.near hfed ?_⟩
        have := hnear.le hwaits
        omega

theorem Fed.ends_of_low (h : Fed limit batch slots strategy policy c)
    (hn : c.total Thread.budget ≤ n) (hlow : Low c) : Ends limit (k + 37) c := by
  cases hdone : c.isDone with
  | true => exact (ends_of_isDone hdone).mono (Nat.zero_le _)
  | false =>
    obtain ⟨j, t, ht, hnot⟩ := exists_busy hdone
    refine h.ends_of_claims (j := j) hless 4 hn (.inr ⟨hlow, t, ht, hnot, fun call _ _ => ?_⟩)
    cases call <;> simp [toClaim]

theorem Fed.ends_of_le (h : Fed limit batch slots strategy policy c)
    (hn : c.total Thread.budget ≤ n) : Ends limit (k + 38) c := by
  obtain ⟨p, hp, -⟩ := h.pool
  cases hflag : p.growing with
  | false => exact (h.ends_of_low hless hn ⟨p, hp, hflag⟩).mono (by omega)
  | true =>
    -- In its turn the thread that raised the flag lowers it, or is about to bring slots.
    obtain ⟨j, guard, ⟨t, ht, hcall⟩, hguards⟩ := h.isWorld.exists_guard hp hflag
    refine h.ends_of_sweep hless (m := 37) (kept_guard j) (kept_low j) ?_ ?_ ?_ hn
      (Array.getElem?_eq_some_iff.1 ht).1 ⟨guard, ⟨t, ht, hcall⟩, hguards⟩
    · rintro c hc ⟨guard, ⟨t, ht, hcall⟩, -⟩ hall
      exact absurd (hall t ht) (by simp [hc.not_done ht hcall])
    · rintro c call call' p p' hfed ⟨guard, hguard, hguards⟩ hwaits
      obtain rfl := calls_unique hguard hwaits.before
      exact hwaits.lowers hguards
    · rintro c hc hle (hlow | hsoon)
      · exact hc.ends_of_low hless hle hlow
      · exact (hc.ends_of_soon hless hle hsoon).mono (by omega)

end

theorem Fed.ends (n : Nat) (h : Fed limit batch slots strategy policy c)
    (hn : c.total Thread.budget < n) : Ends limit (38 * n) c := by
  induction n generalizing c with
  | zero => exact absurd hn (Nat.not_lt_zero _)
  | succ n ih => exact h.ends_of_le (fun c hc hlt => ih hc hlt) (Nat.le_of_lt_succ hn)

end

/-! ## The patience of a plan -/

theorem total_cost (batch thread i : Nat) :
    Thread.total Command.cost (duties batch thread i) + 1 ≤ 25 * (batch + 1) := by
  unfold duties
  split
  · rename_i hbulk
    have hbatch : 0 < batch := by simp_all
    simp [Thread.total, Command.cost, lookFor, countTo]
    omega
  · simp [Thread.total, Command.cost, lookFor]
    omega

theorem sum_cost_le (batch thread rounds : Nat) :
    ((List.range rounds).map fun i => Thread.total Command.cost (duties batch thread i)).sum +
        rounds ≤ rounds * (25 * (batch + 1)) := by
  induction rounds with
  | zero => exact Nat.zero_le _
  | succ rounds ih =>
    have hround := total_cost batch thread rounds
    rw [List.range_succ, List.map_append, List.sum_append, Nat.succ_mul]
    simp only [List.map_cons, List.map_nil, List.sum_cons, List.sum_nil]
    omega

theorem Plan.budget_ofWork (plan : Plan) (item : ItemType Int) (p : Pool Int) :
    (Crew.ofWork item p plan.work).total Thread.budget ≤
      plan.threads * (plan.iterations * (25 * (plan.batch + 1))) := by
  have heach : ∀ thread, Thread.budget
      { work := { rounds := plan.iterations, duties := duties plan.batch thread } } ≤
        plan.iterations * (25 * (plan.batch + 1)) := by
    intro thread
    have hsum := sum_cost_le plan.batch thread plan.iterations
    simpa [Thread.budget, Thread.due, Thread.later, Thread.total] using hsum
  have hall : ∀ n ∈ (Crew.ofWork item p plan.work).threads.toList.map Thread.budget,
      n ≤ plan.iterations * (25 * (plan.batch + 1)) := by
    intro n hn
    simp only [Crew.ofWork, Plan.work, List.map_map, List.mem_map] at hn
    obtain ⟨thread, -, rfl⟩ := hn
    exact heach thread
  have hsum := List.sum_le_card_nsmul _ _ hall
  simpa [Crew.total, Crew.ofWork, Plan.work] using hsum

theorem Plan.isDone_done {limit : Nat} (plan : Plan) {strategy : Strategy Int}
    {policy : GrowthPolicy} (backoffMicros : Nat) (hwidth : strategy.shape.width = 1)
    (hroom : strategy.Feeds limit plan.batch policy) :
    (plan.done limit (.ofWork (.number 0) (.fresh strategy policy backoffMicros)
      plan.work)).isDone = true := by
  have hfed : Fed limit plan.batch plan.slots strategy policy
      (.ofWork (.number 0) (.fresh strategy policy backoffMicros) plan.work) :=
    { plan.steady_ofWork strategy policy backoffMicros with width := hwidth, room := hroom }
  have hbudget := plan.budget_ofWork (.number 0) (.fresh strategy policy backoffMicros)
  refine hfed.ends _ (Nat.lt_succ_self _) _ (Nat.le_trans (Nat.mul_le_mul_left 38
    (Nat.succ_le_succ hbudget)) ?_)
  have hwork : plan.threads * (plan.iterations * (25 * (plan.batch + 1))) =
      25 * (plan.threads * plan.iterations * (plan.batch + 1)) := by
    rw [Nat.mul_left_comm plan.iterations, Nat.mul_left_comm plan.threads, Nat.mul_assoc]
  have hturns : (plan.threads * plan.iterations + 1) * (plan.batch + 1) =
      plan.threads * plan.iterations * (plan.batch + 1) + (plan.batch + 1) := Nat.succ_mul _ _
  rw [Crew.patience, hwork, Nat.mul_assoc 1000]
  omega

end Cli.Stress

end SlotPool
