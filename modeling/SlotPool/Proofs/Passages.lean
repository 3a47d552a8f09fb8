import SlotPool.Proofs.Conservation

/-!
# Where a call passes on its way

`Call.Passes` records a call to which nothing else happens: the stages at which it takes a step, and
the events that are noted. `Arena.proceed` comes to just that, so that what is shown of such a
passage holds of the whole arena, its journal included.
-/

namespace SlotPool

open Memory

variable {ε : Type}

/-! ## What one call changes in an arena -/

namespace Arena

variable {a : Arena ε} {id : PoolId} {m m' : Memory ε} {p p' : Pool ε} {es es' : List Event}

/-- The arena with this memory, with `p` as the pool named `id`, and with more events noted. -/
def put (a : Arena ε) (id : PoolId) (m : Memory ε) (p : Pool ε) (es : List Event) : Arena ε :=
  ⟨m, a.pools.setIfInBounds id.index p, a.journal ++ es.toArray⟩

theorem put_self (hp : a.pool? id = some p) : a.put id a.memory p [] = a := by
  obtain ⟨memory, pools, journal⟩ := a
  obtain ⟨hlt, rfl⟩ := Array.getElem?_eq_some_iff.1 hp
  simp only [put, mk.injEq, true_and, Array.append_empty, and_true]
  apply Array.ext_getElem?
  intro i
  by_cases hi : id.index = i
  · subst hi
    simp only [Array.getElem?_setIfInBounds_self_of_lt hlt, Array.getElem?_eq_getElem hlt]
  · rw [Array.getElem?_setIfInBounds_ne hi]

theorem put_put : (a.put id m p es).put id m' p' es' = a.put id m' p' (es ++ es') := by
  simp only [put, mk.injEq, true_and, Array.append_assoc, List.append_toArray, and_true]
  apply Array.ext_getElem?
  intro i
  by_cases hi : id.index = i
  · subst hi
    by_cases hlt : id.index < a.pools.size <;> simp [hlt]
  · simp only [Array.getElem?_setIfInBounds_ne hi]

theorem pool?_put (hp : a.pool? id = some p) (other : PoolId) :
    (a.put id m p' es).pool? other = if other = id then some p' else a.pool? other :=
  pool?_set hp rfl other

theorem step_eq_put {granted : Bool} {c c' : Call} {e : Option Event} (hp : a.pool? id = some p)
    (h : c.step id granted a.memory p = (m', p', e, c')) :
    a.step id granted c = (a.put id m' p' e.toList, c') := by
  obtain ⟨memory, pools, journal⟩ := a
  simp only [pool?] at hp
  simp only at h
  simp only [step, hp, h, put, Prod.mk.injEq, mk.injEq, and_true, true_and]
  refine ⟨by simp, ?_⟩
  cases e <;> simp [note]

theorem eq_put_of_step {a' : Arena ε} {granted : Bool} {c c' : Call} (hp : a.pool? id = some p)
    (h : a.step id granted c = (a', c')) :
    ∃ m' p' e, c.step id granted a.memory p = (m', p', e, c') ∧ a' = a.put id m' p' e.toList := by
  rcases hs : c.step id granted a.memory p with ⟨m', p', e, c₁⟩
  rw [step_eq_put hp hs, Prod.mk.injEq] at h
  obtain ⟨rfl, rfl⟩ := h
  exact ⟨m', p', e, rfl, rfl⟩

/-- The calls that take a step in `proceed`, one after the other. -/
def visits (allocator : Allocator) (id : PoolId) (pause : Call → Bool) :
    Nat → Arena ε → Progress → List Call
  | 0, _, _ => []
  | fuel + 1, a, ⟨c, made⟩ =>
    if pause c || c.outcome?.isSome then []
    else
      match a.reservation? id c with
      | none =>
        let (a, c') := a.step id true c
        c :: visits allocator id pause fuel a ⟨c', made⟩
      | some r =>
        let (a, c') := a.step id (allocator made r) c
        c :: visits allocator id pause fuel a ⟨c', made + 1⟩

end Arena

/-! ## The passage of a call -/

/-- Memory and pool at a stage of a call, and how many reservations it has made. -/
structure Standing (ε : Type) where
  memory : Memory ε
  pool : Pool ε
  call : Call
  made : Nat

namespace Call

/-- The call comes from one standing to the other by the steps of these calls, in which these events
are noted, if nothing else happens. -/
inductive Passes (allocator : Allocator) (id : PoolId) :
    List Call → List Event → Standing ε → Standing ε → Prop where
  | stay (s : Standing ε) : Passes allocator id [] [] s s
  | step {m m' : Memory ε} {p p' : Pool ε} {e : Option Event} {c c' : Call} {made : Nat}
      {cs : List Call} {es : List Event} {s : Standing ε} (hc : c.outcome? = none)
      (hr : c.reservation? p.strategy = none) (hs : c.step id true m p = (m', p', e, c'))
      (h : Passes allocator id cs es ⟨m', p', c', made⟩ s) :
      Passes allocator id (c :: cs) (e.toList ++ es) ⟨m, p, c, made⟩ s
  | reserve {m : Memory ε} {p : Pool ε} {g : Growth} {r : Reservation} {made : Nat}
      {cs : List Call} {es : List Event} {s : Standing ε}
      (hr : p.strategy.reservations[g.granted]? = some r)
      (h : Passes allocator id cs es
        ⟨m, p, afterReservation p.strategy g (allocator made r), made + 1⟩ s) :
      Passes allocator id (.reserve g :: cs) es ⟨m, p, .reserve g, made⟩ s

variable {allocator : Allocator} {id : PoolId} {cs cs' : List Call} {es es' : List Event}
  {s s' s'' : Standing ε}

section

variable {m m' : Memory ε} {p p' : Pool ε} {c c' : Call} {made : Nat}

theorem Passes.silent (hc : c.outcome? = none) (hr : c.reservation? p.strategy = none)
    (hs : c.step id true m p = (m', p', none, c'))
    (h : Passes allocator id cs es ⟨m', p', c', made⟩ s) :
    Passes allocator id (c :: cs) es ⟨m, p, c, made⟩ s :=
  .step hc hr hs h

theorem Passes.noting {e : Event} (hc : c.outcome? = none) (hr : c.reservation? p.strategy = none)
    (hs : c.step id true m p = (m', p', some e, c'))
    (h : Passes allocator id cs es ⟨m', p', c', made⟩ s) :
    Passes allocator id (c :: cs) (e :: es) ⟨m, p, c, made⟩ s :=
  .step hc hr hs h

end

theorem Passes.trans (h : Passes allocator id cs es s s')
    (h' : Passes allocator id cs' es' s' s'') :
    Passes allocator id (cs ++ cs') (es ++ es') s s'' := by
  induction h with
  | stay s => exact h'
  | step hc hr hs _ ih =>
    rw [List.cons_append, List.append_assoc]
    exact .step hc hr hs (ih h')
  | reserve hr _ ih => exact .reserve hr (ih h')

/-- With enough steps to take, an arena comes to where the passage leads, and by the same calls. -/
theorem Passes.proceed_and_visits (h : Passes allocator id cs es s s') {a : Arena ε}
    (hp : a.pool? id = some s.pool) (hm : a.memory = s.memory) {pause : Call → Bool}
    (hgo : ∀ c ∈ cs, pause c = false)
    (hstop : pause s'.call = true ∨ s'.call.outcome?.isSome = true) {fuel : Nat}
    (hfuel : cs.length ≤ fuel) :
    a.proceed allocator id pause fuel ⟨s.call, s.made⟩ =
        (a.put id s'.memory s'.pool es, ⟨s'.call, s'.made⟩) ∧
      a.visits allocator id pause fuel ⟨s.call, s.made⟩ = cs := by
  induction h generalizing a fuel with
  | stay s =>
    obtain ⟨m, p, c, made⟩ := s
    subst hm
    have hhere := Arena.put_self hp
    have hover : (pause c || c.outcome?.isSome) = true := by simpa using hstop
    cases fuel with
    | zero => exact ⟨by rw [hhere]; rfl, rfl⟩
    | succ fuel =>
      simp only [Arena.proceed, Arena.visits, if_pos hover, hhere, and_self]
  | @step m m' p p' e c c' made cs es s hc hr hs h ih =>
    obtain ⟨k, rfl⟩ : ∃ k, fuel = k + 1 :=
      ⟨fuel - 1, by simp only [List.length_cons] at hfuel; omega⟩
    subst hm
    have hnext := Arena.step_eq_put hp hs
    have hon : ¬ (pause c || c.outcome?.isSome) = true := by simp [hgo c List.mem_cons_self, hc]
    have hnone : a.reservation? id c = none := by rw [Arena.reservation?, hp]; exact hr
    obtain ⟨hrun, hvisits⟩ := ih (a := a.put id m' p' e.toList)
      (by rw [Arena.pool?_put hp, if_pos rfl]) rfl
      (fun c hc => hgo c (List.mem_cons_of_mem _ hc)) hstop (Nat.le_of_succ_le_succ hfuel)
    simp only [Arena.proceed, Arena.visits, if_neg hon, hnone, hnext]
    exact ⟨by rw [hrun, Arena.put_put], by rw [hvisits]⟩
  | @reserve m p g r made cs es s hr h ih =>
    obtain ⟨k, rfl⟩ : ∃ k, fuel = k + 1 :=
      ⟨fuel - 1, by simp only [List.length_cons] at hfuel; omega⟩
    subst hm
    have hs : (Call.reserve g).step id (allocator made r) a.memory p =
        (a.memory, p, none, afterReservation p.strategy g (allocator made r)) := rfl
    have hnext := Arena.step_eq_put hp hs
    rw [show (none : Option Event).toList = [] from rfl, Arena.put_self hp] at hnext
    have hon : ¬ (pause (.reserve g) || (Call.reserve g).outcome?.isSome) = true := by
      simp [hgo _ List.mem_cons_self, outcome?]
    have hsome : a.reservation? id (.reserve g) = some r := by rw [Arena.reservation?, hp]; exact hr
    obtain ⟨hrun, hvisits⟩ := ih hp rfl (fun c hc => hgo c (List.mem_cons_of_mem _ hc)) hstop
      (Nat.le_of_succ_le_succ hfuel)
    simp only [Arena.proceed, Arena.visits, if_neg hon, hsome, hnext]
    exact ⟨hrun, by rw [hvisits]⟩

end Call

end SlotPool
