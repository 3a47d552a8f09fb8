import SlotPool.Proofs.Deliveries

/-!
# What a call that gives back leaves

A call that gives a pool slots of its own puts them in front of the free stack, in their order and
clean, and counts them. It changes nothing else, so that slots which are given back one after the
other, the last one first, come to the same as all of them at once.
-/

namespace SlotPool

open Memory

variable {ε : Type} {id : PoolId} {m m' m'' : Memory ε} {p p' p'' : Pool ε} {l k : List Slot}

/-! ## Slots that a pool takes -/

/-- The memory is as the pool needs it to take slots. -/
structure Pool.Ready (p : Pool ε) (id : PoolId) (m : Memory ε) : Prop where
  laid : m.Laid
  sized : ∀ s c, m.cell? s = some c → c.owner = id → c.run.length = p.strategy.shape.width
  free : p.free.Spans m (p.free.slots m)

/-- The pool provided the slots, and none of them is free. -/
structure Pool.Takes (p : Pool ε) (id : PoolId) (m : Memory ε) (l : List Slot) : Prop
    extends p.Ready id m where
  owned : ∀ s ∈ l, m.owner? s = some id
  nodup : l.Nodup
  apart : l.Disjoint (p.free.slots m)

theorem Pool.Ready.relinked (h : p.Ready id m) (hu : m'.unlinked = m.unlinked)
    (hp : p'.strategy = p.strategy) (hfree : p'.free.Spans m' l) : p'.Ready id m' := by
  constructor
  · exact h.laid.of_unlinked hu
  · intro s c hc ho
    obtain ⟨c', hc', hrun, howner⟩ := cell?_of_unlinked hu.symm hc
    rw [hp, ← hrun]
    exact h.sized s c' hc' (howner.trans ho)
  · rw [hfree.slots_eq]
    exact hfree

theorem Pool.Takes.relinked (h : p.Takes id m l) (hr : Relinks m m' l) : p.Takes id m' l := by
  have hfree := h.free.frame hr (List.disjoint_symm h.apart)
  refine ⟨h.toReady.relinked hr.unlinked rfl hfree, fun s hs => ?_, h.nodup, ?_⟩
  · rw [owner?_of_unlinked hr.unlinked]
    exact h.owned s hs
  · rw [hfree.slots_eq]
    exact h.apart

/-! ## Cleaning -/

theorem Stack.Spans.of_cells {st : Stack} (h : st.Spans m l) (hc : m'.cells = m.cells) :
    st.Spans m' l := by
  refine { h with linked := h.linked.frame fun s _ => ?_ }
  rw [link?, link?, cell?, cell?, hc]

theorem Call.cleanAll_of_owned (h : ∀ s ∈ l, m.owner? s = some id) (v : ε) :
    (cleanAll id v m l).2 = none := by
  induction l generalizing m with
  | nil => rfl
  | cons s l ih =>
    unfold cleanAll
    simp only [h s List.mem_cons_self, if_true]
    apply ih
    intro t ht
    rw [owner?, cell?, cells_fill]
    exact h t (List.mem_cons_of_mem s ht)

theorem Pool.Takes.cleaned (h : p.Takes id m l) :
    ∀ s ∈ l, Clean (Call.cleanAll id p.strategy.pristine m l).1 id p.strategy s := by
  intro s hs
  obtain ⟨c, hc, howner⟩ := Option.map_eq_some_iff.1 (h.owned s hs)
  have hvalue := (Call.cleanAll_value id p.strategy.pristine h.laid l
    (Call.cleanAll_of_owned h.owned _) s hs c hc).2
  constructor
  · rw [owner?, cell?, Call.cells_cleanAll]
    exact h.owned s hs
  · rw [hvalue, h.sized s c hc howner]

/-! ## What the pool has afterwards -/

/-- The pool has taken the slots `l`. They are clean and in front of what was free, and nothing is
changed but for them. -/
structure Refilled (id : PoolId) (p : Pool ε) (m : Memory ε) (l : List Slot) (p' : Pool ε)
    (m' : Memory ε) : Prop where
  free : p'.free.Spans m' (l ++ p.free.slots m)
  available : p'.available = p.available + l.length
  pool : p' = { p with
    free := p'.free
    counters := { p.counters with releases := p.counters.releases + l.length } }
  clean : ∀ s ∈ l, Clean m' id p.strategy s
  keeps : Keeps m m' l
  cell : ∀ s, s ∉ l → m'.cell? s = m.cell? s

namespace Refilled

theorem strategy (h : Refilled id p m l p' m') : p'.strategy = p.strategy := by
  rw [h.pool]

theorem value (h : Refilled id p m l p' m') {s : Slot} (hs : s ∉ l) :
    m'.value s = m.value s := by
  by_cases hlt : s.index < m.size
  · exact h.keeps.value s hlt hs
  · have hnone : m.cell? s = none := Array.getElem?_eq_none (Nat.le_of_not_lt hlt)
    have hnone' := (h.cell s hs).trans hnone
    rw [Memory.value, Memory.value, hnone, hnone']

theorem frame (h : Refilled id p m l p' m') {st : Stack} (hst : st.Spans m k)
    (hd : k.Disjoint l) : st.Spans m' k := by
  refine { hst with linked := hst.linked.frame fun s hs => ?_ }
  rw [link?, link?, h.cell s (hd hs)]

theorem refl (h : p.Ready id m) : Refilled id p m [] p m :=
  ⟨h.free, rfl, rfl, by simp, Keeps.refl h.laid [], fun _ _ => rfl⟩

theorem trans (h : Refilled id p m k p' m') (h' : Refilled id p' m' l p'' m'')
    (hd : k.Disjoint l) : Refilled id p m (l ++ k) p'' m'' := by
  have hfree := h'.free
  rw [h.free.slots_eq, ← List.append_assoc] at hfree
  constructor
  · exact hfree
  · rw [h'.available, h.available, List.length_append]
    omega
  · have hpool := h'.pool
    rw [h.pool, Nat.add_assoc, Nat.add_comm k.length, ← List.length_append] at hpool
    exact hpool
  · intro s hs
    rcases List.mem_append.1 hs with hs | hs
    · rw [← h.strategy]
      exact h'.clean s hs
    · exact (h.clean s hs).keeps h'.keeps (hd hs)
  · exact (h.keeps.mono (List.subset_append_right l k)).trans
      (h'.keeps.mono (List.subset_append_left l k))
  · intro s hs
    rw [List.mem_append, not_or] at hs
    rw [h'.cell s hs.1, h.cell s hs.2]

theorem takes (h : Refilled id p m k p' m') (ht : p.Takes id m (l ++ k)) : p'.Takes id m' l := by
  have hn := List.nodup_append'.1 ht.nodup
  have howner : ∀ s, m.owner? s = some id → m'.owner? s = some id := by
    intro s hs
    by_cases hk : s ∈ k
    · exact (h.clean s hk).owner
    · rw [owner?, h.cell s hk]
      exact hs
  have hcell : ∀ s c, m'.cell? s = some c → ∃ c', m.cell? s = some c' := by
    intro s c hc
    by_cases hk : s ∈ k
    · obtain ⟨c', hc', -⟩ := Option.map_eq_some_iff.1 (ht.owned s (List.mem_append_right l hk))
      exact ⟨c', hc'⟩
    · exact ⟨c, (h.cell s hk).symm.trans hc⟩
  constructor
  · constructor
    · exact h.keeps.laid
    · intro s c hc ho
      obtain ⟨c', hc'⟩ := hcell s c hc
      obtain ⟨c'', hc'', hrun, howner⟩ := h.keeps.cell s c' hc'
      obtain rfl : c'' = c := Option.some.inj (hc''.symm.trans hc)
      rw [h.strategy, hrun]
      exact ht.sized s c' hc' (howner.symm.trans ho)
    · rw [h.free.slots_eq]
      exact h.free
  · exact fun s hs => howner s (ht.owned s (List.mem_append_left k hs))
  · exact hn.1
  · rw [h.free.slots_eq, List.disjoint_append_right]
    exact ⟨hn.2.2, fun s hs => ht.apart (List.mem_append_left k hs)⟩

theorem same {m₁ m₁' : Memory ε} {p₁' : Pool ε} (h : Refilled id p m l p' m')
    (h₁ : Refilled id p m₁ l p₁' m₁') (hr : Relinks m m₁ l)
    (hfree : p.free.slots m₁ = p.free.slots m) :
    p₁' = p' ∧ p'.free.slots m₁' = p'.free.slots m' ∧ ∀ s, m₁'.value s = m'.value s := by
  have hfree₁ := h₁.free
  rw [hfree] at hfree₁
  have heq : p₁'.free = p'.free := h.free.eq hfree₁
  refine ⟨?_, ?_, fun s => ?_⟩
  · rw [h₁.pool, h.pool, heq]
  · rw [h.free.slots_eq, ← heq, hfree₁.slots_eq]
  · by_cases hs : s ∈ l
    · rw [(h₁.clean s hs).value, (h.clean s hs).value]
    · rw [h₁.value hs, value_of_unlinked hr.unlinked, h.value hs]

end Refilled

theorem Pool.Takes.refilled (h : p.Takes id m l) (m' : Memory ε) (free : Stack)
    (hr : Relinks (Call.cleanAll id p.strategy.pristine m l).1 m' l)
    (hfree : free.Spans m' (l ++ p.free.slots m)) :
    Refilled id p m l { p with
      free, counters := { p.counters with releases := p.counters.releases + l.length } } m' := by
  have hkeeps := Call.cleanAll_keeps id p.strategy.pristine h.laid l
  constructor
  · exact hfree
  · show free.length = p.free.length + l.length
    rw [hfree.length, h.free.length, List.length_append, Nat.add_comm]
  · rfl
  · intro s hs
    have hclean := h.cleaned s hs
    exact ⟨(owner?_of_unlinked hr.unlinked s).trans hclean.owner,
      (value_of_unlinked hr.unlinked s).trans hclean.value⟩
  · exact hkeeps.trans (Keeps.of_unlinked hkeeps.laid hr.unlinked l)
  · intro s hs
    rw [hr.cell? hs, cell?, Call.cells_cleanAll, cell?]

/-! ## Calls that give back -/

section

variable {allocator : Allocator} {made : Nat}

/-- What a call that gives back comes to by itself. -/
def Regains (id : PoolId) (p : Pool ε) (m : Memory ε) (l : List Slot) (m' : Memory ε)
    (p' : Pool ε) (o : Outcome) : Prop :=
  o = .returned ∧ Refilled id p m l p' m'

theorem Call.regainOne_ends {s : Slot} (h : p.Takes id m [s]) :
    Ends allocator id (Regains id p m [s]) 3 m p (.cleanOne s) made := by
  have hfound := cleanAll_of_owned h.owned p.strategy.pristine
  have hcells := cells_cleanAll id p.strategy.pristine m [s]
  have hrefilled := h.refilled
  rcases hclean : cleanAll id p.strategy.pristine m [s] with ⟨m₁, found⟩
  rw [hclean] at hfound hcells hrefilled
  obtain rfl : found = none := hfound
  have hstep : (cleanOne s).step id true m p = (m₁, p, none, .pushOne s) := by
    simp only [step, hclean]
  have hlt : s.index < m₁.size := by
    obtain ⟨c, hc, -⟩ := Option.map_eq_some_iff.1 (h.owned s (List.mem_singleton.2 rfl))
    have hlt := lt_size_of_cell? hc
    rwa [size, ← hcells] at hlt
  have hfree := h.free.of_cells hcells
  refine .step rfl rfl hstep (.step rfl rfl rfl (.step rfl rfl rfl (.finished 0 made ⟨rfl, ?_⟩)))
  exact hrefilled _ _ (Stack.push_relinks m₁ p.free s)
    (Stack.push_spans hfree hlt (h.apart (List.mem_singleton.2 rfl)))

theorem Call.regainMany_ends {st : Stack} (hst : st.Spans m l) (h : p.Takes id m l) :
    Ends allocator id (Regains id p m l) 3 m p (.cleanMany st) made := by
  cases hempty : st.isEmpty with
  | true =>
    obtain rfl : l = [] := hst.isEmpty_iff.1 hempty
    have hstep : (cleanMany st).step id true m p = (m, p, none, .finished .returned) := by
      simp only [step, hempty, if_true]
    exact .step rfl rfl hstep (.finished 2 made ⟨rfl, Refilled.refl h.toReady⟩)
  | false =>
    have hfound := cleanAll_of_owned h.owned p.strategy.pristine
    have hcells := cells_cleanAll id p.strategy.pristine m l
    have hrefilled := h.refilled
    rcases hclean : cleanAll id p.strategy.pristine m l with ⟨m₁, found⟩
    rw [hclean] at hfound hcells hrefilled
    obtain rfl : found = none := hfound
    have hstep : (cleanMany st).step id true m p = (m₁, p, none, .appendMany st) := by
      simp only [step, hempty, hst.slots_eq, hclean]
      rfl
    have hst' := hst.of_cells hcells
    have hdone := hrefilled _ _ (Stack.append_relinks p.free hst')
      (Stack.append_spans (h.free.of_cells hcells) hst' h.apart)
    rw [← hst.length] at hdone
    exact .step rfl rfl hstep (.step rfl rfl rfl (.step rfl rfl rfl
      (.finished 0 made ⟨rfl, hdone⟩)))

end

section

variable {a : Arena ε}

theorem exists_refilled_one (hp : a.pool? id = some p) {s : Slot} (h : p.Takes id a.memory [s])
    (allocator : Allocator) :
    ∃ a' p', a.Completes allocator id (.cleanOne s) a' p' .returned ∧
      Refilled id p a.memory [s] p' a'.memory := by
  have hends : Call.Ends allocator id _ 3 a.memory p (.cleanOne s) 0 := Call.regainOne_ends h
  obtain ⟨a', p', o, hdone, rfl, hrefilled⟩ := hends.completes hp (by
    rw [Arena.patience]
    omega)
  exact ⟨a', p', hdone, hrefilled⟩

theorem exists_refilled_many (hp : a.pool? id = some p) {st : Stack} (hst : st.Spans a.memory l)
    (h : p.Takes id a.memory l) (allocator : Allocator) :
    ∃ a' p', a.Completes allocator id (.cleanMany st) a' p' .returned ∧
      Refilled id p a.memory l p' a'.memory := by
  have hends : Call.Ends allocator id _ 3 a.memory p (.cleanMany st) 0 :=
    Call.regainMany_ends hst h
  obtain ⟨a', p', o, hdone, rfl, hrefilled⟩ := hends.completes hp (by
    rw [Arena.patience]
    omega)
  exact ⟨a', p', hdone, hrefilled⟩

end

/-! ## Slots that a client holds -/

theorem World.ready {w : World ε} (h : w.Reachable) (hp : w.arena.pool? id = some p) :
    p.Ready id w.memory := by
  have htended := (tended_of_reachable h).arena
  constructor
  · exact htended.laid
  · intro s c hc ho
    obtain ⟨p', hp', hwidth⟩ := htended.sized s c hc
    rw [ho, hp] at hp'
    obtain rfl : p = p' := Option.some.inj hp'
    exact hwidth
  · exact free_spans h hp

namespace World.Has

variable {rest : List Client} {a : Arena ε} {held : List Held} {call : Option (PoolId × Call)}
  {x : Held}

theorem apart_free (h : Has rest a (x :: held) call) (hp : a.pool? id = some p) :
    (x.slots a.memory).Disjoint (p.free.slots a.memory) := by
  obtain ⟨frame, hpart⟩ := h.exists_own_partition
  intro s hs hs'
  have hfree : s ∈ slotsOf a.memory a.free := by
    refine List.mem_flatMap.2 ⟨.chain p.free, List.mem_map.2 ⟨p, ?_, rfl⟩, hs'⟩
    exact Array.mem_toList_iff.2 (Array.mem_of_getElem? hp)
  refine hpart.disjoint hs ?_
  rw [slotsOf_append, slotsOf_append]
  exact List.mem_append_right _ (List.mem_append_left _ hfree)

theorem takes (h : Has rest a (x :: held) call) (hp : a.pool? id = some p)
    (howned : ∀ s ∈ x.slots a.memory, a.memory.owner? s = some id) :
    p.Takes id a.memory (x.slots a.memory) := by
  have hapart := h.apart_free hp
  obtain ⟨frame, hpart⟩ := h.exists_own_partition
  have hn := hpart.nodup
  rw [slotsOf_append] at hn
  obtain ⟨l, clients, losses, hr, -⟩ := h
  exact ⟨World.ready hr hp, howned, (List.nodup_append'.1 hn).1, hapart⟩

end World.Has

end SlotPool
