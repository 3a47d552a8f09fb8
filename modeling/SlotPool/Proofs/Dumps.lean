import SlotPool.Cli.Dump
import SlotPool.Proofs.Alone
import SlotPool.Proofs.Values
import Mathlib.Data.List.Sort
import Mathlib.Logic.Function.Iterate

/-!
# What a stack put in order shows

Each value goes into a slot of its own, and the slot to its place in the stack, so that the stack
always shows what it was given in order. The pool makes one block whenever it has nothing free, and
has all its slots back when the stack is dropped.
-/

namespace SlotPool

open Memory

namespace Cli.Dump

/-! ## Values -/

/-- The step of the sequence on numbers below `2 ^ 32`. -/
def xorshift (x : Nat) : Nat :=
  let x := x ^^^ (x <<< 13 % 2 ^ 32)
  let x := x ^^^ (x >>> 17)
  x ^^^ (x <<< 5 % 2 ^ 32)

theorem toNat_scatter (x : UInt32) : (scatter x).toNat = xorshift x.toNat := by
  simp [scatter, xorshift]

theorem valuesFrom_eq (x : UInt32) (count : Nat) :
    valuesFrom x count = (List.range count).map fun i => xorshift^[i + 1] x.toNat % 1000 := by
  induction count generalizing x with
  | zero => rfl
  | succ count ih =>
    rw [valuesFrom, ih, List.range_succ_eq_map, toNat_scatter]
    simp [Function.iterate_succ_apply]

/-! ## Numbers in order -/

def entries (vs : List Nat) : List (Array Int) := vs.map fun v : Nat => #[(v : Int)]

def ascending : Array Int → Array Int → Ordering := (ItemType.number 0).compare .ascending

theorem ascending_eq (a b : Nat) : ascending #[(a : Int)] #[(b : Int)] = compare a b := by
  have horder : ascending #[(a : Int)] #[(b : Int)] = (compare (a : Int) (b : Int)).then .eq := rfl
  rw [horder, Ordering.then_eq]
  simp only [compare, compareOfLessAndEq, Int.ofNat_lt, Int.natCast_inj]

theorem isAscending_entries {vs : List Nat} (h : vs.Pairwise (· ≤ ·)) :
    Stack.isAscending ascending (entries vs) = true := by
  induction h with
  | nil => rfl
  | @cons v vs hv h ih =>
    cases vs with
    | nil => rfl
    | cons w vs =>
      have hle : ascending #[(v : Int)] #[(w : Int)] ≠ .gt := by
        rw [ascending_eq, Ne, Nat.compare_eq_gt]
        exact Nat.not_lt.2 (hv w List.mem_cons_self)
      simp only [entries, List.map_cons, Stack.isAscending, hle, if_false]
      exact ih

/-- A number goes in front of the first one that is greater. -/
def place (v : Nat) (vs : List Nat) : List Nat :=
  vs.takeWhile (fun w => !decide (v < w)) ++ v :: vs.dropWhile (fun w => !decide (v < w))

theorem place_perm (v : Nat) (vs : List Nat) : (place v vs).Perm (v :: vs) := by
  apply List.perm_middle.trans
  rw [List.takeWhile_append_dropWhile]

theorem pairwise_place {v : Nat} {vs : List Nat} (h : vs.Pairwise (· ≤ ·)) :
    (place v vs).Pairwise (· ≤ ·) := by
  induction h with
  | nil => simp [place]
  | @cons w vs hw h ih =>
    by_cases hlt : v < w
    · have hfront : place v (w :: vs) = v :: w :: vs := by simp [place, hlt]
      rw [hfront]
      refine List.pairwise_cons.2 ⟨fun u hu => ?_, List.pairwise_cons.2 ⟨hw, h⟩⟩
      rcases List.mem_cons.1 hu with rfl | hu
      · exact Nat.le_of_lt hlt
      · exact Nat.le_trans (Nat.le_of_lt hlt) (hw u hu)
    · have hrest : place v (w :: vs) = w :: place v vs := by simp [place, hlt]
      rw [hrest]
      refine List.pairwise_cons.2 ⟨fun u hu => ?_, ih⟩
      rcases List.mem_cons.1 ((place_perm v vs).mem_iff.1 hu) with rfl | hu
      · exact Nat.not_lt.1 hlt
      · exact hw u hu

theorem map_insertBefore {m : Memory Int} {greater : Slot → Bool} {s : Slot} {l : List Slot}
    {v : Nat} {vs : List Nat}
    (hg : ∀ t (w : Nat), m.value t = #[(w : Int)] → greater t = decide (v < w))
    (hs : m.value s = #[(v : Int)]) (hl : l.map m.value = entries vs) :
    (Stack.insertBefore greater s l).map m.value = entries (place v vs) := by
  induction l generalizing vs with
  | nil =>
    obtain rfl : vs = [] := by simpa [entries] using hl.symm
    simp [Stack.insertBefore, place, entries, hs]
  | cons t l ih =>
    cases vs with
    | nil => simp [entries] at hl
    | cons w vs =>
      obtain ⟨ht, hl⟩ : m.value t = #[(w : Int)] ∧ l.map m.value = entries vs := by
        simpa [entries] using hl
      have hcompare := hg t w ht
      by_cases hlt : v < w
      · have hfront : place v (w :: vs) = v :: w :: vs := by simp [place, hlt]
        rw [hfront]
        simp [Stack.insertBefore, hcompare, hlt, hs, ht, entries, hl]
      · have hrest : place v (w :: vs) = w :: place v vs := by simp [place, hlt]
        rw [Stack.insertBefore_cons_of_neg _ _ _ _ (by simp [hcompare, hlt]), List.map_cons,
          ih hl, hrest, ht]
        rfl

/-! ## One value after the other -/

/-- The pool has provided `count` slots, and made one block whenever it had none left. -/
structure Grown (strategy : Strategy Int) (count : Nat) (p : Pool Int) : Prop where
  strategy : p.strategy = strategy
  idle : p.growing = false
  counters : p.counters = {
    acquisitions := count, growthEvents := p.blocks.length, blocksProvisioned := p.blocks.length }
  available_lt : p.available < p.blockSize

/-- Everything that is in the stack is in order there. -/
structure Ordered (strategy : Strategy Int) (vs : List Nat) (s : Session Int) (l : LeaseStack) :
    Prop where
  rests : Session.Rests (.number 0) s
  item : s.item = .number 0
  registers : s.registers = [("stack", .leaseStack l)]
  pool : l.pool = some ⟨0⟩
  values : ∃ sorted, l.stack.values s.memory = entries sorted ∧ sorted.Pairwise (· ≤ ·) ∧
    sorted.Perm vs
  grown : ∃ p, s.arena.pool? ⟨0⟩ = some p ∧ Grown strategy vs.length p

/-- The value is in a slot that has still to go into the stack. -/
structure Taken (strategy : Strategy Int) (vs : List Nat) (v : Nat) (s : Session Int)
    (l : LeaseStack) (sl : Slot) : Prop where
  rests : Session.Rests (.number 0) s
  item : s.item = .number 0
  registers : s.registers =
    [("slot", .lease ⟨some sl, some ⟨0⟩⟩), ("stack", .leaseStack l)]
  pool : l.pool = some ⟨0⟩
  values : ∃ sorted, l.stack.values s.memory = entries sorted ∧ sorted.Pairwise (· ≤ ·) ∧
    sorted.Perm vs
  value : s.memory.value sl = #[(v : Int)]
  grown : ∃ p, s.arena.pool? ⟨0⟩ = some p ∧ Grown strategy (vs.length + 1) p

/-- Blocks of this kind can be addressed, and the allocator has what they need. -/
structure Suffices (allocator : Allocator) (strategy : Strategy Int) : Prop where
  object : strategy.shape = .object
  addressable : strategy.addressable 1 = true
  granted : ∀ error, ¬ Call.Refused allocator strategy error

variable {strategy : Strategy Int} {allocator : Allocator} {vs : List Nat} {v : Nat}
  {s : Session Int} {l : LeaseStack} {sl : Slot}

theorem values_write {m : Memory Int} (hl : m.Laid) {st : Stack} (hn : sl ∉ st.slots m)
    (content : Content Int) : st.values (content.write m sl) = st.values m := by
  have hslots : st.slots (content.write m sl) = st.slots m :=
    Piece.slots_of_cells (cells_write m sl content) (.chain st)
  rw [Stack.values, Stack.values, hslots]
  refine List.map_congr_left fun t ht => value_write_of_ne hl ?_ content
  rintro rfl
  exact hn ht

theorem values_of_stays {m m' : Memory Int} (h : (Held.leaseStack l).Stays m m') :
    l.stack.values m' = l.stack.values m := by
  have hslots : l.stack.slots m' = l.stack.slots m := by
    simpa [Held.slots, Held.pieces] using h.slots
  rw [Stack.values, Stack.values, hslots]
  exact List.map_congr_left fun t ht => h.value t (by simpa [Held.slots, Held.pieces] using ht)

theorem Grown.gotOne {count held held' : Nat} {p p' : Pool Int} {o : Outcome}
    (h : Grown strategy count p) (he : p.Exact held) (hgot : Call.GotOne p p' o)
    (he' : p'.Exact held') (hempty : p.free.head = none → p.available = 0) :
    Grown strategy (count + 1) p' := by
  have hsize : p'.blockSize = p.blockSize := congrArg Strategy.blockSize hgot.strategy
  have hcounters := hgot.counters
  have hblocks := hgot.blocks
  rw [h.counters] at hcounters
  refine ⟨hgot.strategy.trans h.strategy, hgot.growing, ?_, ?_⟩
  · rw [hcounters, hblocks]
  · have hheld : held = count := by
      have := he.acquired_eq
      rw [h.counters] at this
      simpa using this.symm
    have hheld' : held' = count + 1 := by
      have := he'.acquired_eq
      rw [hcounters] at this
      simpa using this.symm
    have hbefore := he.held_eq.symm.trans he.allocated_eq
    have hafter := he'.held_eq.symm.trans he'.allocated_eq
    have hlt := h.available_lt
    rw [hblocks, hsize, Nat.add_mul] at hafter
    rw [hsize]
    cases hhead : p.free.head with
    | none =>
      have hnone := hempty hhead
      rw [hhead] at hafter
      simp at hafter
      omega
    | some first =>
      rw [hhead] at hafter
      simp at hafter
      omega

theorem Ordered.acquire (h : Ordered strategy vs s l) (hs : Suffices allocator strategy) (v : Nat) :
    ∃ s' sl, s.perform allocator (.acquire 0 true (some (.all v)) "slot") = (s', .ok .done) ∧
      Taken strategy vs v s' l sl := by
  obtain ⟨p, hp, hgrown⟩ := h.grown
  have hprovides : Call.Provides allocator p := by
    refine ⟨hgrown.idle, ?_, ?_⟩ <;> rw [hgrown.strategy]
    · exact hs.addressable
    · exact hs.granted
  have hstart : s.start (.acquire 0 true (some (.all (v : Int))) "slot") =
      (s, .call ⟨0⟩ .popOne (.keep "slot" true (some (.all v)))) := by
    have hp' : s.pool? 0 = some p := hp
    have hitem : s.item.buffered = false := by rw [h.item]; rfl
    simp only [Session.start, Session.onPool, hp', hitem]
    rfl
  have hfuel : 16 ≤ s.arena.patience ⟨0⟩ .popOne := by
    rw [Arena.patience]
    omega
  obtain ⟨a, p', o, made, hdone, hpools, hgot⟩ := (Call.popOne_ends hprovides).complete hp hfuel
  obtain ⟨sl, rfl⟩ := hgot.outcome
  have hp' : a.pool? ⟨0⟩ = some p' := by rw [hpools, if_pos rfl]
  have hfree : s.registers.get? "slot" = none := by rw [h.registers]; rfl
  obtain ⟨x, hx, hperform⟩ := h.rests.perform_acquired hstart hdone hfree
  obtain rfl : x = .lease ⟨some sl, some ⟨0⟩⟩ := by
    simp only [Session.heldOf, if_true] at hx
    cases hl : Lease.ofSlot a.memory ⟨0⟩ sl with
    | error v => simp [hl, Except.map] at hx
    | ok l =>
      obtain ⟨-, rfl⟩ := Lease.ofSlot_ok hl
      simpa [hl, Except.map] using hx.symm
  have hrests := h.rests.of_perform hperform
  -- The call leaves the stack alone, and so does what is written to the new slot.
  have hbegun := (h.rests.start (.acquire 0 true (some (.all (v : Int))) "slot")).isClient.has
  rw [hstart] at hbegun
  have hstays : (Held.leaseStack l).Stays s.memory a.memory := by
    have hmem : Held.leaseStack l ∈ s.registers.things := by
      rw [h.registers]
      exact List.mem_singleton_self _
    have hkept := hbegun.proceed_stays hmem allocator (fun _ => false)
      (s.arena.patience ⟨0⟩ .popOne) 0
    rw [show s.arena.proceed allocator ⟨0⟩ (fun _ => false) (s.arena.patience ⟨0⟩ .popOne)
      ⟨.popOne, 0⟩ = _ from hdone] at hkept
    exact hkept
  obtain ⟨made', hdoing⟩ := h.rests.reaches hstart hdone
  have hclean : Clean a.memory ⟨0⟩ p'.strategy sl :=
    hdoing.isClient.has.acquired_clean hp' sl (by simp [Grant.pieces])
  have hlaid : a.memory.Laid := hdoing.isClient.has.laid
  have hregisters : s.registers.store "slot" (.lease ⟨some sl, some ⟨0⟩⟩) =
      [("slot", .lease ⟨some sl, some ⟨0⟩⟩), ("stack", .leaseStack l)] := by
    rw [h.registers]
    rfl
  have hapart : sl ∉ l.stack.slots a.memory := by
    have hhas := hrests.holds.has
    simp only [hregisters] at hhas
    have hdisjoint := hhas.apart (x := .lease ⟨some sl, some ⟨0⟩⟩)
      (y := .leaseStack l) (List.mem_singleton_self _)
    have hslots : l.stack.slots (Content.write a.memory sl (.all (v : Int))) =
        l.stack.slots a.memory :=
      Piece.slots_of_cells (cells_write a.memory sl _) (.chain l.stack)
    have hnot := hdisjoint (a := sl) (by simp [Held.slots, Held.pieces])
    simpa [Held.slots, Held.pieces, Session.writeContent, hslots] using hnot
  obtain ⟨sorted, hvalues, hsorted, hperm⟩ := h.values
  obtain ⟨held, hexact⟩ := h.rests.exact ⟨0⟩ hp
  obtain ⟨held', hexact'⟩ := hrests.exact ⟨0⟩ hp'
  refine ⟨_, sl, hperform, hrests, h.item, hregisters, h.pool, ⟨sorted, ?_, hsorted, hperm⟩, ?_, p',
    hp', hgrown.gotOne hexact hgot hexact' fun hnone => ?_⟩
  · exact (values_write hlaid hapart (.all (v : Int))).trans
      ((values_of_stays hstays).trans hvalues)
  · obtain ⟨cell, hcell⟩ := exists_cell? hclean.lt_size
    have hwidth : p'.strategy.shape.width = 1 := by
      rw [hgot.strategy, hgrown.strategy, hs.object]
      rfl
    refine (Content.value_write_self hlaid hcell (.all (v : Int))).trans ?_
    rw [Content.onto, hclean.value, hwidth]
    simp
  · have hspans := hbegun.free_sound hp
    have hnil : p.free.slots s.arena.memory = [] := by
      rw [← List.head?_eq_none_iff, ← hspans.head, hnone]
    rw [Pool.available, hspans.length, hnil, List.length_nil]

/-! ## Into the stack -/

def inserted (s : Session Int) (l : LeaseStack) (sl : Slot) : Session Int :=
  { s with
    arena := { s.arena with memory := (l.stack.insert ascending s.memory sl).1 }
    registers :=
      [("stack", .leaseStack { l with stack := (l.stack.insert ascending s.memory sl).2 })] }

theorem Taken.perform_insert (h : Taken strategy vs v s l sl) (allocator : Allocator) :
    s.perform allocator (.insert "stack" "slot" .ascending) = (inserted s l sl, .ok .done) := by
  obtain ⟨item, ⟨memory, pools, journal⟩, registers⟩ := s
  obtain ⟨st, pool⟩ := l
  obtain rfl : item = .number 0 := h.item
  obtain rfl : registers = _ := h.registers
  obtain rfl : pool = some ⟨0⟩ := h.pool
  rfl

theorem Taken.insert (h : Taken strategy vs v s l sl) (allocator : Allocator) :
    ∃ s' l', s.perform allocator (.insert "stack" "slot" .ascending) = (s', .ok .done) ∧
      Ordered strategy (v :: vs) s' l' := by
  have hperform := h.perform_insert allocator
  have hhas := h.rests.holds.has
  simp only [h.registers] at hhas
  have hspans : l.stack.Spans s.memory (l.stack.slots s.memory) :=
    hhas.sound (x := .leaseStack l) (by simp [Registers.things]) (.chain l.stack)
      (List.mem_singleton_self _)
  have hlt : sl.index < s.memory.size :=
    hhas.lt_size (x := .lease ⟨some sl, some ⟨0⟩⟩) (by simp [Registers.things])
      (by simp [Held.slots, Held.pieces])
  have hapart : sl ∉ l.stack.slots s.memory := by
    have hdisjoint := hhas.apart (x := .lease ⟨some sl, some ⟨0⟩⟩)
      (y := .leaseStack l) (List.mem_singleton_self _)
    have hnot := hdisjoint (a := sl) (by simp [Held.slots, Held.pieces])
    simp only [Held.slots, Held.pieces, slotsOf_cons, slotsOf_nil, List.append_nil] at hnot
    exact hnot
  obtain ⟨sorted, hvalues, hsorted, hperm⟩ := h.values
  refine ⟨_, _, hperform, h.rests.of_perform hperform, h.item, rfl, h.pool,
    ⟨place v sorted, ?_, pairwise_place hsorted, (place_perm v sorted).trans (hperm.cons v)⟩,
    h.grown⟩
  have hvalue : (l.stack.insert ascending s.memory sl).1.value = s.memory.value :=
    funext fun t => value_of_unlinked (Stack.unlinked_insert ascending s.memory l.stack sl) t
  change List.map (l.stack.insert ascending s.memory sl).1.value
    ((l.stack.insert ascending s.memory sl).2.slots (l.stack.insert ascending s.memory sl).1) = _
  rw [(Stack.insert_spans ascending hspans hlt hapart).slots_eq, hvalue]
  refine map_insertBefore (fun t w ht => ?_) h.value hvalues
  rw [h.value, ht, ascending_eq]
  exact decide_eq_decide.2 Nat.compare_eq_lt

theorem Ordered.performAll (h : Ordered strategy vs s l) (hs : Suffices allocator strategy)
    (us : List Nat) : ∃ s' l', s.performAll allocator (us.flatMap insertion) = .ok s' ∧
      Ordered strategy (us.reverse ++ vs) s' l' := by
  induction us generalizing vs s l with
  | nil => exact ⟨s, l, rfl, h⟩
  | cons u us ih =>
    obtain ⟨s₁, sl, hacquire, htaken⟩ := h.acquire hs u
    obtain ⟨s₂, l₂, hinsert, hordered⟩ := htaken.insert allocator
    obtain ⟨s', l', hrest, hdone⟩ := ih hordered
    refine ⟨s', l', ?_, by simpa using hdone⟩
    rw [List.flatMap_cons, insertion]
    simp only [List.cons_append, List.nil_append, Session.performAll, hacquire, hinsert]
    exact hrest

/-! ## What is shown, and what is left -/

/-- The statistics of a pool that has provided so many slots one by one, and has them all back. -/
def balanced (count blockSize : Nat) : PoolStats :=
  let blocks := (count + (blockSize - 1)) / blockSize
  { acquisitions := count, releases := count, growthEvents := blocks, blocksProvisioned := blocks,
    allocated := blocks * blockSize, available := blocks * blockSize }

theorem Grown.stats_eq {count held held' : Nat} {p p' : Pool Int} (h : Grown strategy count p)
    (he : p.Exact held) (hs : p'.strategy = p.strategy) (hb : p'.blocks = p.blocks)
    (hc : p'.counters = { p.counters with releases := p.counters.releases + count })
    (he' : p'.Exact held') : p'.stats = balanced count strategy.blockSize := by
  have hsize : p'.blockSize = p.blockSize := congrArg Strategy.blockSize hs
  have hsize' : p.blockSize = strategy.blockSize := congrArg Strategy.blockSize h.strategy
  rw [h.counters] at hc
  have hheld : held = count := by
    have := he.acquired_eq
    rw [h.counters] at this
    simpa using this.symm
  have hheld' : held' = 0 := by
    have := he'.acquired_eq
    rw [hc] at this
    simpa using this
  have hbefore := he.held_eq.symm.trans he.allocated_eq
  have hblocks : (count + (strategy.blockSize - 1)) / strategy.blockSize = p.blocks.length := by
    have hlt := h.available_lt
    rw [hsize'] at hbefore hlt
    refine Nat.div_eq_of_lt_le ?_ ?_
    · omega
    · rw [Nat.succ_mul]
      omega
  have hallocated : p'.allocated = p.blocks.length * strategy.blockSize := by
    rw [he'.allocated_eq, hb, hsize, hsize']
  have havailable : p'.available = p'.allocated := by rw [he'.held_eq, hheld', Nat.add_zero]
  simp only [Pool.stats, balanced, hblocks, havailable, hallocated, hc, Nat.zero_add]

theorem Ordered.spans (h : Ordered strategy vs s l) :
    l.stack.Spans s.memory (l.stack.slots s.memory) := by
  have hhas := h.rests.holds.has
  simp only [h.registers] at hhas
  exact hhas.sound (x := .leaseStack l) (List.mem_singleton_self _) (.chain l.stack)
    (List.mem_singleton_self _)

theorem Ordered.length_eq (h : Ordered strategy vs s l) : l.stack.length = vs.length := by
  obtain ⟨sorted, hvalues, -, hperm⟩ := h.values
  have hlength := congrArg List.length hvalues
  rw [Stack.values, List.length_map, entries, List.length_map] at hlength
  rw [h.spans.length, hlength, hperm.length_eq]

theorem Ordered.isEmpty_iff (h : Ordered strategy vs s l) :
    l.stack.isEmpty = true ↔ vs.length = 0 := by
  rw [h.spans.isEmpty_iff, ← h.length_eq, h.spans.length, List.length_eq_zero_iff]

theorem Ordered.drop (h : Ordered strategy vs s l) (allocator : Allocator) :
    ∃ s' p', s.perform allocator (.drop "stack") = (s', .ok .done) ∧ s'.pool? 0 = some p' ∧
      p'.stats = balanced vs.length strategy.blockSize := by
  obtain ⟨p, hp, hgrown⟩ := h.grown
  have hg : s.registers.get? "stack" = some (.leaseStack l) := by rw [h.registers]; rfl
  have hperform := h.rests.holds.perform_drop hg allocator
  have hrests := h.rests.of_perform hperform
  obtain ⟨held, hexact⟩ := h.rests.exact ⟨0⟩ hp
  cases hempty : l.stack.isEmpty with
  | true =>
    have hd : (Held.leaseStack l).dropped = .nothing := by
      simp [Held.dropped, LeaseStack.dropped, hempty]
    rw [hd] at hperform
    have hnone := h.isEmpty_iff.1 hempty
    refine ⟨_, p, hperform, hp, hgrown.stats_eq hexact rfl rfl ?_ hexact⟩
    rw [hnone, Nat.add_zero]
  | false =>
    have hd : (Held.leaseStack l).dropped = .call ⟨0⟩ (.cleanMany l.stack) := by
      simp [Held.dropped, LeaseStack.dropped, hempty, h.pool]
    have hout := h.rests.holds.out hg
    have hcall := hout.drop
    rw [hd] at hcall
    have hreturned := hcall.complete_dropped hd (hout.lawful List.mem_cons_self) allocator
    have hfuel : 3 ≤ s.arena.patience ⟨0⟩ (.cleanMany l.stack) := by
      rw [Arena.patience]
      omega
    have hends : Call.Ends allocator ⟨0⟩ (fun _ => Call.GaveBack p l.stack.length) 3 s.memory p
        (.cleanMany l.stack) 0 := Call.cleanMany_ends hempty
    obtain ⟨a, p', o, made, hdone, hpools, hgot⟩ := hends.complete hp hfuel
    have hp' : a.pool? ⟨0⟩ = some p' := by rw [hpools, if_pos rfl]
    rw [hd, Arena.disposed, hdone] at hperform hrests
    obtain ⟨held', hexact'⟩ := hrests.exact ⟨0⟩ hp'
    rw [hdone] at hreturned
    cases hgot with
    | broken v => simp at hreturned
    | returned hs hb hc =>
      refine ⟨_, p', hperform, hp', hgrown.stats_eq hexact hs hb ?_ hexact'⟩
      rw [hc, h.length_eq]

/-! ## From start to end -/

def drawn (count : Nat) : List Nat :=
  (List.range count).map fun i => xorshift^[i + 1] 0x9E3779B9 % 1000

def contents (count limit : Nat) : String :=
  if count = 0 then "(empty)"
  else " ".intercalate (((drawn count).mergeSort.take limit).map toString ++
    if limit < count then ["and more..."] else [])

theorem Ordered.values_eq {us : List Nat} (h : Ordered strategy vs s l) (hperm : vs.Perm us) :
    l.stack.values s.memory = entries us.mergeSort := by
  obtain ⟨sorted, hvalues, hsorted, hsame⟩ := h.values
  have hunique : sorted = us.mergeSort :=
    ((hsame.trans hperm).trans (List.mergeSort_perm us _).symm).eq_of_pairwise' hsorted
      (List.pairwise_mergeSort' (· ≤ ·) us)
  rw [hvalues, hunique]

theorem line_entry (v : Nat) : ((ItemType.number 0).valueTree #[(v : Int)]).line = toString v := by
  simp only [ItemType.valueTree]
  rfl

theorem Ordered.summary_eq {count : Nat} (h : Ordered strategy vs s l)
    (hperm : vs.Perm (drawn count)) (limit : Nat) :
    l.stack.summary (.number 0) s.memory limit = contents count limit := by
  have hlength : vs.length = count := by
    rw [hperm.length_eq, drawn, List.length_map, List.length_range]
  have hshown : ((l.stack.slots s.memory).take limit).map
      (fun sl => ((ItemType.number 0).valueTree (s.memory.value sl)).line) =
      ((drawn count).mergeSort.take limit).map toString := by
    have hvalues := h.values_eq hperm
    rw [Stack.values] at hvalues
    have hread : ((l.stack.slots s.memory).take limit).map
        (fun sl => ((ItemType.number 0).valueTree (s.memory.value sl)).line) =
        (((l.stack.slots s.memory).map s.memory.value).take limit).map
          (fun v => ((ItemType.number 0).valueTree v).line) := by
      rw [← List.map_take, List.map_map]
      rfl
    rw [hread, hvalues, entries, ← List.map_take, List.map_map]
    exact List.map_congr_left fun v _ => line_entry v
  rw [Stack.summary, contents, hshown, h.length_eq, hlength]
  by_cases hcount : count = 0
  · rw [if_pos (h.isEmpty_iff.2 (hlength.trans hcount)), if_pos hcount]
  · rw [if_neg (fun he => hcount (hlength.symm.trans (h.isEmpty_iff.1 he))), if_neg hcount]

def objects (count : Nat) : Strategy Int :=
  .objects (ItemType.number 0).layout (blockSize count) (Nat.le_max_left 1 _)

theorem suffices_objects {count : Nat}
    (h : ∀ made, allocator made ⟨blockSize count, 24⟩ = true) :
    Suffices allocator (objects count) := by
  have hle : blockSize count ≤ 4096 := by
    rw [blockSize]
    omega
  refine ⟨rfl, ?_, ?_⟩
  · have hwidth : (objects count).elementsPerBlock? = some (blockSize count) := by
      refine Word.mul?_eq_some.2 ⟨?_, Nat.one_mul _⟩
      change 1 * blockSize count < _
      rw [Word.limit]
      omega
    have hslots : Word.mul? 1 (objects count).blockSize = some (blockSize count) := hwidth
    have hbytes : Word.mul? (blockSize count) 24 = some (blockSize count * 24) := by
      refine Word.mul?_eq_some.2 ⟨?_, rfl⟩
      rw [Word.limit]
      omega
    have hroom : blockSize count * 24 ≤ Word.maxBytes := by
      rw [Word.maxBytes]
      omega
    have hslot : (objects count).slotBytes? = some 24 := rfl
    simp only [Strategy.addressable, hwidth, hslots, hslot, hbytes, hroom, decide_true]
  · rintro error ⟨made, r, hr, hrefused, -⟩
    obtain rfl : r = ⟨blockSize count, 24⟩ := List.mem_singleton.1 hr
    rw [h made] at hrefused
    cases hrefused

def opened (count : Nat) : Session Int where
  item := .number 0
  arena := ({} : Arena Int).addPool (.fresh (objects count) .headroom ({} : Config).backoffMicros)
  registers := [("stack", .leaseStack { pool := some ⟨0⟩ })]

theorem performAll_opened (allocator : Allocator) (count : Nat) :
    ({ item := .number 0 } : Session Int).performAll allocator [
      .newPool (.sizes (blockSize count) none none),
      .makeLeaseStack 0 "stack"] = .ok (opened count) := by
  have hpos : 0 < blockSize count := Nat.le_max_left 1 _
  have hmade : Session.makePool (ItemType.number 0) (.sizes (blockSize count) none none) =
      .ok (.fresh (objects count) .headroom ({} : Config).backoffMicros) := by
    simp only [Session.makePool, Pool.ofBlockSize, hpos, dite_true]
    rfl
  simp only [Session.performAll, Session.perform, Session.start, Session.newPool, hmade]
  rfl

theorem ordered_opened (allocator : Allocator) (count : Nat) :
    Ordered (objects count) [] (opened count) { pool := some ⟨0⟩ } := by
  refine ⟨Session.Rests.performAll (.inl rfl) (performAll_opened allocator count), rfl, rfl, rfl,
    ⟨[], ?_, .nil, .nil⟩, _, rfl, rfl, rfl, rfl, Nat.le_max_left 1 _⟩
  have hslots := (Stack.spans_empty (opened count).memory).slots_eq
  exact congrArg (List.map (opened count).memory.value) hslots

theorem drawn_eq (count : Nat) : values count = drawn count := valuesFrom_eq seed count

theorem find_eq {count : Nat} (h : ∀ made, allocator made ⟨blockSize count, 24⟩ = true)
    (limit : Nat) :
    find allocator count limit =
      .ok ⟨true, count, contents count limit, balanced count (blockSize count)⟩ := by
  obtain ⟨s, l, hfilled, hordered⟩ :=
    (ordered_opened allocator count).performAll (suffices_objects h) (values count)
  have hperm : ((values count).reverse ++ []).Perm (drawn count) := by
    rw [List.append_nil, drawn_eq]
    exact List.reverse_perm _
  have hlength : ((values count).reverse ++ []).length = count := by
    rw [hperm.length_eq, drawn, List.length_map, List.length_range]
  obtain ⟨s', p', hdropped, hp', hstats⟩ := hordered.drop allocator
  have hsorted : l.stack.isSorted ascending s.memory = true := by
    rw [Stack.isSorted, hordered.values_eq hperm]
    exact isAscending_entries (List.pairwise_mergeSort' (· ≤ ·) _)
  have hg : s.registers.get? "stack" = some (.leaseStack l) := by rw [hordered.registers]; rfl
  have hsorted' : l.stack.isSorted (s.item.compare .ascending) s.memory = true := by
    rw [hordered.item]
    exact hsorted
  have hcontents : l.stack.summary s.item s.memory limit = contents count limit := by
    rw [hordered.item]
    exact hordered.summary_eq hperm limit
  have hdrop : s.performAll allocator [.drop "stack"] = .ok s' := by
    simp only [Session.performAll, hdropped]
  rw [hlength] at hstats
  simp only [find, performAll_opened, hfilled, bind, Except.bind, hg, hsorted', hcontents, hdrop,
    hp', hstats, hordered.length_eq, hlength]
  rfl

/-- The report on so many values, if the allocator has what the blocks need: the beginning of the
numbers in order, and a pool that has all its slots back. -/
theorem report_in_order (allocator : Allocator) (count limit : Nat)
    (h : ∀ made, allocator made ⟨max 1 (min count 4096), 24⟩ = true) :
    report allocator count limit = .ofTexts (title "Sorted Stack Dump" ++ [
        s!"  Values:   {count}",
        s!"  Contents: {contents count limit}",
        "",
        "  " ++ (balanced count (max 1 (min count 4096))).summary,
        ""]) ∧
      (balanced count (max 1 (min count 4096))).outstanding = 0 := by
  refine ⟨?_, Nat.sub_self _⟩
  rw [report, find_eq h limit]
  simp [Finding.report, Report.andThen, Report.ofTexts]
  rfl

theorem report_in_order_five :
    (∀ made, Session.granting made ⟨5, 24⟩ = true) ∧
    report Session.granting 5 3 = .ofTexts (title "Sorted Stack Dump" ++ [
      "  Values:   5",
      "  Contents: 394 621 862 and more...",
      "",
      "  Pool: 5 allocated, 5 available, 0 outstanding; 5 acquisitions, 5 releases, " ++
        "1 growth events (1 blocks), 0 backoffs",
      ""]) := by
  have hsort : (drawn 5).mergeSort = [394, 621, 862, 873, 951] := by
    refine List.Perm.eq_of_pairwise' (r := (· ≤ ·)) (List.pairwise_mergeSort' _ _) (by decide)
      ((List.mergeSort_perm _ _).trans ?_)
    decide +kernel
  have hcontents : contents 5 3 = "394 621 862 and more..." := by
    rw [contents, hsort]
    decide +kernel
  have hreport := (report_in_order Session.granting 5 3 fun _ => rfl).1
  rw [hcontents] at hreport
  refine ⟨fun _ => rfl, hreport.trans ?_⟩
  decide +kernel

end Cli.Dump

end SlotPool
