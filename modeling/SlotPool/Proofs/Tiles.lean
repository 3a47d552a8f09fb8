import SlotPool.Proofs.Additions
import SlotPool.Proofs.Faults

/-!
# Buffers side by side

The slots of a block lie in the block's array one after the other, each as wide as the next, and
fill it. No number by which they are found is too large for a word. Whatever happens later, they
stay where they are, and no other slot comes to lie among them.
-/

namespace SlotPool

open Memory

variable {ε : Type}

/-! ## Where slots lie -/

namespace Memory

def place? (m : Memory ε) (s : Slot) : Option (Run × PoolId) :=
  (m.cell? s).map fun c => (c.run, c.owner)

def room? (m : Memory ε) (array : Nat) : Option Nat := m.arrays[array]?.map Array.size

/-- The element at `k` of the array is one of the slot's. -/
def Covers (m : Memory ε) (s : Slot) (array k : Nat) : Prop :=
  ∃ c, m.cell? s = some c ∧ c.run.array = array ∧
    c.run.start ≤ k ∧ k < c.run.start + c.run.length

def element? (m : Memory ε) (array k : Nat) : Option ε := m.arrays[array]?.bind (·[k]?)

/-- The same slots lie at the same places, in arrays of the same sizes. -/
structure SameLayout (m m' : Memory ε) : Prop where
  place : ∀ s, m'.place? s = m.place? s
  room : ∀ b, m'.room? b = m.room? b

variable {m m' m'' : Memory ε} {s t : Slot} {r : Run} {id : PoolId} {b k : Nat}

theorem place?_eq_some_iff :
    m.place? s = some (r, id) ↔ ∃ c, m.cell? s = some c ∧ c.run = r ∧ c.owner = id := by
  simp [place?]

theorem lt_size_of_place? (h : m.place? s = some (r, id)) : s.index < m.size := by
  obtain ⟨c, hc, -⟩ := place?_eq_some_iff.1 h
  exact lt_size_of_cell? hc

theorem lt_size_of_room? {n : Nat} (h : m.room? b = some n) : b < m.arrays.size := by
  obtain ⟨a, ha, -⟩ := Option.map_eq_some_iff.1 h
  exact (Array.getElem?_eq_some_iff.1 ha).1

theorem owner?_of_place? (h : m.place? s = some (r, id)) : m.owner? s = some id := by
  obtain ⟨c, hc, -, rfl⟩ := place?_eq_some_iff.1 h
  rw [owner?, hc, Option.map_some]

theorem covers_of_place? (h : m.place? s = some (r, id)) :
    m.Covers s b k ↔ r.array = b ∧ r.start ≤ k ∧ k < r.start + r.length := by
  obtain ⟨c, hc, rfl, -⟩ := place?_eq_some_iff.1 h
  simp [Covers, hc]

theorem Laid.covers_unique (h : m.Laid) (hs : m.Covers s b k) (ht : m.Covers t b k) : s = t := by
  obtain ⟨c, hc, hca, hcs, hck⟩ := hs
  obtain ⟨d, hd, hda, hds, hdk⟩ := ht
  by_contra hne
  have hapart := h.apart s t c d hne hc hd (hca.trans hda.symm)
  omega

theorem value_getElem? (h : m.Laid) (hs : m.place? s = some (r, id)) {j : Nat}
    (hj : j < r.length) : (m.value s)[j]? = m.element? r.array (r.start + j) := by
  obtain ⟨c, hc, rfl, -⟩ := place?_eq_some_iff.1 hs
  obtain ⟨a, ha, hle⟩ := h.within s c hc
  rw [value_of_cell? hc, elements_of_array ha, element?, ha, Option.bind_some,
    Array.getElem?_extract, if_pos (by omega)]

/-! ## Writing to one slot -/

theorem element?_modifyRun (change : Run → Array ε → Array ε)
    (hk : ∀ r, KeepsOutside r (change r)) (h : ¬ m.Covers s b k) :
    (m.modifyRun s change).element? b k = m.element? b k := by
  unfold Memory.modifyRun
  cases hs : m.cell? s with
  | none => rfl
  | some c =>
    simp only [element?, Array.getElem?_modify]
    split
    · rename_i he
      have hout : k < c.run.start ∨ c.run.start + c.run.length ≤ k := by
        by_contra hin
        exact h ⟨c, hs, he, by omega, by omega⟩
      cases m.arrays[b]? with
      | none => rfl
      | some a => exact (hk c.run a).2 k hout
    · rfl

theorem element?_write (content : Content ε) (h : ¬ m.Covers s b k) :
    (content.write m s).element? b k = m.element? b k := by
  cases content with
  | all v => exact element?_modifyRun _ (fun r => keepsOutside_fill r v) h
  | first vs => exact element?_modifyRun _ (fun r => keepsOutside_write r vs) h

/-! ## What leaves slots where they are -/

namespace SameLayout

theorem refl (m : Memory ε) : SameLayout m m := ⟨fun _ => rfl, fun _ => rfl⟩

theorem trans (h : SameLayout m m') (h' : SameLayout m' m'') : SameLayout m m'' :=
  ⟨fun s => (h'.place s).trans (h.place s), fun b => (h'.room b).trans (h.room b)⟩

theorem of_unlinked (h : m'.unlinked = m.unlinked) : SameLayout m m' := by
  constructor
  · intro s
    have hcell := congrArg (fun m : Memory ε => m.place? s) h
    simpa [place?, unlinked_cell?, Function.comp_def] using hcell
  · intro b
    rw [room?, room?, arrays_of_unlinked h]

theorem modifyRun (m : Memory ε) (s : Slot) (change : Run → Array ε → Array ε)
    (hk : ∀ r a, (change r a).size = a.size) : SameLayout m (m.modifyRun s change) := by
  constructor
  · intro t
    rw [place?, place?, cell?_modifyRun]
  · intro b
    unfold Memory.modifyRun
    cases m.cell? s with
    | none => rfl
    | some c =>
      simp only [room?, Array.getElem?_modify]
      split
      · rw [Option.map_map]
        congr 1
        funext a
        exact hk c.run a
      · rfl

theorem write (m : Memory ε) (s : Slot) (content : Content ε) :
    SameLayout m (content.write m s) := by
  cases content with
  | all v => exact modifyRun m s _ fun r a => size_fillFrom a r.start v r.length
  | first vs => exact modifyRun m s _ fun r a => size_writeFrom a r.start (vs.take r.length)

theorem cleanAll (id : PoolId) (v : ε) (m : Memory ε) (l : List Slot) :
    SameLayout m (Call.cleanAll id v m l).1 := by
  induction l generalizing m with
  | nil => exact refl m
  | cons s l ih =>
    unfold Call.cleanAll
    cases m.owner? s with
    | none => exact ih m
    | some owner =>
      dsimp only
      split
      · exact (write m s (.all v)).trans (ih _)
      · exact refl m

end SameLayout

/-! ## A new block -/

section

variable (m : Memory ε) (owner : PoolId) (count width : Nat) (v : ε)

theorem place?_addBlock_of_lt (hs : s.index < m.size) :
    (m.addBlock owner count width v).place? s = m.place? s := by
  rw [place?, cell?_addBlock_of_lt m owner count width v hs, place?]

theorem place?_addBlock_new {i : Nat} (hi : i < count) :
    (m.addBlock owner count width v).place? ⟨m.size + i⟩ =
      some (⟨m.arrays.size, i * width, width⟩, owner) := by
  have hs : ⟨m.size + i⟩ ∈ sideBySide m.size count := by
    rw [mem_sideBySide]
    exact ⟨Nat.le_add_right _ _, Nat.add_lt_add_left hi _⟩
  rw [place?, cell?_addBlock_new m owner count width v hs, Option.map_some, Nat.add_sub_cancel_left]

theorem of_place?_addBlock (h : (m.addBlock owner count width v).place? s = some (r, id)) :
    m.place? s = some (r, id) ∨
      id = owner ∧ ∃ i < count, r = ⟨m.arrays.size, i * width, width⟩ := by
  obtain ⟨c, hc, rfl, rfl⟩ := place?_eq_some_iff.1 h
  rcases cell?_addBlock hc with hc | ⟨hs, rfl⟩
  · exact Or.inl (place?_eq_some_iff.2 ⟨c, hc, rfl, rfl⟩)
  · have hindex := (mem_sideBySide _ _ _).1 hs
    exact Or.inr ⟨rfl, s.index - m.size, by omega, rfl⟩

theorem room?_addBlock (b : Nat) :
    (m.addBlock owner count width v).room? b =
      if b = m.arrays.size then some (count * width) else m.room? b := by
  rw [room?, arrays_addBlock, Array.getElem?_push]
  split
  · simp
  · rfl

end

end Memory

/-! ## One step -/

namespace Call

variable {id : PoolId} {granted : Bool} {m m' : Memory ε} {p p' : Pool ε} {c c' : Call}
  {e : Option Event}

theorem step_layout (h : c.step id granted m p = (m', p', e, c')) (hb : ∀ g, c ≠ build g) :
    SameLayout m m' := by
  by_cases hc : c.relinksOnly = true
  · exact .of_unlinked (unlinked_step h hc)
  cases c with
  | build g => exact absurd rfl (hb g)
  | cleanOne s =>
    obtain ⟨rfl, -⟩ := cleanOne_step h
    exact .cleanAll id p.strategy.pristine m [s]
  | cleanMany st =>
    obtain ⟨-, hst⟩ := cleanMany_step h
    split at hst
    · rw [hst.1]
      exact .refl m
    · rw [hst.1]
      exact .cleanAll id p.strategy.pristine m (st.slots m)
  | _ => simp [relinksOnly] at hc

theorem build_layout {g : Growth} (h : (build g).step id granted m p = (m', p', e, c')) :
    SameLayout (m.addBlock id p.blockSize p.strategy.shape.width p.strategy.pristine) m' ∧
      p' = { p with blocks := p.blocks.push m.arrays.size } := by
  simp only [step, buildBlock, Prod.mk.injEq] at h
  obtain ⟨rfl, rfl, -, -⟩ := h
  have hunlinked := Stack.unlinked_pushRange
    (m.addBlock id p.strategy.blockSize p.strategy.shape.width p.strategy.pristine) g.fresh m.size
    p.strategy.blockSize
  refine ⟨.of_unlinked hunlinked, ?_⟩
  rw [newestArray, arrays_of_unlinked hunlinked, arrays_addBlock, Array.size_push,
    Nat.add_sub_cancel]

end Call

/-! ## The blocks of a pool -/

/-- The place of the slot `i` of a block. -/
def Strategy.place (s : Strategy ε) (block i : Nat) : Run :=
  ⟨block, i * s.shape.width, s.shape.width⟩

/-- The slots of the pool lie side by side in its blocks, and fill them. -/
structure Pool.Tiled (id : PoolId) (m : Memory ε) (p : Pool ε) : Prop where
  list : ∃ s : Additions Nat, s.Sound ∧ s.list = p.blocks
  length : p.blocks.drain.length = p.blocks.length
  nodup : p.blocks.drain.Nodup
  room : ∀ b ∈ p.blocks.drain, m.room? b = some (p.strategy.shape.width * p.blockSize)
  slots : ∀ b ∈ p.blocks.drain, ∃ first, ∀ i < p.blockSize,
    m.place? ⟨first + i⟩ = some (p.strategy.place b i, id)
  placed : ∀ s r, m.place? s = some (r, id) →
    ∃ b ∈ p.blocks.drain, ∃ i < p.blockSize, r = p.strategy.place b i

namespace Pool.Tiled

variable {id : PoolId} {m m' : Memory ε} {p p' : Pool ε}

theorem sameLayout (h : p.Tiled id m) (hm : SameLayout m m') (hblocks : p'.blocks = p.blocks)
    (hstrategy : p'.strategy = p.strategy) : p'.Tiled id m' := by
  have hsize : p'.blockSize = p.blockSize := by rw [blockSize, hstrategy, blockSize]
  constructor <;> rw [hblocks]
  · exact h.list
  · exact h.length
  · exact h.nodup
  · intro b hb
    rw [hm.room, hstrategy, hsize]
    exact h.room b hb
  · intro b hb
    obtain ⟨first, hslots⟩ := h.slots b hb
    refine ⟨first, fun i hi => ?_⟩
    rw [hm.place, hstrategy]
    exact hslots i (hsize ▸ hi)
  · intro s r hs
    rw [hm.place] at hs
    rw [hstrategy, hsize]
    exact h.placed s r hs

theorem kept (h : p.Tiled id m) (owner : PoolId) (count width : Nat) (v : ε) {b : Nat}
    (hb : b ∈ p.blocks.drain) :
    (m.addBlock owner count width v).room? b = some (p.strategy.shape.width * p.blockSize) ∧
      ∃ first, ∀ i < p.blockSize,
        (m.addBlock owner count width v).place? ⟨first + i⟩ = some (p.strategy.place b i, id) := by
  have hroom := h.room b hb
  obtain ⟨first, hslots⟩ := h.slots b hb
  refine ⟨?_, first, fun i hi => ?_⟩
  · rw [room?_addBlock, if_neg (Nat.ne_of_lt (lt_size_of_room? hroom)), hroom]
  · rw [place?_addBlock_of_lt _ _ _ _ _ (lt_size_of_place? (hslots i hi)), hslots i hi]

theorem addBlock_other (h : p.Tiled id m) {owner : PoolId} (hne : id ≠ owner)
    (count width : Nat) (v : ε) : p.Tiled id (m.addBlock owner count width v) where
  list := h.list
  length := h.length
  nodup := h.nodup
  room b hb := (h.kept owner count width v hb).1
  slots b hb := (h.kept owner count width v hb).2
  placed s r hs := by
    rcases of_place?_addBlock m owner count width v hs with hs | ⟨he, -⟩
    · exact h.placed s r hs
    · exact absurd he hne

theorem addBlock (h : p.Tiled id m) : { p with blocks := p.blocks.push m.arrays.size }.Tiled id
    (m.addBlock id p.blockSize p.strategy.shape.width p.strategy.pristine) := by
  obtain ⟨s, hsound, hlist⟩ := h.list
  have hdrain : (p.blocks.push m.arrays.size).drain = m.arrays.size :: p.blocks.drain := by
    rw [← hlist]
    exact hsound.drain_push m.arrays.size
  have hnew : m.arrays.size ∉ p.blocks.drain := fun hb =>
    absurd (lt_size_of_room? (h.room _ hb)) (Nat.lt_irrefl _)
  constructor
  · have hturns := hsound.turns
      (.start m.arrays.size :: List.replicate 5 (.go s.threads.length false))
    exact ⟨_, hturns, by rw [Additions.turns_push, hlist]⟩
  · rw [hdrain, List.length_cons, h.length, BlockList.length_push]
  · rw [hdrain]
    exact List.nodup_cons.2 ⟨hnew, h.nodup⟩
  · intro b hb
    rw [hdrain] at hb
    rcases List.mem_cons.1 hb with rfl | hb
    · rw [room?_addBlock, if_pos rfl, Nat.mul_comm]
      rfl
    · exact (h.kept id p.blockSize p.strategy.shape.width p.strategy.pristine hb).1
  · intro b hb
    rw [hdrain] at hb
    rcases List.mem_cons.1 hb with rfl | hb
    · exact ⟨m.size, fun i hi => place?_addBlock_new _ _ _ _ _ hi⟩
    · exact (h.kept id p.blockSize p.strategy.shape.width p.strategy.pristine hb).2
  · intro t r ht
    rw [hdrain]
    rcases of_place?_addBlock _ _ _ _ _ ht with ht | ⟨-, i, hi, rfl⟩
    · obtain ⟨b, hb, hplace⟩ := h.placed t r ht
      exact ⟨b, List.mem_cons_of_mem _ hb, hplace⟩
    · exact ⟨m.arrays.size, List.mem_cons_self, i, hi, rfl⟩

theorem exists_covers (h : p.Tiled id m) {b k : Nat} (hb : b ∈ p.blocks.drain)
    (hk : k < p.strategy.shape.width * p.blockSize) :
    ∃ s, m.Covers s b k ∧ m.owner? s = some id := by
  obtain ⟨first, hslots⟩ := h.slots b hb
  have hi : k / p.strategy.shape.width < p.blockSize := Nat.div_lt_of_lt_mul hk
  have hmod := Nat.mod_lt k p.strategy.width_pos
  have hdiv := Nat.div_add_mod' k p.strategy.shape.width
  refine ⟨⟨first + k / p.strategy.shape.width⟩, ?_, owner?_of_place? (hslots _ hi)⟩
  rw [covers_of_place? (hslots _ hi), Strategy.place]
  refine ⟨rfl, Nat.div_mul_le_self _ _, ?_⟩
  dsimp only
  omega

theorem fresh (strategy : Strategy ε) (policy : GrowthPolicy) (backoffMicros : Nat)
    (h : ∀ s, m.owner? s ≠ some id) :
    (Pool.fresh strategy policy backoffMicros).Tiled id m where
  list := ⟨{}, Additions.sound_empty, rfl⟩
  length := rfl
  nodup := List.nodup_nil
  room _ hb := absurd hb List.not_mem_nil
  slots _ hb := absurd hb List.not_mem_nil
  placed s _ hs := absurd (owner?_of_place? hs) (h s)

end Pool.Tiled

/-! ## All blocks -/

def Arena.Tiled (a : Arena ε) : Prop := ∀ id p, a.pool? id = some p → p.Tiled id a.memory

namespace Arena

variable {a a' : Arena ε} {id : PoolId} {p : Pool ε} {granted : Bool} {c c' : Call}

theorem Tiled.step (ht : a.Tiled) (hp : a.pool? id = some p)
    (h : a.step id granted c = (a', c')) : a'.Tiled := by
  obtain ⟨p', e, hstep, hpools⟩ := step_eq hp h
  intro other q hq
  rw [pool?_set hp hpools] at hq
  by_cases hb : ∃ g, c = .build g
  · obtain ⟨g, rfl⟩ := hb
    obtain ⟨hlayout, rfl⟩ := Call.build_layout hstep
    split at hq
    · rename_i he
      rw [he, ← Option.some.inj hq]
      exact (ht id p hp).addBlock.sameLayout hlayout rfl rfl
    · rename_i hne
      exact ((ht other q hq).addBlock_other hne _ _ _).sameLayout hlayout rfl rfl
  · have hlayout := Call.step_layout hstep (not_exists.1 hb)
    split at hq
    · rename_i he
      rw [he, ← Option.some.inj hq]
      exact (ht id p hp).sameLayout hlayout (Call.step_blocks hstep (not_exists.1 hb))
        (Call.step_strategy id granted hstep)
    · exact (ht other q hq).sameLayout hlayout rfl rfl

theorem Tiled.addPool (ht : a.Tiled) (h : a.Tended) (strategy : Strategy ε)
    (policy : GrowthPolicy) (backoffMicros : Nat) :
    (a.addPool (.fresh strategy policy backoffMicros)).Tiled := by
  intro id p hp
  cases hold : a.pool? id with
  | some q =>
    obtain rfl := Option.some.inj ((pool?_addPool hold _).symm.trans hp)
    exact ht id q hold
  | none =>
    obtain hp | rfl := of_pool?_addPool hp
    · rw [hold] at hp
      cases hp
    · refine .fresh strategy policy backoffMicros fun s hs => ?_
      obtain ⟨cell, hcell, rfl⟩ := Option.map_eq_some_iff.1 hs
      obtain ⟨q, hq, -⟩ := h.sized s cell hcell
      rw [hold] at hq
      cases hq

end Arena

namespace World

theorem tiled_of_reachable {w : World ε} (h : w.Reachable) : w.arena.Tiled := by
  induction h with
  | start => simp [Arena.Tiled, Arena.pool?]
  | step hr hs ih =>
    cases hs with
    | client a a' clients rest k k' losses new hc hk =>
      have hmem := hc.mem_iff.2 List.mem_cons_self
      cases hk with
      | run a' held id granted c c' hstop hrun =>
        obtain ⟨p, hp⟩ := ((whole_of_reachable hr).known _ hmem).call id c rfl
        exact ih.step hp hrun
      | move held before after others m hh hm =>
        have hlayout : SameLayout a.memory m := by
          rcases moves_memory hm with hu | ⟨_, s, content, -, -, -, rfl⟩
          · exact .of_unlinked hu
          · exact .write a.memory s content
        exact fun id p hp => (ih id p hp).sameLayout hlayout rfl rfl
      | _ => exact ih
    | addPool a clients losses strategy policy backoffMicros =>
      exact ih.addPool (tended_of_reachable hr).arena strategy policy backoffMicros
    | _ => exact ih

end World

/-! ## Numbers that words hold -/

namespace Strategy

/-- The numbers by which buffers of `size` elements are found in a block fit a word, and the bytes
of all of them lie in the reach of an object. -/
structure Spaced (s : Strategy ε) (size : Nat) : Prop where
  elements : size * s.blockSize < Word.limit
  bytes : size * s.blockSize * s.elementBytes ≤ Word.maxBytes
  start : ∀ i < s.blockSize, i * size < Word.limit
  stop : ∀ i < s.blockSize, i * size + size < Word.limit
  inside : ∀ i < s.blockSize, i * size + size ≤ size * s.blockSize

variable {s : Strategy ε} {size blocks : Nat}

theorem Fits.spaced (h : s.Fits blocks) (hshape : s.shape = .buffer size) : s.Spaced size := by
  have hplaces := h.places
  rw [hshape] at hplaces
  simp only [Shape.width] at hplaces
  have hfirst : ⟨size * s.blockSize, s.elementBytes⟩ ∈ s.reservations := by
    simp [Strategy.reservations, hshape]
  obtain ⟨hcount, htotal⟩ := h.reservations _ hfirst
  refine ⟨hcount, htotal, fun i hi => ?_, fun i hi => (hplaces i hi).1,
    fun i hi => (hplaces i hi).2⟩
  exact Nat.lt_of_le_of_lt (Nat.le_add_right _ _) (hplaces i hi).1

theorem spaced_of_addressable (hw : s.Weighs) (hshape : s.shape = .buffer size)
    (hb : 0 < blocks) (h : s.addressable blocks = true) : s.Spaced size :=
  (fits_of_not_exceeds hw hb ((addressable_iff hw hb).1 h)).spaced hshape

end Strategy

namespace World

variable {w : World ε} {id : PoolId} {p : Pool ε}

theorem fits_of_mem_drain (h : w.Reachable) (hp : w.arena.pool? id = some p)
    (hw : p.strategy.Weighs) {b : Nat} (hb : b ∈ p.blocks.drain) : p.strategy.Fits 1 := by
  apply Strategy.fits_of_not_exceeds hw Nat.one_pos
  intro hover
  have hnone := blocks_of_exceeds h hp hw hover
  rw [← (tiled_of_reachable h id p hp).length] at hnone
  rw [List.eq_nil_of_length_eq_zero hnone] at hb
  cases hb

theorem drain_disjoint (h : w.Reachable) (hp : w.arena.pool? id = some p) {other : PoolId}
    {q : Pool ε} (hq : w.arena.pool? other = some q) (hne : other ≠ id) :
    q.blocks.drain.Disjoint p.blocks.drain := by
  intro b hbq hbp
  have htiled := tiled_of_reachable h
  -- Both pools would have a slot at the beginning of the block.
  obtain ⟨s, hs, howner⟩ := (htiled id p hp).exists_covers hbp
    (Nat.mul_pos p.strategy.width_pos p.strategy.blockSize_pos)
  obtain ⟨t, ht, howner'⟩ := (htiled other q hq).exists_covers hbq
    (Nat.mul_pos q.strategy.width_pos q.strategy.blockSize_pos)
  obtain rfl := (tended_of_reachable h).arena.laid.covers_unique hs ht
  exact hne (Option.some.inj (howner'.symm.trans howner))

theorem place?_of_covers (h : w.Reachable) (hp : w.arena.pool? id = some p) {b k : Nat}
    (hb : b ∈ p.blocks.drain) {s : Slot} (hs : w.memory.Covers s b k) :
    ∃ i < p.blockSize, w.memory.place? s = some (p.strategy.place b i, id) := by
  obtain ⟨c, hc, rfl, -⟩ := hs
  have hplace : w.memory.place? s = some (c.run, c.owner) := by rw [place?, hc, Option.map_some]
  obtain ⟨q, hq, -⟩ := (tended_of_reachable h).arena.sized s c hc
  obtain ⟨b, hbq, i, hi, hrun⟩ := (tiled_of_reachable h c.owner q hq).placed s c.run hplace
  rw [hrun] at hb
  by_cases hne : c.owner = id
  · rw [hne] at hq
    obtain rfl := Option.some.inj (hq.symm.trans hp)
    rw [hplace, hrun, hne]
    exact ⟨i, hi, rfl⟩
  · exact absurd hb (drain_disjoint h hp hq hne hbq)

/-- The blocks of a pool of buffers hold its slots side by side, and nothing else. No number by
which an element is found wraps around, neither where a growth is let through nor where a block is
there. So each element is of one slot, and what is written to a slot, also when it is made pristine,
leaves all elements of the others. -/
theorem buffers_tile_blocks (h : w.Reachable) (hp : w.arena.pool? id = some p) {size : Nat}
    (hshape : p.strategy.shape = .buffer size) (hw : p.strategy.Weighs) :
    (∀ blocks, 0 < blocks → p.strategy.addressable blocks = true → p.strategy.Spaced size) ∧
    (∀ b ∈ p.blocks.drain, p.strategy.Spaced size ∧
      w.memory.room? b = some (size * p.blockSize) ∧
      (∃ first, ∀ i < p.blockSize,
        w.memory.place? ⟨first + i⟩ = some (⟨b, i * size, size⟩, id)) ∧
      (∀ k < size * p.blockSize, ∃! s, w.memory.Covers s b k) ∧
      ∀ s k, w.memory.Covers s b k →
        ∃ i < p.blockSize, w.memory.place? s = some (⟨b, i * size, size⟩, id)) ∧
    (∀ s, w.memory.owner? s = some id → ∃ b ∈ p.blocks.drain, ∃ i < p.blockSize,
      w.memory.place? s = some (⟨b, i * size, size⟩, id) ∧
        ∀ j < size, (w.memory.value s)[j]? = w.memory.element? b (i * size + j)) ∧
    (p.blocks.drain.Nodup ∧ p.blocks.drain.length = p.blocks.length ∧
      ∀ other q, w.arena.pool? other = some q → other ≠ id →
        q.blocks.drain.Disjoint p.blocks.drain) ∧
    (∀ s t b k, w.memory.Covers s b k → w.memory.Covers t b k → s = t) ∧
    ∀ s (content : Content ε), (∀ b k, ¬ w.memory.Covers s b k →
        (content.write w.memory s).element? b k = w.memory.element? b k) ∧
      ∀ t, s ≠ t → (content.write w.memory s).value t = w.memory.value t ∧
        (w.memory.fill s p.strategy.pristine).value t = w.memory.value t := by
  have hlaid := (tended_of_reachable h).arena.laid
  have htiled := tiled_of_reachable h id p hp
  have hwidth : p.strategy.shape.width = size := by rw [hshape, Shape.width]
  have hplace : ∀ b i, p.strategy.place b i = ⟨b, i * size, size⟩ := by
    intro b i
    rw [Strategy.place, hwidth]
  refine ⟨fun blocks hb ha => Strategy.spaced_of_addressable hw hshape hb ha, fun b hb => ?_,
    fun s hs => ?_, ⟨htiled.nodup, htiled.length, fun other q hq hne => drain_disjoint h hp hq hne⟩,
    fun s t b k hs ht => hlaid.covers_unique hs ht, fun s content => ?_⟩
  · have hroom := htiled.room b hb
    obtain ⟨first, hslots⟩ := htiled.slots b hb
    simp only [hwidth, hplace] at hroom hslots
    refine ⟨(fits_of_mem_drain h hp hw hb).spaced hshape, hroom, ⟨first, hslots⟩, fun k hk => ?_,
      fun s k hs => ?_⟩
    · rw [← hwidth] at hk
      obtain ⟨s, hs, -⟩ := htiled.exists_covers hb hk
      exact ⟨s, hs, fun t ht => hlaid.covers_unique ht hs⟩
    · simpa only [hplace] using place?_of_covers h hp hb hs
  · obtain ⟨c, hc, howner⟩ := Option.map_eq_some_iff.1 hs
    have hat : w.memory.place? s = some (c.run, id) := place?_eq_some_iff.2 ⟨c, hc, rfl, howner⟩
    obtain ⟨b, hb, i, hi, hrun⟩ := htiled.placed s c.run hat
    rw [hrun, hplace] at hat
    exact ⟨b, hb, i, hi, hat, fun j hj => value_getElem? hlaid hat hj⟩
  · refine ⟨fun b k hs => element?_write content hs, fun t ht => ?_⟩
    exact ⟨value_write_of_ne hlaid ht content, value_fill_of_ne hlaid ht _⟩

/-! ## Buffers of three elements, two in a block -/

def bufferArena : Arena Nat := ({} : Arena Nat).addPool (.fresh triples .headroom 100)

def tripled : Arena Nat × Arena.Progress :=
  bufferArena.proceed (fun _ _ => true) ⟨0⟩ (fun _ => false) 20 ⟨.popMany 3, 0⟩

def buffering : World Nat := ⟨tripled.1, [⟨[], some (⟨0⟩, tripled.2.call)⟩], {}⟩

theorem buffering_reachable : buffering.Reachable := by
  have h₁ : Reachable ⟨bufferArena, [⟨[], some (⟨0⟩, .popMany 3)⟩], {}⟩ :=
    (fleet_reachable 1 triples .headroom 100).act (.ask _ [] ⟨0⟩ _ _ rfl (.popMany 3))
  have hcall : tripled.2.call = .finished (.acquired (.many ⟨some ⟨3⟩, some ⟨1⟩, 3⟩)) := by
    decide +kernel
  exact h₁.proceed rfl (by simp [hcall])

theorem buffers_tile_blocks_buffering :
    ∃ p, buffering.Reachable ∧ buffering.arena.pool? ⟨0⟩ = some p ∧
      p.strategy.shape = .buffer 3 ∧ p.strategy.Weighs ∧ p.blocks.drain = [1, 0] ∧
      p.strategy.Spaced 3 ∧ buffering.memory.room? 1 = some 6 ∧
      (∃! s, buffering.memory.Covers s 1 4) ∧
      (buffering.memory.fill ⟨3⟩ 7).value ⟨2⟩ = buffering.memory.value ⟨2⟩ := by
  have hfacts : (buffering.arena.pool? ⟨0⟩).map (fun p => (p.blocks.drain, p.strategy.shape,
      p.blockSize, p.strategy.nodeBytes, p.strategy.elementBytes)) =
      some ([1, 0], .buffer 3, 2, 32, 8) := by decide +kernel
  obtain ⟨p, hp, hpool⟩ := Option.map_eq_some_iff.1 hfacts
  simp only [Prod.mk.injEq] at hpool
  obtain ⟨hblocks, hshape, hsize, hnode, helement⟩ := hpool
  have hw : p.strategy.Weighs := ⟨by omega, fun _ _ => by omega⟩
  obtain ⟨-, hblock, -, -, -, hwrite⟩ := buffers_tile_blocks buffering_reachable hp hshape hw
  obtain ⟨hspaced, hroom, -, hcovered, -⟩ := hblock 1 (by simp [hblocks])
  rw [hsize] at hroom hcovered
  refine ⟨p, buffering_reachable, hp, hshape, hw, hblocks, hspaced, hroom,
    hcovered 4 (by decide), ?_⟩
  exact ((hwrite ⟨3⟩ (.all 7)).2 ⟨2⟩ (by decide)).1

end World

end SlotPool
