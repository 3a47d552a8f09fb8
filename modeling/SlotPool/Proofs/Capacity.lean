import SlotPool.Proofs.Quotas
import SlotPool.Session.Start

/-!
# What can be addressed

A growth is checked with products and sums that words may not hold, and with a limit on bytes that
is half of theirs. All of that comes to one inequality between natural numbers: the blocks, the
slots in each, and the bytes of a slot, against the most bytes that an object may span.
-/

namespace SlotPool

variable {ε : Type}

namespace Strategy

/-- Bytes of one slot, whether or not a word holds their number. -/
def slotCost (s : Strategy ε) : Nat :=
  match s.shape with
  | .object => s.nodeBytes
  | .buffer size => size * s.elementBytes + s.nodeBytes

/-- Nodes take room, and so do the elements of buffers. -/
structure Weighs (s : Strategy ε) : Prop where
  node : 0 < s.nodeBytes
  element : ∀ size, s.shape = .buffer size → 0 < s.elementBytes

/-- So many blocks can be had without a number that a word does not hold: not for elements, slots
or bytes, nor for a reservation or the place of a slot's elements in its block. -/
structure Fits (s : Strategy ε) (blocks : Nat) : Prop where
  elements : s.elementsPerBlock? = some (s.shape.width * s.blockSize)
  slot : s.slotBytes? = some s.slotCost
  slots : Word.mul? blocks s.blockSize = some (blocks * s.blockSize)
  bytes : Word.mul? (blocks * s.blockSize) s.slotCost = some (blocks * s.blockSize * s.slotCost)
  bytes_le : blocks * s.blockSize * s.slotCost ≤ Word.maxBytes
  reservations : ∀ r ∈ s.reservations, r.count < Word.limit ∧ r.total ≤ Word.maxBytes
  places : ∀ i < s.blockSize, i * s.shape.width + s.shape.width < Word.limit ∧
    i * s.shape.width + s.shape.width ≤ s.shape.width * s.blockSize

def Exceeds (s : Strategy ε) (blocks : Nat) : Prop :=
  Word.maxBytes < blocks * s.blockSize * s.slotCost

variable {s : Strategy ε} {blocks blocks' : Nat}

theorem maxBytes_lt_limit : Word.maxBytes < Word.limit := by decide

theorem slotCost_object (h : s.shape = .object) : s.slotCost = s.nodeBytes := by
  rw [slotCost, h]

theorem slotCost_buffer {size : Nat} (h : s.shape = .buffer size) :
    s.slotCost = size * s.elementBytes + s.nodeBytes := by
  rw [slotCost, h]

theorem Weighs.slotCost_pos (h : s.Weighs) : 0 < s.slotCost := by
  cases hshape : s.shape with
  | object =>
    rw [slotCost_object hshape]
    exact h.node
  | buffer size =>
    rw [slotCost_buffer hshape]
    exact Nat.lt_of_lt_of_le h.node (Nat.le_add_left _ _)

theorem Weighs.width_le (h : s.Weighs) : s.shape.width ≤ s.slotCost := by
  cases hshape : s.shape with
  | object =>
    rw [slotCost_object hshape]
    exact h.node
  | buffer size =>
    rw [slotCost_buffer hshape]
    have hsize := Nat.le_mul_of_pos_right size (h.element size hshape)
    exact Nat.le_trans hsize (Nat.le_add_right _ _)

theorem total_le_of_mem {r : Reservation} (hr : r ∈ s.reservations) :
    r.total ≤ s.blockSize * s.slotCost := by
  rw [reservations] at hr
  cases hshape : s.shape with
  | object =>
    simp only [hshape, List.mem_singleton] at hr
    rw [slotCost_object hshape, hr]
    exact Nat.le_refl _
  | buffer size =>
    simp only [hshape, List.mem_cons, List.not_mem_nil, or_false] at hr
    rw [slotCost_buffer hshape, Nat.mul_add]
    rcases hr with rfl | rfl
    · rw [Reservation.total, Nat.mul_comm size, Nat.mul_assoc]
      exact Nat.le_add_right _ _
    · exact Nat.le_add_left _ _

theorem count_le_of_mem {r : Reservation} (hr : r ∈ s.reservations) :
    r.count ≤ s.shape.width * s.blockSize := by
  have hone : s.blockSize ≤ s.shape.width * s.blockSize := Nat.le_mul_of_pos_left _ s.width_pos
  rw [reservations] at hr
  cases hshape : s.shape with
  | object =>
    simp only [hshape, List.mem_singleton] at hr hone
    rw [hr]
    exact hone
  | buffer size =>
    simp only [hshape, List.mem_cons, List.not_mem_nil, or_false] at hr hone
    rcases hr with rfl | rfl
    · exact Nat.le_refl _
    · exact hone

theorem slotBytes?_eq_some_iff {bytes : Nat} :
    s.slotBytes? = some bytes ↔
      s.slotCost = bytes ∧ (s.shape = .object ∨ s.slotCost < Word.limit) := by
  rw [slotBytes?]
  cases hshape : s.shape with
  | object => simp [slotCost_object hshape]
  | buffer size =>
    simp only [slotCost_buffer hshape, Option.bind_eq_some_iff, Word.mul?_eq_some,
      Word.add?_eq_some, reduceCtorEq, false_or]
    constructor
    · rintro ⟨_, ⟨-, rfl⟩, hlt, rfl⟩
      exact ⟨rfl, hlt⟩
    · rintro ⟨rfl, hlt⟩
      exact ⟨_, ⟨by omega, rfl⟩, hlt, rfl⟩

theorem fits_of_not_exceeds (h : s.Weighs) (hb : 0 < blocks) (hle : ¬ s.Exceeds blocks) :
    s.Fits blocks := by
  have hbytes : blocks * s.blockSize * s.slotCost ≤ Word.maxBytes := Nat.le_of_not_lt hle
  have hlimit := maxBytes_lt_limit
  have hcost := h.slotCost_pos
  have hsize := s.blockSize_pos
  have hslots : blocks * s.blockSize ≤ blocks * s.blockSize * s.slotCost :=
    Nat.le_mul_of_pos_right _ hcost
  have hone : s.blockSize * s.slotCost ≤ blocks * s.blockSize * s.slotCost :=
    Nat.mul_le_mul_right _ (Nat.le_mul_of_pos_left _ hb)
  have hslot : s.slotCost ≤ s.blockSize * s.slotCost := Nat.le_mul_of_pos_left _ hsize
  have helements : s.shape.width * s.blockSize ≤ s.blockSize * s.slotCost := by
    rw [Nat.mul_comm]
    exact Nat.mul_le_mul_left _ h.width_le
  have hplace : ∀ i < s.blockSize,
      i * s.shape.width + s.shape.width ≤ s.shape.width * s.blockSize := by
    intro i hi
    rw [← Nat.succ_mul, Nat.mul_comm s.shape.width]
    exact Nat.mul_le_mul_right _ hi
  constructor
  · exact Word.mul?_eq_some.2 ⟨by omega, rfl⟩
  · exact slotBytes?_eq_some_iff.2 ⟨rfl, .inr (by omega)⟩
  · exact Word.mul?_eq_some.2 ⟨by omega, rfl⟩
  · exact Word.mul?_eq_some.2 ⟨by omega, rfl⟩
  · exact hbytes
  · intro r hr
    have hcount := count_le_of_mem hr
    have htotal := total_le_of_mem hr
    exact ⟨by omega, by omega⟩
  · intro i hi
    have hle := hplace i hi
    exact ⟨by omega, hle⟩

/-- The checks let through just what does not take more than an object may span. -/
theorem addressable_iff (h : s.Weighs) (hb : 0 < blocks) :
    s.addressable blocks = true ↔ ¬ s.Exceeds blocks := by
  constructor
  · intro ha
    unfold addressable at ha
    split at ha
    · rename_i elements slotBytes slots helements hslot hslots
      obtain ⟨-, rfl⟩ := Word.mul?_eq_some.1 hslots
      split at ha
      · rename_i bytes hbytes
        obtain ⟨-, rfl⟩ := Word.mul?_eq_some.1 hbytes
        rw [← (slotBytes?_eq_some_iff.1 hslot).1] at ha
        exact Nat.not_lt.2 (by simpa using ha)
      · simp at ha
    · simp at ha
  · intro hle
    have hfits := fits_of_not_exceeds h hb hle
    simp [addressable, hfits.elements, hfits.slot, hfits.slots, hfits.bytes, hfits.bytes_le]

theorem Exceeds.mono (h : s.Exceeds blocks) (hb : blocks ≤ blocks') : s.Exceeds blocks' :=
  Nat.lt_of_lt_of_le h (Nat.mul_le_mul_right _ (Nat.mul_le_mul_right _ hb))

theorem exceeds_of_limit_le (h : s.Weighs) (hb : Word.limit ≤ blocks) : s.Exceeds blocks := by
  have hslots : blocks ≤ blocks * s.blockSize := Nat.le_mul_of_pos_right _ s.blockSize_pos
  have hbytes : blocks * s.blockSize ≤ blocks * s.blockSize * s.slotCost :=
    Nat.le_mul_of_pos_right _ h.slotCost_pos
  have hlimit := maxBytes_lt_limit
  rw [Exceeds]
  omega

end Strategy

/-! ## Shortfalls -/

theorem GrowthPolicy.limit_le_quota {policy : GrowthPolicy} {deficit blockSize : Nat}
    (h : policy.blocksFor deficit blockSize = none) :
    Word.limit ≤ policy.quota deficit blockSize := by
  cases policy with
  | headroom => exact Word.add?_eq_none.1 h
  | exactFit => cases h

namespace Pool

variable {p : Pool ε} {deficit : Nat}

/-- The blocks that the policy asks for when so many slots are missing take more than an object may
span. -/
def Exceeded (p : Pool ε) (deficit : Nat) : Prop :=
  p.strategy.Exceeds (p.policy.quota deficit p.blockSize)

/-- What a call reports that would need these blocks. -/
def overflow (p : Pool ε) (deficit : Nat) : PoolError :=
  .capacityOverflow ((p.policy.blocksFor deficit p.blockSize).getD (Word.limit - 1)) p.blockSize

theorem overflow_of_none (h : p.policy.blocksFor deficit p.blockSize = none) :
    p.overflow deficit = .capacityOverflow (Word.limit - 1) p.blockSize := by
  rw [overflow, h]
  rfl

theorem overflow_of_some {blocks : Nat} (h : p.policy.blocksFor deficit p.blockSize = some blocks) :
    p.overflow deficit = .capacityOverflow blocks p.blockSize := by
  rw [overflow, h]
  rfl

theorem Exceeded.found_out (h : p.Exceeded deficit) (hw : p.strategy.Weighs) :
    p.policy.blocksFor deficit p.blockSize = none ∨
      ∃ blocks, p.policy.blocksFor deficit p.blockSize = some blocks ∧
        p.strategy.addressable blocks = false := by
  cases hfor : p.policy.blocksFor deficit p.blockSize with
  | none => exact .inl rfl
  | some blocks =>
    refine .inr ⟨blocks, rfl, ?_⟩
    rw [Exceeded, GrowthPolicy.quota_of_blocksFor hfor] at h
    have hpos : 0 < blocks := GrowthPolicy.quota_of_blocksFor hfor ▸ GrowthPolicy.quota_pos
    exact Bool.eq_false_iff.2 fun ha => (Strategy.addressable_iff hw hpos).1 ha h

theorem exists_addressable (h : ¬ p.Exceeded deficit) (hw : p.strategy.Weighs) :
    ∃ blocks, p.policy.blocksFor deficit p.blockSize = some blocks ∧
      p.strategy.addressable blocks = true := by
  cases hfor : p.policy.blocksFor deficit p.blockSize with
  | none => exact absurd (Strategy.exceeds_of_limit_le hw (GrowthPolicy.limit_le_quota hfor)) h
  | some blocks =>
    rw [Exceeded, GrowthPolicy.quota_of_blocksFor hfor] at h
    have hpos : 0 < blocks := GrowthPolicy.quota_of_blocksFor hfor ▸ GrowthPolicy.quota_pos
    exact ⟨blocks, rfl, (Strategy.addressable_iff hw hpos).2 h⟩

end Pool

/-! ## Pools as they are made -/

/-- Nodes take room. -/
structure ElementLayout.Weighs (layout : ElementLayout ε) : Prop where
  object : 0 < layout.objectNodeBytes
  buffer : 0 < layout.bufferNodeBytes

/-- The pool was just made, of objects or buffers with this layout. -/
inductive Pool.Made (layout : ElementLayout ε) (p : Pool ε) : Prop where
  | blockSize (blockSize : Nat) (h : Pool.ofBlockSize layout blockSize = .ok p)
  | bufferSize (size blockSize : Nat) (h : Pool.ofBufferSize layout size blockSize = .ok p)
  | config (c : Config) (h : Pool.ofConfig layout c = .ok p)
  | bufferConfig (c : Config) (h : Pool.ofBufferConfig layout c = .ok p)

theorem Pool.Made.weighs {layout : ElementLayout ε} {p : Pool ε} (hmade : p.Made layout)
    (h : layout.Weighs)
    (helement : ∀ size, p.strategy.shape = .buffer size → 0 < layout.elementBytes) :
    p.strategy.Weighs := by
  cases hmade with
  | blockSize blockSize hp =>
    unfold ofBlockSize at hp
    split at hp
    · cases hp
      exact ⟨h.object, helement⟩
    · cases hp
  | bufferSize size blockSize hp =>
    unfold ofBufferSize at hp
    split at hp
    · split at hp
      · cases hp
        exact ⟨h.buffer, helement⟩
      · cases hp
    · cases hp
  | config c hp =>
    simp only [ofConfig, bind, Except.bind] at hp
    split at hp
    · cases hp
    · split at hp
      · cases hp
        exact ⟨h.object, helement⟩
      · cases hp
  | bufferConfig c hp =>
    simp only [ofBufferConfig, bind, Except.bind] at hp
    repeat' split at hp
    all_goals first
      | cases hp; exact ⟨h.buffer, helement⟩
      | cases hp

end SlotPool
