import SlotPool.Policy
import Mathlib.Data.ENat.Basic
import Mathlib.Order.Bounds.Basic

/-!
# How many blocks a policy asks for

A shortfall is covered by a least number of blocks, and what a policy asks for is that number: with
the exact fit the least that has slots enough, with headroom the least that has more than that. The
number is first taken without regard to words, where it is told by the sets of numbers that would
do, and then the one shortfall is found that takes a number no word holds.
-/

namespace SlotPool.GrowthPolicy

/-! ## Numbers that any word holds -/

/-- The blocks that a policy asks for, whether or not a word holds their number. -/
def quota (deficit blockSize : Nat) : GrowthPolicy → Nat
  | headroom => deficit / blockSize + 1
  | exactFit => max ((deficit + (blockSize - 1)) / blockSize) 1

/-- The numbers of blocks that would do for a policy. -/
def covers (deficit blockSize : Nat) : GrowthPolicy → Set Nat
  | headroom => {q | deficit < q * blockSize}
  | exactFit => {q | 1 ≤ q ∧ deficit ≤ q * blockSize}

variable {policy : GrowthPolicy} {deficit deficit' blockSize blockSize' q : Nat}

theorem quota_pos : 0 < policy.quota deficit blockSize := by
  cases policy with
  | headroom => exact Nat.succ_pos _
  | exactFit => exact Nat.lt_of_lt_of_le Nat.one_pos (Nat.le_max_right _ 1)

theorem roundUp_le_iff (hsize : 0 < blockSize) :
    (deficit + (blockSize - 1)) / blockSize ≤ q ↔ deficit ≤ q * blockSize := by
  rw [← Nat.lt_succ_iff, Nat.div_lt_iff_lt_mul hsize, Nat.succ_mul]
  omega

theorem isLeast_quota (hsize : 0 < blockSize) :
    IsLeast (policy.covers deficit blockSize) (policy.quota deficit blockSize) := by
  cases policy with
  | headroom =>
    refine ⟨?_, fun q (hq : deficit < q * blockSize) => ?_⟩
    · exact (Nat.div_lt_iff_lt_mul hsize).1 (Nat.lt_succ_self _)
    · exact (Nat.div_lt_iff_lt_mul hsize).2 hq
  | exactFit =>
    refine ⟨⟨Nat.le_max_right _ 1, ?_⟩, fun q ⟨hone, hq⟩ => ?_⟩
    · exact (roundUp_le_iff hsize).1 (Nat.le_max_left _ 1)
    · exact Nat.max_le.2 ⟨(roundUp_le_iff hsize).2 hq, hone⟩

theorem covers_subset (hdeficit : deficit ≤ deficit') (hsize : blockSize' ≤ blockSize) :
    policy.covers deficit' blockSize' ⊆ policy.covers deficit blockSize := by
  intro q hq
  have hroom : q * blockSize' ≤ q * blockSize := Nat.mul_le_mul_left q hsize
  cases policy with
  | headroom => exact Nat.lt_of_le_of_lt hdeficit (Nat.lt_of_lt_of_le hq hroom)
  | exactFit => exact ⟨hq.1, hdeficit.trans (Nat.le_trans hq.2 hroom)⟩

theorem quota_le_quota (hpos : 0 < blockSize') (hdeficit : deficit ≤ deficit')
    (hsize : blockSize' ≤ blockSize) :
    policy.quota deficit blockSize ≤ policy.quota deficit' blockSize' :=
  (isLeast_quota hpos).mono (isLeast_quota (hpos.trans_le hsize))
    (covers_subset hdeficit hsize)

theorem quota_headroom (hsize : 0 < blockSize) :
    headroom.quota deficit blockSize =
      if blockSize ∣ deficit ∧ 0 < deficit then exactFit.quota deficit blockSize + 1
      else exactFit.quota deficit blockSize := by
  have hleast : IsLeast (exactFit.covers deficit blockSize) (exactFit.quota deficit blockSize) :=
    isLeast_quota hsize
  obtain ⟨hone, hcovers⟩ := hleast.1
  refine (isLeast_quota hsize).unique ?_
  split
  · rename_i hfull
    obtain ⟨⟨k, rfl⟩, hpos⟩ := hfull
    have hk : exactFit.quota (blockSize * k) blockSize = k := by
      refine (isLeast_quota hsize).unique ⟨⟨?_, ?_⟩, fun q hq => ?_⟩
      · exact Nat.pos_of_mul_pos_left hpos
      · exact Nat.le_of_eq (Nat.mul_comm _ _)
      · exact Nat.le_of_mul_le_mul_left (Nat.mul_comm q _ ▸ hq.2) hsize
    rw [hk]
    refine ⟨?_, fun q (hq : blockSize * k < q * blockSize) => ?_⟩
    · show blockSize * k < (k + 1) * blockSize
      rw [Nat.succ_mul, Nat.mul_comm]
      exact Nat.lt_add_of_pos_right hsize
    · exact Nat.lt_of_mul_lt_mul_left (Nat.mul_comm q _ ▸ hq)
  · rename_i hpart
    refine ⟨Nat.lt_of_le_of_ne hcovers fun heq => hpart ⟨⟨_, heq.trans (Nat.mul_comm _ _)⟩, ?_⟩,
      fun q (hq : deficit < q * blockSize) => ?_⟩
    · rw [heq]
      exact Nat.mul_pos hone hsize
    · refine (isLeast_quota hsize).2 ⟨Nat.pos_of_mul_pos_right (Nat.zero_lt_of_lt hq), hq.le⟩

/-! ## Numbers that a word holds -/

theorem quota_of_blocksFor (h : policy.blocksFor deficit blockSize = some q) :
    policy.quota deficit blockSize = q := by
  cases policy with
  | headroom => exact (Word.add?_eq_some.1 h).2
  | exactFit => exact Option.some.inj h

theorem quota_exactFit_lt (hsize : 0 < blockSize) (hdeficit : deficit < Word.limit) :
    exactFit.quota deficit blockSize < Word.limit := by
  have hle : exactFit.quota deficit blockSize ≤ max deficit 1 :=
    (isLeast_quota hsize).2 ⟨Nat.le_max_right _ _,
      (Nat.le_max_left _ _).trans (Nat.le_mul_of_pos_right _ hsize)⟩
  exact hle.trans_lt (Nat.max_lt.2 ⟨hdeficit, by decide⟩)

/-- A word holds the number of blocks for any shortfall that it holds, but for one. -/
theorem quota_headroom_lt_iff (hsize : 0 < blockSize) (hdeficit : deficit < Word.limit) :
    headroom.quota deficit blockSize < Word.limit ↔
      ¬(blockSize = 1 ∧ deficit = Word.limit - 1) := by
  constructor
  · rintro hlt ⟨rfl, rfl⟩
    exact absurd hlt (by decide)
  · intro hother
    by_cases hone : blockSize = 1
    · subst hone
      rw [quota, Nat.div_one]
      omega
    · -- Blocks of two slots or more are at most half as many as the slots.
      have hhalf : deficit / blockSize ≤ deficit / 2 := Nat.div_le_div_left (by omega) Nat.two_pos
      have hlimit : 2 < Word.limit := by decide
      rw [quota]
      omega

theorem blocksFor_eq (hsize : 0 < blockSize) (hdeficit : deficit < Word.limit) :
    policy.blocksFor deficit blockSize =
      if policy.quota deficit blockSize < Word.limit then some (policy.quota deficit blockSize)
      else none := by
  cases policy with
  | headroom => rfl
  | exactFit => exact (if_pos (quota_exactFit_lt hsize hdeficit)).symm

/-- The blocks that a policy asks for, more than any number where no word holds theirs. -/
def demand (policy : GrowthPolicy) (deficit blockSize : Nat) : ℕ∞ :=
  match policy.blocksFor deficit blockSize with
  | some q => q
  | none => ⊤

theorem demand_le_demand (hpos : 0 < blockSize') (hdeficit : deficit ≤ deficit')
    (hsize : blockSize' ≤ blockSize) (hword : deficit' < Word.limit) :
    policy.demand deficit blockSize ≤ policy.demand deficit' blockSize' := by
  have hquota : policy.quota deficit blockSize ≤ policy.quota deficit' blockSize' :=
    quota_le_quota hpos hdeficit hsize
  rw [demand, demand, blocksFor_eq (hpos.trans_le hsize) (hdeficit.trans_lt hword),
    blocksFor_eq hpos hword]
  by_cases hlt : policy.quota deficit' blockSize' < Word.limit
  · rw [if_pos hlt, if_pos (hquota.trans_lt hlt)]
    exact ENat.natCast_le_natCast.2 hquota
  · rw [if_neg hlt]
    exact le_top

/-- What the policies ask for when so many slots are missing, in blocks of this size. -/
structure Sized (deficit blockSize : Nat) : Prop where
  exact : ∃ q, exactFit.blocksFor deficit blockSize = some q ∧
    IsLeast {q | 1 ≤ q ∧ deficit ≤ q * blockSize} q
  uncountable : headroom.blocksFor deficit blockSize = none ↔
    blockSize = 1 ∧ deficit = Word.limit - 1
  ample : ¬(blockSize = 1 ∧ deficit = Word.limit - 1) →
    ∃ q, headroom.blocksFor deficit blockSize = some q ∧ IsLeast {q | deficit < q * blockSize} q
  /-- Headroom is one block more than an exact fit with nothing left over, and else that fit. -/
  spare : ∀ q, exactFit.blocksFor deficit blockSize = some q →
    headroom.blocksFor deficit blockSize =
      if blockSize ∣ deficit ∧ 0 < deficit then Word.add? q 1 else some q
  monotone : ∀ (policy : GrowthPolicy) (deficit' : Nat), deficit ≤ deficit' →
    deficit' < Word.limit → policy.demand deficit blockSize ≤ policy.demand deficit' blockSize
  antitone : ∀ (policy : GrowthPolicy) (blockSize' : Nat), blockSize ≤ blockSize' →
    policy.demand deficit blockSize' ≤ policy.demand deficit blockSize

/-- The policies ask for the least numbers of blocks that do, whatever is missing and however large
the blocks are. -/
theorem blocksFor_sized (hsize : 0 < blockSize) (hdeficit : deficit < Word.limit) :
    Sized deficit blockSize where
  exact := by
    have hleast : IsLeast (exactFit.covers deficit blockSize) (exactFit.quota deficit blockSize) :=
      isLeast_quota hsize
    exact ⟨_, (blocksFor_eq hsize hdeficit).trans (if_pos (quota_exactFit_lt hsize hdeficit)),
      hleast⟩
  uncountable := by
    rw [blocksFor_eq hsize hdeficit, ← not_iff_not, ← quota_headroom_lt_iff hsize hdeficit]
    simp
  ample hother := by
    have hlt := (quota_headroom_lt_iff hsize hdeficit).2 hother
    have hleast : IsLeast (headroom.covers deficit blockSize) (headroom.quota deficit blockSize) :=
      isLeast_quota hsize
    exact ⟨_, (blocksFor_eq hsize hdeficit).trans (if_pos hlt), hleast⟩
  spare q hq := by
    obtain rfl := quota_of_blocksFor hq
    rw [blocksFor_eq hsize hdeficit, quota_headroom hsize]
    by_cases hfull : blockSize ∣ deficit ∧ 0 < deficit
    · rw [if_pos hfull, if_pos hfull]
      rfl
    · rw [if_neg hfull, if_neg hfull, if_pos (quota_exactFit_lt hsize hdeficit)]
  monotone _ _ hle hword := demand_le_demand hsize hle (Nat.le_refl _) hword
  antitone _ _ hle := demand_le_demand hsize (Nat.le_refl _) hle hdeficit

theorem blocksFor_sized_twelve_four : 0 < 4 ∧ 12 < Word.limit ∧ Sized 12 4 ∧
    exactFit.blocksFor 12 4 = some 3 ∧ headroom.blocksFor 12 4 = some 4 :=
  ⟨by decide, by decide, blocksFor_sized (by decide) (by decide), rfl, rfl⟩

end SlotPool.GrowthPolicy
