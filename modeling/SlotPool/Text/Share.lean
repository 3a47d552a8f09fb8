/-!
# Shares in percent

A share is shown in percent with one decimal. It is the quotient in binary with 53 significant bits,
times a hundred and rounded to 53 bits again; a decimal that lies half-way goes to the even one.
-/

namespace SlotPool.Text.Share

/-- The nearest whole number to `num / den`; a half goes to the even neighbour. -/
def roundDiv (num den : Nat) : Nat :=
  let q := num / den
  let r := num % den
  if 2 * r < den then q
  else if den < 2 * r then q + 1
  else q + q % 2

/-- The number `mantissa / 2 ^ halvings`. -/
structure Dyadic where
  mantissa : Nat
  halvings : Nat
deriving DecidableEq, Repr

/-- The quotient with 53 significant bits, for quotients below `2 ^ 53`. -/
def quotient (num den : Nat) : Dyadic :=
  if num = 0 then ⟨0, 0⟩
  else
    let most := 53 + den.log2 - num.log2
    let halvings := if (num <<< most) / den ≥ 1 <<< 53 then most - 1 else most
    ⟨roundDiv (num <<< halvings) den, halvings⟩

/-- Tenths of a percent in `part / whole`. Nothing is no share of nothing. -/
def tenths (part whole : Nat) : Nat :=
  if whole = 0 then 0
  else
    let ratio := quotient part whole
    let percent := quotient (ratio.mantissa * 100) (1 <<< ratio.halvings)
    roundDiv (percent.mantissa * 10) (1 <<< percent.halvings)

def percent (part whole : Nat) : String :=
  let t := tenths part whole
  s!"{t / 10}.{t % 10}"

end SlotPool.Text.Share
