/-!
# Time spans as text

A span of whole microseconds is written in the largest unit that it fills, with as many decimals as
it needs.
-/

namespace SlotPool.Text.Interval

/-- The decimals of `fraction`, which counts parts of `10 ^ places`, without zeros at the end. -/
def decimals (fraction places : Nat) : String :=
  let digits := (toString fraction).toList
  let padded := List.replicate (places - digits.length) '0' ++ digits
  String.ofList (padded.reverse.dropWhile (· == '0')).reverse

/-- `whole` units and `fraction` parts of `10 ^ places` of one. -/
def amount (whole fraction places : Nat) (unit : String) : String :=
  let shown := decimals fraction places
  if shown.isEmpty then toString whole ++ unit else s!"{whole}.{shown}{unit}"

def ofMicros (micros : Nat) : String :=
  if micros ≥ 1000000 then amount (micros / 1000000) (micros % 1000000) 6 "s"
  else if micros ≥ 1000 then amount (micros / 1000) (micros % 1000) 3 "ms"
  else if micros > 0 then amount micros 0 0 "µs"
  else "0ns"

end SlotPool.Text.Interval
