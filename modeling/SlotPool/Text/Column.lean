/-!
# Columns of a table

Text is filled up with blanks to the width of its column. Text that is wider is kept whole.
-/

namespace SlotPool.Text.Column

/-- Blanks that `s` lacks to fill `width` characters. -/
def blanks (width : Nat) (s : String) : String :=
  String.ofList (List.replicate (width - s.length) ' ')

/-- The text at the left end of its column. -/
def left (width : Nat) (s : String) : String := s ++ blanks width s

/-- The text at the right end of its column. -/
def right (width : Nat) (s : String) : String := blanks width s ++ s

end SlotPool.Text.Column
