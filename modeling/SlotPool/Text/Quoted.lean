import SlotPool.Text.Printable

/-!
# Quoted text

Strings and characters are shown between quotes. A quote, a backslash and the common control
characters are written with a backslash, and a character that would not be seen by its code point.
-/

namespace SlotPool.Text.Quoted

/-- The lower-case hexadecimal digits of a code point, without leading zeros. -/
def codePoint (c : Char) : String := String.ofList (Nat.toDigits 16 c.toNat)

/-- The written form of `c` between two `quote` characters. -/
def escaped (quote c : Char) : String :=
  match c with
  | '\x00' => "\\0"
  | '\t' => "\\t"
  | '\n' => "\\n"
  | '\r' => "\\r"
  | '\\' => "\\\\"
  | _ =>
    if c = quote then "\\" ++ quote.toString
    else if isExtender c || !isPrintable c then "\\u\x7b" ++ codePoint c ++ "\x7d"
    else c.toString

def string (s : String) : String :=
  "\"" ++ String.join (s.toList.map (escaped '"')) ++ "\""

def character (c : Char) : String := "'" ++ escaped '\'' c ++ "'"

end SlotPool.Text.Quoted
