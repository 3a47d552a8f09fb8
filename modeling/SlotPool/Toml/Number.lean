import SlotPool.Toml.Value

/-!
# Numbers, dates and words of TOML

Values that are not strings, arrays or tables are words without blanks. `value?` says what such
a word stands for.
-/

namespace SlotPool.Toml.Number

/-- Characters of numbers, dates and the words for truth values. -/
def isWordChar (c : Char) : Bool :=
  c.isAlphanum || c = '+' || c = '-' || c = '_' || c = '.' || c = ':'

def isHexDigit (c : Char) : Bool := c.isDigit || ('a' ≤ c && c ≤ 'f') || ('A' ≤ c && c ≤ 'F')

def isOctalDigit (c : Char) : Bool := '0' ≤ c && c ≤ '7'

def isBinaryDigit (c : Char) : Bool := c = '0' || c = '1'

/-- One digit or more, with single underscores between them. -/
def isRun (digit : Char → Bool) : List Char → Bool
  | [] => false
  | [c] => digit c
  | c :: '_' :: rest => digit c && isRun digit rest
  | c :: rest => digit c && isRun digit rest

/-- Decimal digits without a zero in front of others. -/
def isDecimal : List Char → Bool
  | ['0'] => true
  | '0' :: _ => false
  | cs => isRun Char.isDigit cs

def digitValue (c : Char) : Nat :=
  if c.isDigit then c.toNat - '0'.toNat
  else if 'a' ≤ c then c.toNat - 'a'.toNat + 10
  else c.toNat - 'A'.toNat + 10

/-- The number that digits stand for; underscores do not count. -/
def natOf (base : Nat) (cs : List Char) : Nat :=
  cs.foldl (fun n c => if c = '_' then n else n * base + digitValue c) 0

/-- The sign in front of a word, and the word without it. -/
def unsigned : List Char → Bool × List Char
  | '-' :: rest => (true, rest)
  | '+' :: rest => (false, rest)
  | cs => (false, cs)

/-! ## Integers -/

/-- Integers are those of a signed 64-bit word: from minus this number up to the one before it. -/
def integerLimit : Nat := 1 <<< 63

/-- The integer that a word stands for. -/
def integer? (cs : List Char) : Option Int :=
  let inRange (n : Int) : Option Int :=
    if -integerLimit ≤ n ∧ n < integerLimit then some n else none
  match cs with
  | '0' :: 'x' :: digits => if isRun isHexDigit digits then inRange (natOf 16 digits) else none
  | '0' :: 'o' :: digits => if isRun isOctalDigit digits then inRange (natOf 8 digits) else none
  | '0' :: 'b' :: digits => if isRun isBinaryDigit digits then inRange (natOf 2 digits) else none
  | _ =>
    let (negative, digits) := unsigned cs
    if isDecimal digits then
      inRange (if negative then -(natOf 10 digits : Int) else natOf 10 digits)
    else none

/-! ## Floating-point numbers -/

/-- A decimal number taken apart: the digits without the point, the number of them after it, and the
exponent. -/
structure Decimal where
  digits : Nat
  places : Nat
  exponent : Int

def isExponentMark (c : Char) : Bool := c = 'e' || c = 'E'

/-- The exponent after its mark. -/
def exponent? (cs : List Char) : Option Int :=
  let (negative, digits) := unsigned cs
  if isRun Char.isDigit digits then
    some (if negative then -(natOf 10 digits : Int) else natOf 10 digits)
  else none

/-- A number without its sign that has a fraction, an exponent or both. -/
def decimal? (cs : List Char) : Option Decimal :=
  let whole := cs.takeWhile fun c => c ≠ '.' && !isExponentMark c
  if !isDecimal whole then none
  else
    match cs.drop whole.length with
    | '.' :: rest =>
      let fraction := rest.takeWhile fun c => !isExponentMark c
      if !isRun Char.isDigit fraction then none
      else
        let places := (fraction.filter Char.isDigit).length
        let digits := natOf 10 (whole ++ fraction)
        match rest.drop fraction.length with
        | [] => some ⟨digits, places, 0⟩
        | _ :: tail => (exponent? tail).map (⟨digits, places, ·⟩)
    | _ :: tail => (exponent? tail).map (⟨natOf 10 whole, 0, ·⟩)
    | [] => none

/-- The least number that is nearer to infinity than to any 64-bit floating-point number. -/
def overflowLimit : Nat := (1 <<< 1024) - (1 <<< 970)

/-- The number is too large for 64 bits. -/
def Decimal.overflows (d : Decimal) : Bool :=
  let scale := d.exponent - d.places
  if d.digits = 0 then false
  else if scale > 400 then true
  else if scale ≥ 0 then d.digits * Nat.pow 10 scale.toNat ≥ overflowLimit
  else
    let shift := (-scale).toNat
    -- So many digits would be needed that the test below need not be done.
    if d.digits.log2 < shift then false else d.digits ≥ overflowLimit * Nat.pow 10 shift

/-- A positive number must not be too large; a negative one may, and is then infinite. -/
def isFloat (cs : List Char) : Bool :=
  let (negative, body) := unsigned cs
  body = ['i', 'n', 'f'] || body = ['n', 'a', 'n'] ||
    match decimal? body with
    | some d => negative || !d.overflows
    | none => false

/-! ## Dates and times -/

/-- Exactly `count` digits, as a number in the range. -/
def isField (count low high : Nat) (cs : List Char) : Bool :=
  cs.length = count && cs.all Char.isDigit && low ≤ natOf 10 cs && natOf 10 cs ≤ high

def isLeapYear (year : Nat) : Bool := year % 4 = 0 && (year % 100 ≠ 0 || year % 400 = 0)

def daysIn (year month : Nat) : Nat :=
  if month = 2 then if isLeapYear year then 29 else 28
  else if month = 4 || month = 6 || month = 9 || month = 11 then 30
  else 31

def isDate : List Char → Bool
  | [y₁, y₂, y₃, y₄, '-', m₁, m₂, '-', d₁, d₂] =>
    isField 4 0 9999 [y₁, y₂, y₃, y₄] && isField 2 1 12 [m₁, m₂] &&
      isField 2 1 (daysIn (natOf 10 [y₁, y₂, y₃, y₄]) (natOf 10 [m₁, m₂])) [d₁, d₂]
  | _ => false

/-- What may stand after the time of day: the distance from universal time. -/
def isOffset : List Char → Bool
  | ['Z'] | ['z'] => true
  | [sign, h₁, h₂, ':', m₁, m₂] =>
    (sign = '+' || sign = '-') && isField 2 0 23 [h₁, h₂] && isField 2 0 59 [m₁, m₂]
  | _ => false

/-- Hours, minutes, seconds and maybe a fraction of one. The time of a date may have an offset. -/
def isTime (withOffset : Bool) : List Char → Bool
  | h₁ :: h₂ :: ':' :: m₁ :: m₂ :: ':' :: s₁ :: s₂ :: rest =>
    isField 2 0 23 [h₁, h₂] && isField 2 0 59 [m₁, m₂] && isField 2 0 60 [s₁, s₂] &&
      ends (afterFraction rest)
  | _ => false
where
  afterFraction : List Char → Option (List Char)
    | '.' :: rest => if (rest.takeWhile Char.isDigit).isEmpty then none
        else some (rest.dropWhile Char.isDigit)
    | rest => some rest
  ends : Option (List Char) → Bool
    | none => false
    | some [] => true
    | some rest => withOffset && isOffset rest

def isDateTime (cs : List Char) : Bool :=
  isDate cs || isTime false cs ||
    match cs.drop 10 with
    | mark :: time => (mark = 'T' || mark = 't') && isDate (cs.take 10) && isTime true time
    | [] => false

/-! ## Words -/

def value? (cs : List Char) : Option Value :=
  if cs = ['t', 'r', 'u', 'e'] then some (.boolean true)
  else if cs = ['f', 'a', 'l', 's', 'e'] then some (.boolean false)
  else if isDateTime cs then some (.dateTime (String.ofList cs))
  else
    match integer? cs with
    | some n => some (.integer n)
    | none => if isFloat cs then some (.float (String.ofList cs)) else none

/-- A word at the front of the text. A date may be followed by a blank and a time. -/
def word (cs : List Char) : Option (Value × List Char) :=
  let token := cs.takeWhile isWordChar
  let rest := cs.dropWhile isWordChar
  let withTime := do
    let ' ' :: later := rest | none
    let time := later.takeWhile isWordChar
    if isDate token && isTime true time then
      some (Value.dateTime (String.ofList (token ++ ' ' :: time)), later.dropWhile isWordChar)
    else none
  withTime.orElse fun _ => (value? token).map (·, rest)

end SlotPool.Toml.Number
