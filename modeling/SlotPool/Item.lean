import SlotPool.Stack.Ordered
import SlotPool.Strategy
import SlotPool.Text.Tree

/-!
# What lies in the slots

An item type says what the elements of slots are: their new value and their size, how they are
ordered and how they are shown. Slots hold one element each, or buffers of them.
-/

namespace SlotPool

open Text (Tree)

structure ItemType (ε : Type) where
  layout : ElementLayout ε
  /-- Slots hold buffers of elements. -/
  buffered : Bool := false
  order : ε → ε → Ordering
  /-- The order of single elements by a part of them. -/
  keyOrder : ε → ε → Ordering
  tree : ε → Tree

/-- What is written to a slot. -/
inductive Content (ε : Type) where
  /-- One element in every place. -/
  | all (v : ε)
  /-- Elements in the first places. -/
  | first (vs : List ε)

def Content.write {ε : Type} (m : Memory ε) (s : Slot) : Content ε → Memory ε
  | all v => m.fill s v
  | first vs => m.overwrite s vs

/-- The orders in which slots can be put. -/
inductive Comparison where
  | ascending
  | descending
  /-- By a part of the value: the first element of a buffer, or an element's own key. -/
  | byKey
  /-- The same answer for all values. -/
  | always (answer : Ordering)
deriving DecidableEq, Repr

namespace ItemType

variable {ε : Type}

/-- The order of dictionaries. -/
def lexicographic (order : ε → ε → Ordering) : List ε → List ε → Ordering
  | [], [] => .eq
  | [], _ :: _ => .lt
  | _ :: _, [] => .gt
  | a :: as, b :: bs => (order a b).then (lexicographic order as bs)

def compareValues (item : ItemType ε) (a b : Array ε) : Ordering :=
  lexicographic item.order a.toList b.toList

def compareKeys (item : ItemType ε) (a b : Array ε) : Ordering :=
  lexicographic (if item.buffered then item.order else item.keyOrder) (a.toList.take 1)
    (b.toList.take 1)

def compare (item : ItemType ε) : Comparison → Array ε → Array ε → Ordering
  | .ascending => item.compareValues
  | .descending => fun a b => (item.compareValues a b).swap
  | .byKey => item.compareKeys
  | .always answer => fun _ _ => answer

/-- A value as it is shown for debugging: an element by itself, a buffer as a list. -/
def valueTree (item : ItemType ε) (v : Array ε) : Tree :=
  match item.buffered, v.toList with
  | false, [e] => item.tree e
  | _, es => .list (es.map item.tree)

/-! ## Items -/

/-- Numbers with a key of all but the last decimal digit. -/
def number (pristine : Int) : ItemType Int where
  layout := { pristine, objectNodeBytes := 24, elementBytes := 8 }
  order := Ord.compare
  keyOrder a b := Ord.compare (a / 10) (b / 10)
  tree := .integer

def numberBuffers (pristine : Int) (elementBytes : Nat) : ItemType Int :=
  { number pristine with
    layout := { pristine, objectNodeBytes := 24, elementBytes }
    buffered := true }

/-- Texts in the order of their code points, with their size in bytes as key. -/
def text : ItemType String where
  layout := { pristine := "", objectNodeBytes := 40, elementBytes := 24 }
  order a b := Ord.compare a b
  keyOrder a b := Ord.compare a.utf8ByteSize b.utf8ByteSize
  tree := .quoted

/-- Pairs with their first part as key. -/
def pair : ItemType (Int × Char) where
  layout := { pristine := (0, '\x00'), objectNodeBytes := 24, elementBytes := 8 }
  order a b := (Ord.compare a.1 b.1).then (Ord.compare a.2 b.2)
  keyOrder a b := Ord.compare a.1 b.1
  tree p := .variant "" [.integer p.1, .character p.2]

end ItemType

/-! ## Stacks as text -/

namespace Stack

variable {ε : Type}

/-- The first values between blanks, and a word on whether there are more. -/
def summary (item : ItemType ε) (m : Memory ε) (st : Stack) (limit : Nat) : String :=
  if st.isEmpty then "(empty)"
  else
    let shown := (st.slots m).take limit |>.map fun s => (item.valueTree (m.value s)).line
    let more := if limit < st.length then ["and more..."] else []
    " ".intercalate (shown ++ more)

def tree (item : ItemType ε) (m : Memory ε) (st : Stack) : Tree :=
  .list ((st.values m).map item.valueTree)

end Stack

end SlotPool
