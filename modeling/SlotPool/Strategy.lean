import SlotPool.Error
import SlotPool.Word

/-!
# What a slot holds and what a block costs

A pool's slots hold objects, one element each, or buffers of a fixed number of elements. From that
follow the room that a block needs, the reservations that are made for it, and whether so many
blocks can be addressed at all.
-/

namespace SlotPool

inductive Shape where
  | object
  /-- Runs of `size` elements. -/
  | buffer (size : Nat)
deriving DecidableEq, Repr, Inhabited

namespace Shape

def name : Shape → String
  | object => "object"
  | buffer _ => "buffer"

/-- Elements of a slot. -/
def width : Shape → Nat
  | object => 1
  | buffer size => size

def bufferSize? : Shape → Option Nat
  | object => none
  | buffer size => some size

end Shape

/-- Room for `count` things of `bytes` bytes each, asked of the allocator at once. -/
structure Reservation where
  count : Nat
  bytes : Nat
deriving DecidableEq, Repr

namespace Reservation

def total (r : Reservation) : Nat := r.count * r.bytes

/-- What a call reports when the allocator refuses. -/
def error (r : Reservation) : PoolError := .outOfMemory r.count r.bytes

end Reservation

structure Strategy (ε : Type) where
  shape : Shape
  /-- Slots in a block. -/
  blockSize : Nat
  /-- What every element of a free slot is. -/
  pristine : ε
  /-- Bytes of a slot's node. The value of an object lies inside the node. -/
  nodeBytes : Nat
  /-- Bytes of one element of a buffer. -/
  elementBytes : Nat
  blockSize_pos : 0 < blockSize
  width_pos : 0 < shape.width

/-- What is known of the elements of slots, whatever pool they are in. -/
structure ElementLayout (ε : Type) where
  /-- What a new element is. -/
  pristine : ε
  /-- Bytes of a node that holds an object. -/
  objectNodeBytes : Nat
  /-- Bytes of a node that refers to a buffer. -/
  bufferNodeBytes : Nat := 32
  /-- Bytes of one element of a buffer. -/
  elementBytes : Nat

namespace Strategy

variable {ε : Type}

/-- Slots of one object each. -/
def objects (layout : ElementLayout ε) (blockSize : Nat) (blockSize_pos : 0 < blockSize) :
    Strategy ε where
  shape := .object
  blockSize
  pristine := layout.pristine
  nodeBytes := layout.objectNodeBytes
  elementBytes := layout.elementBytes
  blockSize_pos
  width_pos := Nat.one_pos

/-- Slots of one buffer each. -/
def buffers (layout : ElementLayout ε) (size blockSize : Nat) (size_pos : 0 < size)
    (blockSize_pos : 0 < blockSize) : Strategy ε where
  shape := .buffer size
  blockSize
  pristine := layout.pristine
  nodeBytes := layout.bufferNodeBytes
  elementBytes := layout.elementBytes
  blockSize_pos
  width_pos := size_pos

/-- Elements in a block, if a word can count them. -/
def elementsPerBlock? (s : Strategy ε) : Option Nat := Word.mul? s.shape.width s.blockSize

/-- Bytes of one slot, if a word can count them. -/
def slotBytes? (s : Strategy ε) : Option Nat :=
  match s.shape with
  | .object => some s.nodeBytes
  | .buffer size => (Word.mul? size s.elementBytes).bind (Word.add? · s.nodeBytes)

/-- So many blocks, with all that their slots need, can be addressed. -/
def addressable (s : Strategy ε) (blocks : Nat) : Bool :=
  match s.elementsPerBlock?, s.slotBytes?, Word.mul? blocks s.blockSize with
  | some _, some slotBytes, some slots =>
    match Word.mul? slots slotBytes with
    | some bytes => bytes ≤ Word.maxBytes
    | none => false
  | _, _, _ => false

/-- The reservations for one block, in order. -/
def reservations (s : Strategy ε) : List Reservation :=
  match s.shape with
  | .object => [⟨s.blockSize, s.nodeBytes⟩]
  | .buffer size => [⟨size * s.blockSize, s.elementBytes⟩, ⟨s.blockSize, s.nodeBytes⟩]

end Strategy

end SlotPool
