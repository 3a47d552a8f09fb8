import SlotPool.Text.Tree

/-!
# Why a pool call or a configuration fails

Errors are causes. Their wording is `message`, and `tree` shows them for debugging.
-/

namespace SlotPool

/-- Why the content of a file cannot be had. -/
inductive FileFault where
  | missing
  | isDirectory
  | notDirectory
  /-- A name on the path, or the whole path, has too many bytes. -/
  | nameTooLong
  /-- There is a zero character in the path. -/
  | zeroInName
  | notUtf8
  /-- Any other reason, in words. -/
  | other (reason : String)
deriving DecidableEq, Repr

def FileFault.message : FileFault → String
  | .missing => "No such file or directory (os error 2)"
  | .isDirectory => "Is a directory (os error 21)"
  | .notDirectory => "Not a directory (os error 20)"
  | .nameTooLong => "File name too long (os error 36)"
  | .zeroInName => "file name contained an unexpected NUL byte"
  | .notUtf8 => "stream did not contain valid UTF-8"
  | .other reason => reason

/-- What is wrong with a configuration. -/
inductive ConfigFault where
  | zeroBlockSize
  | zeroBufferSize
  /-- A block would hold more elements than a word can count. -/
  | tooManyElements (bufferSize blockSize : Nat)
  /-- A pool of buffers was asked for without their size. -/
  | noBufferSize
  | unreadable (path : String) (fault : FileFault)
  /-- The text is no configuration. -/
  | malformed
  /-- A field is too large to be written as an integer. -/
  | unwritable
  /-- A fault in a caller's own words. -/
  | custom (text : String)
deriving DecidableEq, Repr

def ConfigFault.message : ConfigFault → String
  | .zeroBlockSize => "block_size must be greater than zero"
  | .zeroBufferSize => "buffer_size must be greater than zero"
  | .tooManyElements bufferSize blockSize =>
    s!"buffer_size {bufferSize} × block_size {blockSize} overflows"
  | .noBufferSize => "buffer pools require buffer_size"
  | .unreadable path fault => s!"cannot read config '{path}': {fault.message}"
  | .malformed => "TOML parse error"
  | .unwritable => "TOML serialise error"
  | .custom text => text

inductive PoolError where
  /-- The allocator refused room for `slots` things of `bytes` bytes each. -/
  | outOfMemory (slots bytes : Nat)
  /-- So many blocks cannot be addressed. -/
  | capacityOverflow (blocks blockSize : Nat)
  | invalidConfig (fault : ConfigFault)
deriving DecidableEq, Repr

namespace PoolError

def message : PoolError → String
  | outOfMemory slots bytes => s!"out of memory: could not allocate {slots} slots of {bytes} bytes"
  | capacityOverflow blocks blockSize => s!"capacity overflow: {blocks} blocks of {blockSize} slots"
  | invalidConfig fault => s!"invalid pool configuration: {fault.message}"

/-- The name of the kind of error. -/
def kind : PoolError → String
  | outOfMemory .. => "OutOfMemory"
  | capacityOverflow .. => "CapacityOverflow"
  | invalidConfig _ => "InvalidConfig"

open Text (Tree)

def tree (e : PoolError) : Tree :=
  match e with
  | outOfMemory slots bytes =>
    .record e.kind [("requested_slots", .number slots), ("element_bytes", .number bytes)]
  | capacityOverflow blocks blockSize =>
    .record e.kind [("blocks", .number blocks), ("block_size", .number blockSize)]
  | invalidConfig fault => .variant e.kind [.quoted fault.message]

end PoolError

end SlotPool
