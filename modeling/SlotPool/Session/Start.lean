import SlotPool.Config.Toml
import SlotPool.Session.Basic

/-!
# How commands start

`Session.start` does what a command does before its call, or all of it if it makes none.
-/

namespace SlotPool.Session

variable {ε : Type}

/-! ## Pools -/

/-- The pool that is asked for, or why there is none. -/
def makePool (item : ItemType ε) : PoolRequest → Except Failure (Pool ε)
  | .sizes blockSize bufferSize beside => do
    if let some text := beside then
      let _ ← (Config.ofToml text).mapError .error
    let made :=
      if item.buffered then Pool.ofBufferSize item.layout (bufferSize.getD 1) blockSize
      else Pool.ofBlockSize item.layout blockSize
    made.mapError .violation
  | .config c => (ofConfig c).mapError .error
  | .document text => (Config.ofToml text >>= ofConfig).mapError .error
where
  ofConfig (c : Config) : Except PoolError (Pool ε) :=
    if item.buffered then Pool.ofBufferConfig item.layout c else Pool.ofConfig item.layout c

def newPool (s : Session ε) (request : PoolRequest) : Session ε × Execution ε :=
  match makePool s.item request with
  | .error f => (s, .finished (.error f))
  | .ok p =>
    match s with
    | ⟨item, arena, registers⟩ =>
      let index := arena.pools.size
      (⟨item, arena.addPool p, registers⟩, .finished (.ok (.pool index)))

/-- Does something with a pool that there is. -/
def onPool (s : Session ε) (p : Nat) (k : PoolId → Pool ε → Session ε × Execution ε) :
    Session ε × Execution ε :=
  match s.pool? p with
  | some pool => k ⟨p⟩ pool
  | none => (s, .refused .noSuchPool)

/-- Does something with a part of a command that was not left out. -/
def given (s : Session ε) (part : Option α) (r : Refusal)
    (k : Session ε → α → Session ε × Execution ε) : Session ε × Execution ε :=
  match part with
  | none => (s, .refused r)
  | some x => k s x

/-! ## Giving back -/

/-- The call that gives a thing of the right kind back to a pool. -/
def returning : HeldKind → Held → Option (Option Call)
  | .slot, .slot sl => some (some (.cleanOne sl))
  | .stack, .stack st => some (some (.cleanMany st))
  | .lease, .lease l => some (l.slot.map .cleanOne)
  | .leaseStack, .leaseStack l => some (some (.cleanMany l.stack))
  | _, _ => none

def release (s : Session ε) (p : Nat) (kind : HeldKind) (a : Place) : Session ε × Execution ε :=
  s.taking a fun s h =>
    match returning kind h, s.pool? p with
    | none, _ => s.refuseDropping .wrongKind h
    | some _, none => s.refuseDropping .noSuchPool h
    | some (some c), some _ => (s, .call ⟨p⟩ c (.answer (.ok .done)))
    | some none, some _ => (s, .done)

def reset (s : Session ε) (a : Place) : Session ε × Execution ε :=
  s.viewing a fun s a h =>
    match h with
    | .lease l => (s.update a (.lease l.detach.1), .disposing l.dropped (.ok .done))
    | .leaseStack l => (s.update a (.leaseStack l.detach.1), .disposing l.dropped (.ok .done))
    | _ => (s, .refused .wrongKind)

def detach (s : Session ε) (a dest : Place) : Session ε × Execution ε :=
  s.viewing a fun s a h =>
    match h with
    | .lease l =>
      match l.detach with
      | (l, some sl) => (s.update a (.lease l)).store dest (.slot sl) (.ok (.flag true))
      | (_, none) => (s, .finished (.ok (.flag false)))
    | .leaseStack l =>
      let (l, st) := l.detach
      (s.update a (.leaseStack l)).store dest (.stack st) (.ok (.flag true))
    | _ => (s, .refused .wrongKind)

/-! ## Putting under a lease -/

/-- Puts what was taken under a lease of a pool. What is refused is dropped. -/
def leasing (s : Session ε) (p : Nat) (a dest : Place)
    (lease : Memory ε → PoolId → Held → Option (Except Violation Held)) :
    Session ε × Execution ε :=
  s.taking a fun s h =>
    match lease s.memory ⟨p⟩ h, s.pool? p with
    | none, _ => s.refuseDropping .wrongKind h
    | some _, none => s.refuseDropping .noSuchPool h
    | some (.ok l), some _ => s.store dest l (.ok .done)
    | some (.error v), some _ => (s, .violated v)

def leaseSlot (s : Session ε) (p : Nat) (a dest : Place) : Session ε × Execution ε :=
  s.leasing p a dest fun m id h =>
    match h with
    | .slot sl => some ((Lease.ofSlot m id sl).map .lease)
    | _ => none

def leaseStack (s : Session ε) (p : Nat) (a dest : Place) : Session ε × Execution ε :=
  s.leasing p a dest fun m id h =>
    match h with
    | .stack st => some ((LeaseStack.ofStack m id st).map .leaseStack)
    | _ => none

/-! ## Moving things -/

def emptyOf : HeldKind → Option Held
  | .slot => none
  | .stack => some (.stack {})
  | .lease => some (.lease {})
  | .leaseStack => some (.leaseStack {})

def kindOf : Held → HeldKind
  | .slot _ => .slot
  | .stack _ => .stack
  | .lease _ => .lease
  | .leaseStack _ => .leaseStack

def take (s : Session ε) (a dest : Place) : Session ε × Execution ε :=
  s.viewing a fun s a h =>
    match emptyOf (kindOf h) with
    | some empty => (s.update a empty).store dest h (.ok .done)
    | none => (s, .refused .wrongKind)

/-- Moves what is in `b` into what is in `a`. -/
def merging (s : Session ε) (a b : Place)
    (k : Session ε → String → Held → Held → Session ε × Execution ε) : Session ε × Execution ε :=
  s.taking b fun s source =>
    match s.find a with
    | .error r => s.refuseDropping r source
    | .ok (name, target) => k s name target source

/-- Merges a lease into the stack under a lease in `a`, if their pools allow it. A lease that does
not fit is dropped. -/
def mergeLease (s : Session ε) (a : String) (target : LeaseStack) (source : Option PoolId)
    (rejected : Disposal) (join : LeaseStack → Memory ε → Memory ε × LeaseStack) :
    Session ε × Execution ε :=
  match target.adopt source with
  | .error v => (s, .disposing rejected (.error (.violation v)))
  | .ok target =>
    let (s, target) := s.withMemory (join target)
    (s.update a (.leaseStack target), .done)

def push (s : Session ε) (a b : Place) : Session ε × Execution ε :=
  s.merging a b fun s a target source =>
    match target, source with
    | .stack st, .slot sl =>
      let (s, st) := s.withMemory fun m => st.push m sl
      (s.update a (.stack st), .done)
    | .leaseStack l, .slot sl =>
      match l.checkPush s.memory sl with
      | .error v => (s, .violated v)
      | .ok () =>
        let (s, l) := s.withMemory fun m => l.push m sl
        (s.update a (.leaseStack l), .done)
    | .leaseStack l, .lease other =>
      s.mergeLease a l other.pool other.dropped fun l m => l.pushLease m other
    | .leaseStack l, .leaseStack other =>
      s.mergeLease a l other.pool other.dropped fun l m => l.append m other
    | _, source => s.refuseDropping .wrongKind source

/-- Moves all of the stack in `b` into the one in `a`. Both stay in their registers, which have to
be different ones. -/
def append (s : Session ε) (a b : Place) : Session ε × Execution ε :=
  s.viewing b fun s b source =>
    s.viewing a fun s a target =>
      if a = b then (s, .refused .noSuchRegister)
      else
        match target, source with
        | .stack st, .stack other =>
          let (s, st) := s.withMemory fun m => st.append m other
          ((s.update a (.stack st)).update b (.stack {}), .done)
        | _, _ => (s, .refused .wrongKind)

def insert (s : Session ε) (a b : Place) (cmp : Comparison) : Session ε × Execution ε :=
  s.merging a b fun s a target source =>
    let order := s.item.compare cmp
    match target, source with
    | .stack st, .slot sl =>
      let (s, st) := s.withMemory fun m => st.insert order m sl
      (s.update a (.stack st), .done)
    | .leaseStack l, .lease other =>
      s.mergeLease a l other.pool other.dropped fun l m => l.insertLease order m other
    | _, source => s.refuseDropping .wrongKind source

def pop (s : Session ε) (a dest : Place) : Session ε × Execution ε :=
  s.viewing a fun s a h =>
    match h with
    | .stack st =>
      let (s, st, sl) := s.withMemory fun m => st.pop m
      let s := s.update a (.stack st)
      match sl with
      | some sl => s.store dest (.slot sl) (.ok (.flag true))
      | none => (s, .finished (.ok (.flag false)))
    | .leaseStack l =>
      let (s, l, one) := s.withMemory fun m => l.pop m
      let s := s.update a (.leaseStack l)
      match one with
      | some one => s.store dest (.lease one) (.ok (.flag true))
      | none => (s, .finished (.ok (.flag false)))
    | _ => (s, .refused .wrongKind)

def split (s : Session ε) (a : Place) (count : Nat) (dest : Place) : Session ε × Execution ε :=
  s.viewing a fun s a h =>
    match h with
    | .stack st =>
      match s.withMemory fun m => st.split m count with
      | (s, .ok (front, rest)) => (s.update a (.stack rest)).store dest (.stack front) (.ok .done)
      | (s, .error v) => (s, .violated v)
    | .leaseStack l =>
      match s.withMemory fun m => l.split m count with
      | (s, .ok (front, rest)) =>
        (s.update a (.leaseStack rest)).store dest (.leaseStack front) (.ok .done)
      | (s, .error v) => (s, .violated v)
    | _ => (s, .refused .wrongKind)

/-! ## Looking at things -/

/-- The stack in a register, under a lease or not. -/
def stackOf? : Held → Option Stack
  | .stack st => some st
  | .leaseStack l => some l.stack
  | _ => none

def onStack (s : Session ε) (a : Place) (k : Session ε → Stack → Session ε × Execution ε) :
    Session ε × Execution ε :=
  s.viewing a fun s _ h =>
    match stackOf? h with
    | some st => k s st
    | none => (s, .refused .wrongKind)

def length (s : Session ε) (a : Place) : Session ε × Execution ε :=
  s.viewing a fun s _ h =>
    match h with
    | .lease l => (s, .finished (.ok (.length (if l.isEmpty then 0 else 1) l.isEmpty)))
    | h =>
      match stackOf? h with
      | some st => (s, .finished (.ok (.length st.length st.isEmpty)))
      | none => (s, .refused .wrongKind)

/-- The slot in a register, which is there to be read and written. -/
def onSlot (s : Session ε) (a : Place) (k : Session ε → Slot → Session ε × Execution ε) :
    Session ε × Execution ε :=
  s.viewing a fun s _ h =>
    match h with
    | .slot sl => k s sl
    | .lease l =>
      match l.slot with
      | some sl => k s sl
      | none => (s, .violated .emptyLease)
    | _ => (s, .refused .wrongKind)

def writeTo (s : Session ε) (sl : Slot) (content : Content ε) : Session ε :=
  (s.withMemory fun m => (content.write m sl, ())).1

/-- Writes to one slot after the other, and to none where a stack has ended. -/
def writeAlong (m : Memory ε) (c : Cursor) : List (Content ε) → Memory ε × Cursor
  | [] => (m, c)
  | content :: contents =>
    match c.step m with
    | (some sl, c) => writeAlong (content.write m sl) c contents
    | (none, c) => writeAlong m c contents

/-! ## All commands -/

/-- Starts a command. -/
def start (s : Session ε) : Command ε → Session ε × Execution ε
  | .newPool request => s.newPool request
  | .poolInfo p =>
    s.onPool p fun id pool =>
      (s, .finished (.ok (.info ⟨id, pool.blockSize, pool.policy, pool.strategy.shape⟩)))
  | .poolTree p => s.onPool p fun id pool => (s, .finished (.ok (.tree (pool.tree id))))
  | .stats p => s.onPool p fun id _ => (s, .call id .readStats .report)
  | .acquire p leased content dest =>
    s.onPool p fun id _ =>
      if s.item.buffered && content.isSome then (s, .refused .wrongKind)
      else (s, .call id .popOne (.keep dest leased content))
  | .acquireStack p count leased dest =>
    s.onPool p fun id _ =>
      s.given count .missingCount fun s n =>
        (s, .call id (.popMany n) (.keep dest leased none))
  | .release p kind a => s.release p kind a
  | .makeEmpty kind dest =>
    match emptyOf kind with
    | some empty => s.store dest empty (.ok .done)
    | none => (s, .refused .wrongKind)
  | .makeLeaseStack p dest =>
    s.onPool p fun id _ => s.store dest (.leaseStack { pool := some id }) (.ok .done)
  | .leaseSlot p a dest => s.leaseSlot p a dest
  | .leaseStack p a dest => s.leaseStack p a dest
  | .drop a => s.taking a fun s h => (s, .disposing h.dropped (.ok .done))
  | .move a dest => s.taking a fun s h => s.store dest h (.ok .done)
  | .take a dest => s.take a dest
  | .push a b => s.push a b
  | .append a b => s.append a b
  | .insert a b cmp => s.insert a b cmp
  | .isSorted a cmp =>
    s.onStack a fun s st =>
      (s, .finished (.ok (.flag (st.isSorted (s.item.compare cmp) s.memory))))
  | .pop a dest => s.pop a dest
  | .split a count dest => s.given count .missingCount fun s n => s.split a n dest
  | .peek a => s.onStack a fun s st => (s, .finished (.ok (.value (st.head.map s.memory.value))))
  | .writeFront a content =>
    s.viewing a fun s _ h =>
      match h with
      | .stack st =>
        match st.head with
        | some sl => (s.writeTo sl content, .finished (.ok (.flag true)))
        | none => (s, .finished (.ok (.flag false)))
      | _ => (s, .refused .wrongKind)
  | .length a => s.length a
  | .summary a limit =>
    s.given limit .missingCount fun s n =>
      s.onStack a fun s st => (s, .finished (.ok (.text (st.summary s.item s.memory n))))
  | .tree a => s.viewing a fun s _ h => (s, .finished (.ok (.tree (h.tree s.item s.memory))))
  | .iterate a steps =>
    s.given steps .missingCount fun s n =>
      s.onStack a fun s st =>
        let (slots, rest) := (Cursor.ofStack st).steps s.memory n
        (s, .finished (.ok (.visited (slots.map (·.map s.memory.value)) rest)))
  | .writeEach a contents =>
    s.onStack a fun s st =>
      s.given contents .missingContents fun s cs =>
        let (s, rest) := s.withMemory fun m => writeAlong m (Cursor.ofStack st) cs
        (s, .finished (.ok (.written rest)))
  | .writeAll a content =>
    s.onStack a fun s st =>
      let contents := List.replicate st.length content
      let (s, rest) := s.withMemory fun m => writeAlong m (Cursor.ofStack st) contents
      (s, .finished (.ok (.written rest)))
  | .read a => s.onSlot a fun s sl => (s, .finished (.ok (.value (some (s.memory.value sl)))))
  | .write a content => s.onSlot a fun s sl => (s.writeTo sl content, .done)
  | .tryWrite a content =>
    s.viewing a fun s _ h =>
      match h with
      | .lease l =>
        match l.slot with
        | some sl => (s.writeTo sl content, .finished (.ok (.flag true)))
        | none => (s, .finished (.ok (.flag false)))
      | _ => (s, .refused .wrongKind)
  | .reset a => s.reset a
  | .detach a dest => s.detach a dest

end SlotPool.Session
