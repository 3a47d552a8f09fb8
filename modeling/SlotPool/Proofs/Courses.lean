import SlotPool.Cli.Stress
import SlotPool.Proofs.Crews
import SlotPool.Proofs.Requests
import SlotPool.Proofs.Values

/-!
# The course of a thread under stress

Between two duties a thread holds nothing, one slot with its mark, or a stack of so many slots.
`Leads` says which duty leads from where to where. A thread that nothing hinders stays on such a
course whatever the others do, so that it never has a complaint.
-/

namespace SlotPool

open Memory

/-! ## Work that is left -/

section

variable {ε : Type}

def Command.asked : Command ε → Nat
  | .acquire .. => 1
  | .acquireStack _ count _ _ => count.getD 0
  | _ => 0

def Command.given (batch : Nat) : Command ε → Nat
  | .release _ .slot _ => 1
  | .release _ .stack _ => batch
  | _ => 0

/-- What is left to do of a command under way. -/
def Execution.due (ofCall : Call → Nat) : Execution ε → Nat
  | .calling _ ⟨c, _⟩ _ => ofCall c
  | .finished _ => 0

namespace Thread

def total (ofCommand : Command ε → Nat) (ds : List (Duty ε)) : Nat :=
  (ds.map fun d => ofCommand d.command).sum

/-- What is left to do for a thread after its duty, in its round and in the rounds to come. -/
def later (ofCommand : Command ε → Nat) (w : Work ε) (begun : Nat) (left : List (Duty ε)) : Nat :=
  total ofCommand left +
    (((List.range w.rounds).drop begun).map fun i => total ofCommand (w.duties i)).sum

/-- What is left to do for a thread. -/
def due (ofCommand : Command ε → Nat) (ofCall : Call → Nat) (t : Thread ε) : Nat :=
  (t.current.elim 0 fun d => d.2.due ofCall) + later ofCommand t.work t.begun t.left

theorem later_cons (ofCommand : Command ε → Nat) (w : Work ε) (begun : Nat) (d : Duty ε)
    (left : List (Duty ε)) :
    later ofCommand w begun (d :: left) = ofCommand d.command + later ofCommand w begun left := by
  simp only [later, total, List.map_cons, List.sum_cons]
  omega

theorem later_succ (ofCommand : Command ε → Nat) {w : Work ε} {begun : Nat}
    (h : begun < w.rounds) :
    later ofCommand w (begun + 1) (w.duties begun) = later ofCommand w begun [] := by
  have hlt : begun < (List.range w.rounds).length := by simpa using h
  simp only [later, List.drop_eq_getElem_cons hlt, List.getElem_range, List.map_cons,
    List.sum_cons]
  simp [total]

end Thread

namespace Thread

/-- In its next step the thread is refused no reservation, and asks for no slots at once for which
the pool has to grow further than can be addressed. -/
structure Supplied (a : Arena ε) (granted : Bool) (t : Thread ε) : Prop where
  granted : (t.reservation? a).isSome = true → granted = true
  many : ∀ id c p, t.call? = some (id, c) → a.pool? id = some p → c.ManyAddressable p

/-- As `Supplied`, and the thread does not begin a block that cannot be addressed. -/
structure Served (a : Arena ε) (granted : Bool) (t : Thread ε) : Prop extends
    Supplied a granted t where
  one : ∀ id c p, t.call? = some (id, c) → a.pool? id = some p → c.OneAddressable p

theorem Served.of_call {a : Arena ε} {granted : Bool} {t : Thread ε} (h : t.Served a granted)
    {d : Duty ε} {e : Execution ε} (ht : t.current = some (d, e)) {id : PoolId} {p : Pool ε}
    (hp : a.pool? id = some p) (c : Call) (hc : e.call? = some (id, c)) :
    ((c.reservation? p.strategy).isSome = true → granted = true) ∧ c.OneAddressable p ∧
      c.ManyAddressable p := by
  have hcall : t.call? = some (id, c) := by rw [call?, ht, Option.bind_some, hc]
  refine ⟨fun hr => h.granted ?_, h.one id c p hcall hp, h.many id c p hcall hp⟩
  cases e with
  | finished answer => simp [Execution.call?] at hc
  | calling id' progress sequel =>
    obtain ⟨rfl, rfl⟩ : id' = id ∧ progress.call = c := by simpa [Execution.call?] using hc
    simp only [reservation?, ht, Arena.reservation?, hp, Option.bind_some]
    exact hr

end Thread

theorem Session.writeAlong_keeps {m : Memory ε} (hl : m.Laid) (contents : List (Content ε))
    {c : Cursor} {l : List Slot} (hc : c.next = l.head?) (hlinked : m.Linked l none) :
    Keeps m (writeAlong m c contents).1 l := by
  induction contents generalizing m c l with
  | nil => exact Keeps.refl hl l
  | cons content contents ih =>
    cases l with
    | nil =>
      have hstep : c.step m = (none, c) := by simp [Cursor.step, hc]
      simp only [writeAlong, hstep]
      exact ih hl hc hlinked
    | cons t l =>
      have hstep : c.step m = (some t, ⟨l.head?, c.remaining - 1⟩) := by
        simp [Cursor.step, hc, next?_eq_link?, hlinked.1]
      have hnext : Cursor.next ⟨l.head?, c.remaining - 1⟩ = l.head? := rfl
      have hcells := cells_write m t content
      have hwrite : Keeps m (content.write m t) (t :: l) :=
        (Keeps.write hl t content).mono (by simp)
      simp only [writeAlong, hstep]
      refine hwrite.trans ((ih hwrite.laid hnext ?_).mono (List.subset_cons_self t l))
      exact hlinked.2.frame fun u _ => by rw [link?, link?, cell?, cell?, hcells]

end

/-! ## Duties -/

namespace Cli.Stress

/-- What a thread has between two duties. -/
inductive Stage where
  | idle
  | slot
  | stack
deriving DecidableEq, Repr

/-- The registers of a thread: a slot has the value `v`, a stack has `batch` slots. -/
def Stage.Holds (batch : Nat) (v : Int) (m : Memory Int) : Stage → Registers → Prop
  | idle, rs => rs = []
  | slot, rs => ∃ s, rs = [("slot", .slot s)] ∧ m.value s = #[v]
  | stack, rs => ∃ st, rs = [("stack", .stack st)] ∧ st.length = batch

/-- The duties of a round, and what a thread has before and after each of them. -/
inductive Leads (batch : Nat) (v : Int) : Stage → Duty Int → Stage → Prop where
  | acquire : Leads batch v .idle { command := .acquire 0 false (some (.all v)) "slot" } .slot
  | look : Leads batch v .slot (lookFor v) .slot
  | release : Leads batch v .slot { command := .release 0 .slot "slot" } .idle
  | acquireStack : Leads batch v .idle { command := .acquireStack 0 batch false "stack" } .stack
  | write : Leads batch v .stack { command := .writeAll "stack" (.all v) } .stack
  | count : Leads batch v .stack (countTo batch) .stack
  | releaseStack : Leads batch v .stack { command := .release 0 .stack "stack" } .idle

/-- Duties that lead one to the other, and to the end of a round. -/
def Ahead (batch : Nat) (v : Int) : Stage → List (Duty Int) → Prop
  | s, [] => s = .idle
  | s, d :: ds => ∃ s', Leads batch v s d s' ∧ Ahead batch v s' ds

theorem ahead_duties (batch thread i : Nat) :
    Ahead batch (mark thread i) .idle (duties batch thread i) := by
  unfold duties
  split
  · exact ⟨_, .acquire, _, .look, _, .release, _, .acquireStack, _, .write, _, .count, _,
      .releaseStack, rfl⟩
  · exact ⟨_, .acquire, _, .look, _, .release, rfl⟩

theorem total_duties (batch thread i : Nat) :
    Thread.total Command.asked (duties batch thread i) = (1 + if i % 8 = 0 then batch else 0) ∧
      Thread.total (Command.given batch) (duties batch thread i) =
        1 + if i % 8 = 0 then batch else 0 := by
  unfold duties
  split
  · rename_i hbulk
    have heighth : i % 8 = 0 := by simp_all
    simp [Thread.total, Command.asked, Command.given, lookFor, countTo, heighth]
  · rename_i hsingle
    have hnone : (if i % 8 = 0 then batch else 0) = 0 := by
      split <;> simp_all
    simp [Thread.total, Command.asked, Command.given, lookFor, hnone]

/-- Slots that a thread acquires in its first `rounds` rounds: one in each, and a batch in every
eighth. -/
theorem sum_rounds (batch rounds : Nat) :
    ((List.range rounds).map fun i => 1 + if i % 8 = 0 then batch else 0).sum =
      rounds + batch * ((rounds + 7) / 8) := by
  induction rounds with
  | zero => simp
  | succ rounds ih =>
    rw [List.range_succ, List.map_append, List.sum_append, ih]
    have hceil : (rounds + 1 + 7) / 8 = (rounds + 7) / 8 + if rounds % 8 = 0 then 1 else 0 := by
      split <;> omega
    rw [hceil, Nat.mul_add]
    simp only [List.map_cons, List.map_nil, List.sum_cons, List.sum_nil]
    split <;> omega

/-! ## A duty under way -/

/-- A thread is about the duty `d`, after which it has what `s` says. -/
inductive Errand (batch : Nat) (v : Int) (m : Memory Int) (rs : Registers) (d : Duty Int) :
    Stage → Execution Int → Prop where
  | one {c : Call} (made : Nat) (hr : rs = []) (hc : c.want? = some .one) :
      Errand batch v m rs d .slot
        (.calling ⟨0⟩ ⟨c, made⟩ (.keep "slot" false (some (.all v))))
  | many {c : Call} (made : Nat) (hr : rs = []) (hc : c.want? = some (.many batch)) :
      Errand batch v m rs d .stack (.calling ⟨0⟩ ⟨c, made⟩ (.keep "stack" false none))
  | giving {c : Call} (made n : Nat) (hr : rs = []) (hc : c.Returns n) :
      Errand batch v m rs d .idle (.calling ⟨0⟩ ⟨c, made⟩ (.answer (.ok .done)))
  | answered {s : Stage} {answer : Except Failure (Reply Int)} (hh : s.Holds batch v m rs)
      (hj : Thread.judge d answer = none) : Errand batch v m rs d s (.finished answer)

/-- How a duty goes on: from the arena `a` to what `y` says, with no slots of others changed, and
`acquired` and `released` slots counted or still to be. -/
structure Goes (batch : Nat) (v : Int) (rest : List Client) (d : Duty Int) (s : Stage)
    (a : Arena Int) (acquired released : Nat) (y : Session Int × Execution Int) : Prop where
  errand : Errand batch v y.1.arena.memory y.1.registers d s y.2
  undisturbed : Undisturbed rest a.memory y.1.arena.memory
  size : y.1.arena.pools.size = a.pools.size
  pool : ∀ p, a.pool? ⟨0⟩ = some p → ∃ p', y.1.arena.pool? ⟨0⟩ = some p' ∧ p.SameSetup p' ∧
    p'.counters.acquisitions + y.2.due Call.toAcquire = p.counters.acquisitions + acquired ∧
    p'.counters.releases + y.2.due Call.toRelease = p.counters.releases + released

section

variable {batch : Nat} {v : Int} {rest : List Client} {d : Duty Int} {s s₀ : Stage}
  {item : ItemType Int} {a : Arena Int} {rs rs' : Registers} {p : Pool Int} {e : Execution Int}

theorem goes_still {acquired released : Nat} (he : Errand batch v a.memory rs' d s e)
    (ha : e.due Call.toAcquire = acquired) (hr : e.due Call.toRelease = released) :
    Goes batch v rest d s a acquired released (⟨item, a, rs'⟩, e) := by
  subst ha hr
  exact ⟨he, fun _ _ _ _ _ _ => rfl, rfl, fun p hp => ⟨p, hp, .refl p, rfl, rfl⟩⟩

theorem start_acquire (hp : a.pool? ⟨0⟩ = some p) (hitem : item.buffered = false) :
    Session.start ⟨item, a, rs⟩ (.acquire 0 false (some (.all v)) "slot") =
      (⟨item, a, rs⟩, .call ⟨0⟩ .popOne (.keep "slot" false (some (.all v)))) := by
  have hpool : a.pools[0]? = some p := hp
  simp [Session.start, Session.onPool, Session.pool?, hpool, hitem]

theorem start_release (hp : a.pool? ⟨0⟩ = some p) (sl : Slot) :
    Session.start ⟨item, a, [("slot", .slot sl)]⟩ (.release 0 .slot "slot") =
      (⟨item, a, []⟩, .call ⟨0⟩ (.cleanOne sl) (.answer (.ok .done))) := by
  have hpool : a.pools[0]? = some p := hp
  simp [Session.start, Session.release, Session.taking, Session.find, Session.pool?, hpool,
    Registers.get?, Registers.remove, Session.returning]

theorem start_acquireStack (hp : a.pool? ⟨0⟩ = some p) :
    Session.start ⟨item, a, rs⟩ (.acquireStack 0 batch false "stack") =
      (⟨item, a, rs⟩, .call ⟨0⟩ (.popMany batch) (.keep "stack" false none)) := by
  have hpool : a.pools[0]? = some p := hp
  simp [Session.start, Session.onPool, Session.given, Session.pool?, hpool]

theorem start_releaseStack (hp : a.pool? ⟨0⟩ = some p) (st : Stack) :
    Session.start ⟨item, a, [("stack", .stack st)]⟩ (.release 0 .stack "stack") =
      (⟨item, a, []⟩, .call ⟨0⟩ (.cleanMany st) (.answer (.ok .done))) := by
  have hpool : a.pools[0]? = some p := hp
  simp [Session.start, Session.release, Session.taking, Session.find, Session.pool?, hpool,
    Registers.get?, Registers.remove, Session.returning]

theorem Leads.start (hd : Leads batch v s₀ d s) (hh : s₀.Holds batch v a.memory rs)
    (hhas : World.Has rest a rs.things none) (hp : a.pool? ⟨0⟩ = some p)
    (hitem : item.buffered = false) :
    Goes batch v rest d s a d.command.asked (d.command.given batch)
      (Session.start ⟨item, a, rs⟩ d.command) := by
  cases hd with
  | acquire =>
    rw [start_acquire hp hitem]
    exact goes_still (.one 0 hh rfl) rfl rfl
  | look =>
    obtain ⟨sl, rfl, hvalue⟩ := hh
    refine goes_still (.answered (s := .slot) ⟨sl, rfl, hvalue⟩ ?_) rfl rfl
    simp [Thread.judge, lookFor, Session.memory, hvalue]
  | release =>
    obtain ⟨sl, rfl, hvalue⟩ := hh
    rw [start_release hp]
    exact goes_still (.giving 0 3 rfl (.cleanOne sl)) rfl rfl
  | acquireStack =>
    rw [start_acquireStack hp]
    exact goes_still (.many 0 hh rfl) rfl rfl
  | write =>
    obtain ⟨st, rfl, hlength⟩ := hh
    obtain ⟨m, pools, journal⟩ := a
    have hspans : st.Spans m (st.slots m) :=
      hhas.sound (x := .stack st) List.mem_cons_self (.chain st) (by simp [Held.pieces])
    have hkeeps := Session.writeAlong_keeps hhas.laid (List.replicate st.length (.all v))
      (c := Cursor.ofStack st) hspans.head hspans.linked
    refine ⟨.answered (s := .stack) ⟨st, rfl, hlength⟩ rfl, hhas.undisturbed hkeeps ?_, rfl,
      fun p hp => ⟨p, hp, .refl p, rfl, rfl⟩⟩
    simp [Client.pieces, Client.running, Registers.things, Held.pieces]
  | count =>
    obtain ⟨st, rfl, hlength⟩ := hh
    refine goes_still (.answered (s := .stack) ⟨st, rfl, hlength⟩ ?_) rfl rfl
    simp [Thread.judge, countTo, hlength]
  | releaseStack =>
    obtain ⟨st, rfl, hlength⟩ := hh
    rw [start_releaseStack hp]
    exact goes_still (.giving 0 3 rfl (.cleanMany st)) rfl hlength

variable {c : Call} {made : Nat} {granted : Bool}

theorem goes_wanting {want : Want} {sequel : Sequel Int}
    (hhas : World.Has rest a rs.things (some (⟨0⟩, c))) (hsize : a.pools.size ≤ 1)
    (hp : a.pool? ⟨0⟩ = some p) (hc : c.outcome? = none) (hw : c.want? = some want)
    (hgranted : (c.reservation? p.strategy).isSome = true → granted = true)
    (hone : c.OneAddressable p) (hmany : c.ManyAddressable p)
    (hnext : ∀ m c', c'.want? = some want →
      Errand batch v m rs d s (.calling ⟨0⟩ ⟨c', made⟩ sequel)) :
    Goes batch v rest d s a c.toAcquire c.toRelease
      (Session.advance ⟨item, a, rs⟩ granted (.calling ⟨0⟩ ⟨c, made⟩ sequel)) := by
  obtain ⟨p', hp', hpools, hsame, hserves⟩ :=
    hhas.run_serves hsize hp hc hw hgranted hone hmany
  simp only [Session.advance, hc]
  refine ⟨hnext _ _ hserves.want, hhas.run_undisturbed granted, hpools, fun q hq => ?_⟩
  obtain rfl : p = q := Option.some.inj (hp.symm.trans hq)
  refine ⟨p', hp', hsame, hserves.acquired, ?_⟩
  simp only [Execution.due]
  rw [hserves.released, Call.toRelease_of_want hw, Call.toRelease_of_want hserves.want]

theorem goes_marked {sl : Slot} (made : Nat) (hr : rs = [])
    (hhas : World.Has rest a rs.things (some (⟨0⟩, .finished (.acquired (.one sl)))))
    (hp : a.pool? ⟨0⟩ = some p) (hwidth : p.strategy.shape.width = 1)
    (hdone : d.complaint .done = none) :
    Goes batch v rest d .slot a 0 0 (Session.advance ⟨item, a, rs⟩ granted
      (.calling ⟨0⟩ ⟨.finished (.acquired (.one sl)), made⟩
        (.keep "slot" false (some (.all v))))) := by
  subst hr
  have hclean := hhas.acquired_clean hp sl (by simp [Grant.pieces])
  obtain ⟨cell, hcell⟩ := exists_cell? hclean.lt_size
  have hvalue : ((Content.all v).write a.memory sl).value sl = #[v] := by
    rw [Content.value_write_self hhas.laid hcell, hclean.value, hwidth]
    rfl
  have hkeeps := Keeps.write hhas.laid sl (.all v)
  have hown : [sl] ⊆ slotsOf a.memory
      (Client.pieces ⟨[], some (⟨0⟩, .finished (.acquired (.one sl)))⟩) := by
    simp [Client.pieces, Client.running, Call.pieces, Grant.pieces]
  have hundisturbed := hhas.undisturbed hkeeps hown
  obtain ⟨m, pools, journal⟩ := a
  exact ⟨.answered (s := .slot) ⟨sl, rfl, hvalue⟩ (by simp [Thread.judge, hdone]), hundisturbed,
    rfl, fun q hq => ⟨q, hq, .refl q, rfl, rfl⟩⟩

theorem Errand.advance (he : Errand batch v a.memory rs d s e)
    (hhas : World.Has rest a rs.things e.call?) (hsize : a.pools.size ≤ 1)
    (hp : a.pool? ⟨0⟩ = some p) (hwidth : p.strategy.shape.width = 1)
    (hdone : d.complaint .done = none)
    (hserved : ∀ c, e.call? = some (⟨0⟩, c) →
      ((c.reservation? p.strategy).isSome = true → granted = true) ∧ c.OneAddressable p ∧
        c.ManyAddressable p) :
    ∀ item, Goes batch v rest d s a (e.due Call.toAcquire) (e.due Call.toRelease)
      (Session.advance ⟨item, a, rs⟩ granted e) := by
  intro item
  cases he with
  | answered hh hj => exact goes_still (.answered hh hj) rfl rfl
  | @one c made hr hw =>
    obtain ⟨hgranted, hone, hmany⟩ := hserved c rfl
    cases ho : c.outcome? with
    | none =>
      exact goes_wanting hhas hsize hp ho hw hgranted hone hmany fun m c' hw' => .one made hr hw'
    | some o =>
      obtain rfl := Session.eq_finished ho
      obtain ⟨sl, rfl⟩ := Call.acquired_one hw
      exact goes_marked made hr hhas hp hwidth hdone
  | @many c made hr hw =>
    obtain ⟨hgranted, hone, hmany⟩ := hserved c rfl
    cases ho : c.outcome? with
    | none =>
      exact goes_wanting hhas hsize hp ho hw hgranted hone hmany fun m c' hw' => .many made hr hw'
    | some o =>
      obtain rfl := Session.eq_finished ho
      obtain ⟨st, rfl, hlength⟩ := Call.acquired_many hw
      subst hr
      exact goes_still (.answered (s := .stack) ⟨st, rfl, hlength⟩ (by simp [Thread.judge, hdone]))
        rfl rfl
  | @giving c made n hr hn =>
    cases ho : c.outcome? with
    | none =>
      obtain ⟨p', hp', hpools, hsame, ⟨n', hn'⟩, hacquired, hreleased⟩ :=
        hhas.run_returns hsize hp ho hn granted
      simp only [Session.advance, ho]
      refine ⟨.giving made n' hr hn', hhas.run_undisturbed granted, hpools, fun q hq => ?_⟩
      obtain rfl : p = q := Option.some.inj (hp.symm.trans hq)
      refine ⟨p', hp', hsame, ?_, hreleased⟩
      simp only [Execution.due]
      rw [hacquired, hn.toAcquire_eq, hn'.toAcquire_eq]
    | some o =>
      obtain rfl := Session.eq_finished ho
      cases hn with
      | returned =>
        exact goes_still (.answered (s := .idle) hr (by simp [Thread.judge, hdone])) rfl rfl

end

/-! ## A thread -/

/-- Where a thread is in a round: between two duties, or about one. -/
inductive Course (batch : Nat) (m : Memory Int) (rs : Registers) (left : List (Duty Int)) :
    Option (Duty Int × Execution Int) → Prop where
  | between (v : Int) (s : Stage) (hh : s.Holds batch v m rs) (hl : Ahead batch v s left) :
      Course batch m rs left none
  | about (v : Int) (s₀ s : Stage) (d : Duty Int) (e : Execution Int) (hd : Leads batch v s₀ d s)
      (he : Errand batch v m rs d s e) (hl : Ahead batch v s left) :
      Course batch m rs left (some (d, e))

structure OnCourse (batch : Nat) (m : Memory Int) (t : Thread Int) : Prop where
  rounds : ∀ i, ∃ v, Ahead batch v .idle (t.work.duties i)
  content : t.complaint = none
  course : Course batch m t.registers t.left t.current

/-- One step of a thread on its course: no other thread is disturbed, and what is counted is no
longer left to do. -/
structure Steps (batch : Nat) (rest : List Client) (a : Arena Int) (t : Thread Int)
    (y : Arena Int × Thread Int) : Prop where
  onCourse : OnCourse batch y.1.memory y.2
  undisturbed : Undisturbed rest a.memory y.1.memory
  size : y.1.pools.size = a.pools.size
  pool : ∀ p, a.pool? ⟨0⟩ = some p → ∃ p', y.1.pool? ⟨0⟩ = some p' ∧ p.SameSetup p' ∧
    p'.counters.acquisitions + y.2.due Command.asked Call.toAcquire =
      p.counters.acquisitions + t.due Command.asked Call.toAcquire ∧
    p'.counters.releases + y.2.due (Command.given batch) Call.toRelease =
      p.counters.releases + t.due (Command.given batch) Call.toRelease

section

variable {batch : Nat} {rest : List Client} {item : ItemType Int} {a : Arena Int} {p : Pool Int}
  {t t' : Thread Int} {granted : Bool}

theorem Leads.complaint_done {v : Int} {s₀ s : Stage} {d : Duty Int} (h : Leads batch v s₀ d s) :
    d.complaint .done = none := by
  cases h <;> rfl

theorem steps_still (h : OnCourse batch a.memory t')
    (hdue : ∀ ofCommand ofCall, t'.due ofCommand ofCall = t.due ofCommand ofCall) :
    Steps batch rest a t (a, t') :=
  ⟨h, fun _ _ _ _ _ _ => rfl, rfl, fun p hp => ⟨p, hp, .refl p, by rw [hdue], by rw [hdue]⟩⟩

theorem steps_of_goes {v : Int} {s₀ s : Stage} {d : Duty Int} {acquired released : Nat}
    {y : Session Int × Execution Int} {left : List (Duty Int)} (hd : Leads batch v s₀ d s)
    (hl : Ahead batch v s left) (h : Goes batch v rest d s a acquired released y)
    (hrounds : ∀ i, ∃ v, Ahead batch v .idle (t.work.duties i))
    (hacquired : t.due Command.asked Call.toAcquire =
      acquired + Thread.later Command.asked t.work t.begun left)
    (hreleased : t.due (Command.given batch) Call.toRelease =
      released + Thread.later (Command.given batch) t.work t.begun left) :
    Steps batch rest a t
      (y.1.arena, ⟨t.work, y.1.registers, t.begun, left, some (d, y.2), none⟩) := by
  refine ⟨⟨hrounds, rfl, .about v s₀ s d y.2 hd h.errand hl⟩, h.undisturbed, h.size,
    fun p hp => ?_⟩
  obtain ⟨p', hp', hsame, hacquired', hreleased'⟩ := h.pool p hp
  refine ⟨p', hp', hsame, ?_, ?_⟩
  · rw [hacquired, Thread.due]
    dsimp only [Option.elim_some]
    omega
  · rw [hreleased, Thread.due]
    dsimp only [Option.elim_some]
    omega

theorem OnCourse.step (h : OnCourse batch a.memory t)
    (hhas : World.Has rest a t.registers.things t.call?) (hsize : a.pools.size ≤ 1)
    (hp : a.pool? ⟨0⟩ = some p) (hwidth : p.strategy.shape.width = 1)
    (hitem : item.buffered = false) (hserved : t.Served a granted) :
    Steps batch rest a t (t.step item granted a) := by
  cases hdone : t.isDone with
  | true =>
    unfold Thread.step
    rw [if_pos hdone]
    exact steps_still h fun _ _ => rfl
  | false =>
    obtain ⟨work, registers, begun, left, current, complaint⟩ := t
    obtain ⟨hrounds, hcontent, hcourse⟩ := h
    obtain rfl : complaint = none := hcontent
    unfold Thread.step
    rw [if_neg (by simp [hdone])]
    cases hcourse with
    | between v s hh hl =>
      cases left with
      | nil =>
        -- The next round begins.
        obtain rfl : s = .idle := hl
        have hmore : begun < work.rounds := by simpa [Thread.isDone] using hdone
        obtain ⟨w, hw⟩ := hrounds begun
        refine steps_still ⟨hrounds, rfl, .between w .idle hh hw⟩ fun ofCommand ofCall => ?_
        exact congrArg (0 + ·) (Thread.later_succ ofCommand hmore)
      | cons d left =>
        obtain ⟨s', hd, hl'⟩ := hl
        have hgoes := hd.start hh hhas hp hitem
        refine steps_of_goes hd hl' hgoes hrounds ?_ ?_
        · exact (Nat.zero_add _).trans (Thread.later_cons _ work begun d left)
        · exact (Nat.zero_add _).trans (Thread.later_cons _ work begun d left)
    | about v s₀ s d e hd he hl =>
      have hgoes := he.advance hhas hsize hp hwidth hd.complaint_done (hserved.of_call rfl hp)
      cases he with
      | answered hh hj =>
        exact steps_still ⟨hrounds, hj, .between v s hh hl⟩ fun _ _ => rfl
      | _ => exact steps_of_goes hd hl (hgoes item) hrounds rfl rfl

end

end Cli.Stress

end SlotPool
