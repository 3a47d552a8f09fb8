import SlotPool.Proofs.Ownership
import Mathlib.Logic.Relation

/-!
# A held value belongs to its holder

While a slot is in the hands of clients, its value is what they write to it. No element of it is
changed when the slot goes from one thing to another, by a call to any pool, or by what is written
to other slots, in whatever order the clients take their steps.
-/

namespace SlotPool

open Memory

variable {ε : Type} {s : Slot}

/-! ## Writing to a slot -/

namespace Content

/-- What becomes of a value when something is written to it. -/
def onto (content : Content ε) (v : Array ε) : Array ε :=
  match content with
  | all e => Array.replicate v.size e
  | first es => (es.take v.size ++ v.toList.drop es.length).toArray

@[simp]
theorem size_onto (content : Content ε) (v : Array ε) : (content.onto v).size = v.size := by
  cases content with
  | all e => simp [onto]
  | first es =>
    simp [onto]
    omega

@[simp]
theorem size_foldl_onto (contents : List (Content ε)) (v : Array ε) :
    (contents.foldl (fun v content => content.onto v) v).size = v.size := by
  induction contents generalizing v with
  | nil => rfl
  | cons content contents ih => simp [ih]

theorem extract_writeFrom (a : Array ε) (start length : Nat) (es : List ε)
    (h : start + length ≤ a.size) :
    (writeFrom a start (es.take length)).extract start (start + length) =
      (es.take length ++ (a.extract start (start + length)).toList.drop es.length).toArray := by
  apply Array.ext_getElem?
  intro i
  simp only [Array.getElem?_extract, size_writeFrom, List.getElem?_toArray]
  by_cases hi : i < (es.take length).length
  · rw [List.getElem?_append_left hi]
    simp only [List.length_take] at hi
    rw [if_pos (by omega)]
    exact getElem?_writeFrom _ _ _ _ (by simp; omega) (by simp; omega)
  · rw [List.getElem?_append_right (by omega), List.getElem?_drop]
    simp only [List.length_take] at hi ⊢
    rw [Array.getElem?_toList, Array.getElem?_extract]
    by_cases hlt : i < length
    · rw [if_pos (by omega), if_pos (by omega), getElem?_writeFrom_of_le _ _ _ _ (by simp; omega)]
      congr 1
      omega
    · rw [if_neg (by omega), if_neg (by omega)]

theorem value_write_self {m : Memory ε} (hl : m.Laid) {c : Cell} (hc : m.cell? s = some c)
    (content : Content ε) : (content.write m s).value s = content.onto (m.value s) := by
  obtain ⟨a, ha, hle⟩ := hl.within s c hc
  have hsize : (m.value s).size = c.run.length := by
    rw [value_of_cell? hc, elements_of_array ha]
    simp
    omega
  cases content with
  | all e =>
    rw [onto, hsize]
    exact value_fill_self hl hc e
  | first es =>
    have hb : (m.overwrite s es).arrays[c.run.array]? =
        some (writeFrom a c.run.start (es.take c.run.length)) := by
      simp [overwrite, modifyRun, hc, Array.getElem?_modify, ha]
    have hc' : (m.overwrite s es).cell? s = some c := by rw [overwrite, cell?_modifyRun, hc]
    rw [onto, hsize, write, value_of_cell? hc', elements_of_array hb, value_of_cell? hc,
      elements_of_array ha]
    exact extract_writeFrom a _ _ es hle

end Content

/-! ## One step -/

namespace World

/-- A client that holds the slot writes to it. -/
inductive Writes (s : Slot) (content : Content ε) : World ε → World ε → Prop where
  | write (a : Arena ε) (clients rest : List Client) (held kept : List Held) (h : Held)
      (losses : Losses) (hc : clients.Perm (⟨held, none⟩ :: rest)) (hh : held.Perm (h :: kept))
      (hs : s ∈ h.slots a.memory) :
      Writes s content ⟨a, clients, losses⟩
        ⟨{ a with memory := content.write a.memory s }, ⟨h :: kept, none⟩ :: rest, losses⟩

theorem Writes.step {w w' : World ε} {content : Content ε} (h : w.Writes s content w') :
    w.Step w' := by
  obtain ⟨a, clients, rest, held, kept, h, losses, hc, hh, hs⟩ := h
  have hstep := Step.client a _ clients rest _ _ losses _ hc
    (.move a held [h] [h] kept _ hh (.write a.memory h s content hs))
  simpa using hstep

theorem lt_size_of_held {w : World ε} (hr : w.Reachable) (hs : s ∈ w.heldSlots) :
    s.index < w.memory.size := by
  rw [← mem_slots, ← (places_perm_slots hr).mem_iff]
  simp [places, hs]

theorem not_running_of_held {w : World ε} (hr : w.Reachable) (hs : s ∈ w.heldSlots) :
    s ∉ w.runningSlots := by
  intro hrunning
  have hcount := List.nodup_iff_count_le_one.1 (places_nodup hr) s
  rw [← List.count_pos_iff] at hs hrunning
  simp only [places, List.count_append] at hcount
  omega

theorem mem_heldSlots {a : Arena ε} {clients rest : List Client} {k : Client} {losses : Losses}
    {h : Held} (hc : clients.Perm (k :: rest)) (hh : h ∈ k.held) (hs : s ∈ h.slots a.memory) :
    s ∈ heldSlots ⟨a, clients, losses⟩ :=
  List.mem_flatMap.2 ⟨k, hc.mem_iff.2 List.mem_cons_self, List.mem_flatMap.2 ⟨h, hh, hs⟩⟩

theorem Writes.held {w w' : World ε} {content : Content ε} (h : w.Writes s content w') :
    s ∈ w.heldSlots ∧ s ∈ w'.heldSlots := by
  obtain ⟨a, clients, rest, held, kept, h, losses, hc, hh, hs⟩ := h
  have hsame : h.slots (content.write a.memory s) = h.slots a.memory :=
    slotsOf_congr fun p _ => p.slots_of_cells (cells_write a.memory s content)
  exact ⟨mem_heldSlots hc (hh.mem_iff.2 List.mem_cons_self) hs,
    mem_heldSlots (List.Perm.refl _) List.mem_cons_self (hsame ▸ hs)⟩

theorem Writes.idle {w w' : World ε} {content : Content ε} (h : w.Writes s content w') :
    ∀ k ∈ w'.clients.head?, k.call = none := by
  obtain ⟨a, clients, rest, held, kept, h, losses, hc, hh, hs⟩ := h
  simp

theorem Writes.value {w w' : World ε} {content : Content ε} (hr : w.Reachable)
    (h : w.Writes s content w') : w'.memory.value s = content.onto (w.memory.value s) := by
  obtain ⟨c, hc⟩ := exists_cell? (lt_size_of_held hr h.held.1)
  have hl := (tended_of_reachable hr).arena.laid
  obtain ⟨a, clients, rest, held, kept, h, losses, -, -, -⟩ := h
  exact Content.value_write_self hl hc content

/-- Only a holder's own write changes the value of a slot that is held. -/
theorem writes_of_step {w w' : World ε} (hr : w.Reachable) (h : w.Step w')
    (hs : s ∈ w.heldSlots) (hne : w'.memory.value s ≠ w.memory.value s) :
    ∃ content, w.Writes s content w' := by
  have ht := tended_of_reachable hr
  have hlt := lt_size_of_held hr hs
  cases h with
  | client a a' clients rest k k' losses new hc hk =>
    have hmem : k ∈ clients := hc.mem_iff.2 List.mem_cons_self
    cases hk with
    | move held before after others m hh hm =>
      -- A client that moves things about writes to one slot that it holds, or only to links.
      rcases moves_memory hm with hu | ⟨h, t, content, rfl, rfl, ht', rfl⟩
      · exact absurd (value_of_unlinked hu s) hne
      · by_cases he : t = s
        · subst he
          have hwrite : Writes t content ⟨a, clients, losses⟩ _ :=
            .write a clients rest held others h losses hc hh ht'
          exact ⟨content, by simpa using hwrite⟩
        · exact absurd (value_write_of_ne ht.arena.laid he content) hne
    | run a' held id granted c c' hstop hr' =>
      have hapart : s ∉ c.slots a.memory := fun hmem' =>
        not_running_of_held hr hs (List.mem_flatMap.2 ⟨_, hmem, hmem'⟩)
      obtain ⟨p, hp⟩ := (whole_of_reachable hr).known _ hmem |>.call id c rfl
      obtain ⟨p', e, hstep, -⟩ := Arena.step_eq hp hr'
      exact absurd ((Call.step_keeps hstep ht.arena.laid).value s hlt hapart) hne
    | _ => exact absurd rfl hne
  | _ => exact absurd rfl hne

/-! ## Runs -/

/-- A run through which the slot is in the hands of clients, and what they write to it. -/
inductive HeldThrough (s : Slot) (w : World ε) : List (Content ε) → World ε → Prop where
  | start (hs : s ∈ w.heldSlots) : HeldThrough s w [] w
  | write {contents : List (Content ε)} {w' w'' : World ε} (content : Content ε)
      (hrun : HeldThrough s w contents w') (hw : w'.Writes s content w'') :
      HeldThrough s w (contents ++ [content]) w''
  | other {contents : List (Content ε)} {w' w'' : World ε} (hrun : HeldThrough s w contents w')
      (hstep : w'.Step w'') (hw : ∀ content, ¬ w'.Writes s content w'')
      (hs : s ∈ w''.heldSlots) : HeldThrough s w contents w''

theorem HeldThrough.held {w w' : World ε} {contents : List (Content ε)}
    (h : w.HeldThrough s contents w') : s ∈ w'.heldSlots := by
  cases h with
  | start hs => exact hs
  | write content hrun hw => exact hw.held.2
  | other hrun hstep hw hs => exact hs

theorem HeldThrough.reachable {w w' : World ε} {contents : List (Content ε)} (hr : w.Reachable)
    (h : w.HeldThrough s contents w') : w'.Reachable := by
  induction h with
  | start hs => exact hr
  | write content hrun hw ih => exact ih.step hw.step
  | other hrun hstep hw hs ih => exact ih.step hstep

theorem exists_heldThrough {w w' : World ε} (hs : s ∈ w.heldSlots)
    (h : Relation.ReflTransGen (fun w₁ w₂ => w₁.Step w₂ ∧ s ∈ w₂.heldSlots) w w') :
    ∃ contents, w.HeldThrough s contents w' := by
  induction h with
  | refl => exact ⟨[], .start hs⟩
  | @tail w₁ w₂ _ hstep ih =>
    obtain ⟨contents, hrun⟩ := ih
    by_cases hw : ∃ content, w₁.Writes s content w₂
    · obtain ⟨content, hw⟩ := hw
      exact ⟨contents ++ [content], .write content hrun hw⟩
    · exact ⟨contents, .other hrun hstep.1 (not_exists.1 hw) hstep.2⟩

theorem HeldThrough.value_eq {w w' : World ε} {contents : List (Content ε)} (hr : w.Reachable)
    (h : w.HeldThrough s contents w') :
    w'.memory.value s = contents.foldl (fun v content => content.onto v) (w.memory.value s) := by
  induction h with
  | start hs => rfl
  | write content hrun hw ih =>
    rw [List.foldl_append, ← ih]
    exact hw.value (hrun.reachable hr)
  | @other contents w₁ w₂ hrun hstep hw hs ih =>
    rw [← ih]
    by_contra hne
    obtain ⟨content, hw'⟩ := writes_of_step (hrun.reachable hr) hstep hrun.held hne
    exact hw content hw'

/-- A slot that is held is in no other place, and a step that changes its value is a write of its
holder. A run through which it is held is a run of writes to it among other steps, and its value is
then what was written to it, so that an element that its holder put in all its places last is in
all of them. -/
theorem held_value_written {w : World ε} (h : w.Reachable) (hs : s ∈ w.heldSlots) :
    w.places.count s = 1 ∧
    (∀ w', w.Step w' → w'.memory.value s ≠ w.memory.value s →
      ∃ content, w.Writes s content w') ∧
    (∀ w', Relation.ReflTransGen (fun w₁ w₂ => w₁.Step w₂ ∧ s ∈ w₂.heldSlots) w w' →
      ∃ contents, w.HeldThrough s contents w') ∧
    (∀ contents w', w.HeldThrough s contents w' →
      w'.memory.value s = contents.foldl (fun v content => content.onto v) (w.memory.value s)) ∧
    ∀ contents v w', w.HeldThrough s (contents ++ [.all v]) w' →
      w'.memory.value s = Array.replicate (w.memory.value s).size v := by
  refine ⟨?_, fun w' hstep hne => writes_of_step h hstep hs hne,
    fun w' hrun => exists_heldThrough hs hrun, fun contents w' hrun => ?_,
    fun contents v w' hrun => ?_⟩
  · apply List.count_eq_one_of_mem (places_nodup h)
    simp [places, hs]
  · exact hrun.value_eq h
  · rw [hrun.value_eq h, List.foldl_append, List.foldl_cons, List.foldl_nil]
    exact congrArg (Array.replicate · v) (Content.size_foldl_onto contents _)

/-! ## A slot that is written to while another client makes the pool grow -/

theorem HeldThrough.proceed {w : World ε} {contents : List (Content ε)} {a : Arena ε}
    {held : List Held} {id : PoolId} {c : Call} {rest : List Client} {k : Client}
    {losses : Losses} (h : w.HeldThrough s contents ⟨a, ⟨held, some (id, c)⟩ :: rest, losses⟩)
    (hk : k ∈ rest) (hs : .slot s ∈ k.held) (allocator : Allocator) (pause : Call → Bool)
    (fuel made : Nat) :
    ∃ losses', w.HeldThrough s contents
      ⟨(a.proceed allocator id pause fuel ⟨c, made⟩).1,
        ⟨held, some (id, (a.proceed allocator id pause fuel ⟨c, made⟩).2.call)⟩ :: rest,
        losses'⟩ := by
  apply Arena.proceed_keeps (P := fun a c => ∃ losses', w.HeldThrough s contents
    ⟨a, ⟨held, some (id, c)⟩ :: rest, losses'⟩)
  · rintro a c granted hc ⟨losses', hrun⟩
    refine ⟨_, .other hrun (.client _ _ _ _ _ _ _ _ (List.Perm.refl _)
      (.run a _ held id granted c _ hc rfl)) ?_ ?_⟩
    · exact fun content hw => by simpa using hw.idle _ rfl
    · refine List.mem_flatMap.2 ⟨k, List.mem_cons_of_mem _ hk, List.mem_flatMap.2 ⟨_, hs, ?_⟩⟩
      simp [Held.slots, Held.pieces]
  · exact ⟨losses, h⟩

def written : Arena Nat := { taken.1 with memory := (Content.all 9).write taken.1.memory ⟨1⟩ }

def grownAfter : Arena Nat × Arena.Progress :=
  written.proceed (fun _ _ => true) ⟨0⟩ (fun _ => false) 20 ⟨.popMany 3, 0⟩

theorem heldThrough_asking : resting.HeldThrough ⟨1⟩ [.all 9]
    ⟨written, [⟨[], some (⟨0⟩, .popMany 3)⟩, ⟨[.slot ⟨1⟩], none⟩], {}⟩ := by
  have hpool : (written.pool? ⟨0⟩).isSome = true := by decide +kernel
  obtain ⟨p, hp⟩ := Option.isSome_iff_exists.1 hpool
  have hwrite : resting.Writes ⟨1⟩ (.all 9) ⟨written, [⟨[.slot ⟨1⟩], none⟩, {}], {}⟩ :=
    .write taken.1 _ _ _ [] (.slot ⟨1⟩) {} (List.Perm.refl _) (List.Perm.refl _)
      (by simp [Held.slots, Held.pieces])
  refine .other (.write _ (.start hwrite.held.1) hwrite) (.client _ _ _ _ _ _ _ _
    (List.Perm.swap _ _ []) (.ask _ [] ⟨0⟩ p _ hp (.popMany 3))) ?_ ?_
  · exact fun content hw => by simpa using hw.idle _ rfl
  · simp [heldSlots, Held.slots, Held.pieces]

theorem held_value_written_grown :
    ∃ w, resting.Reachable ∧ (⟨1⟩ : Slot) ∈ resting.heldSlots ∧
      resting.HeldThrough ⟨1⟩ [.all 9] w ∧ w.arena = grownAfter.1 ∧ w.memory.size = 6 ∧
      w.memory.value ⟨1⟩ = #[9] := by
  have hstart : (⟨1⟩ : Slot) ∈ resting.heldSlots := by
    simp [resting, heldSlots, Held.slots, Held.pieces]
  have hsize : grownAfter.1.memory.size = 6 := by decide +kernel
  have hpristine : (resting.memory.value ⟨1⟩).size = 1 := by decide +kernel
  obtain ⟨losses, hrun⟩ := heldThrough_asking.proceed (k := ⟨[.slot ⟨1⟩], none⟩) (by simp)
    (by simp) (fun _ _ => true) (fun _ => false) 20 0
  -- From here on the states stay names, so that nothing is computed again.
  unfold grownAfter at hsize ⊢
  generalize written.proceed _ _ _ _ _ = grown at hsize hrun ⊢
  obtain ⟨-, -, -, -, hlast⟩ := held_value_written resting_reachable hstart
  have hvalue := hlast [] 9 _ hrun
  rw [hpristine] at hvalue
  exact ⟨_, resting_reachable, hstart, hrun, rfl, hsize, hvalue⟩

end World

end SlotPool
