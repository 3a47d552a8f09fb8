import SlotPool.Config.Toml
import SlotPool.Proofs.Lines

/-!
# Configurations are read as they were written

A configuration is written if its numbers fit the integers of a document. What is read from the
text are its fields again, all of them, and they are judged by the rules that all sizes are judged
by. Whatever the text, no other sizes are read.
-/

namespace SlotPool.Config

open Toml

theorem maxInteger_lt : maxInteger < Number.integerLimit := by decide

def entries (c : Config) : Entries :=
  [("block_size", .integer c.blockSize)] ++
  (c.bufferSize.map fun n => ("buffer_size", Value.integer n)).toList ++
  [("backoff_micros", .integer c.backoffMicros), ("growth_policy", .string c.growthPolicy.name)]

theorem ofEntries?_entries (c : Config) : ofEntries? c.entries = some c := by
  obtain ⟨blockSize, bufferSize, backoffMicros, growthPolicy⟩ := c
  cases bufferSize <;>
    simp [entries, ofEntries?, field?, Entries.get?, List.lookup_cons, size?, policy?,
      GrowthPolicy.ofName?_name]

theorem keys_entries_nodup (c : Config) : (c.entries.map Prod.fst).Nodup := by
  obtain ⟨blockSize, bufferSize, backoffMicros, growthPolicy⟩ := c
  cases bufferSize <;> simp [entries]

/-! ## Writing -/

theorem writeInteger_eq_ok {n : Nat} {t : String} :
    writeInteger n = .ok t ↔ n ≤ maxInteger ∧ toString n = t := by
  unfold writeInteger
  split <;> simp [*]

/-- The value could be written, and this is the line. -/
def Writes (assignment : String × Except PoolError String) (line : String × String) : Prop :=
  assignment.1 = line.1 ∧ assignment.2 = .ok line.2

theorem mapM_eq_ok {assignments : List (String × Except PoolError String)}
    {lines : List (String × String)} :
    assignments.mapM (fun (key, v) => v.map (key, ·)) = .ok lines ↔
      List.Forall₂ Writes assignments lines := by
  induction assignments generalizing lines with
  | nil => simp [pure, Except.pure, eq_comm]
  | cons a rest ih =>
    obtain ⟨key, v⟩ := a
    rw [List.mapM_cons, List.forall₂_cons_left_iff]
    cases v with
    | error e => simp [Writes, Except.map, bind, Except.bind]
    | ok v =>
      cases hrest : rest.mapM fun (key, v) => v.map (key, ·) with
      | error e =>
        simp only [hrest, reduceCtorEq, false_iff] at ih
        simp [Except.map, bind, Except.bind, ih]
      | ok written =>
        simp only [hrest, Except.ok.injEq] at ih
        simp [Writes, Except.map, bind, Except.bind, pure, Except.pure, ← ih, eq_comm]

theorem toToml_eq_ok {c : Config} {t : String} : c.toToml = .ok t ↔
    ∃ lines, List.Forall₂ Writes c.assignments lines ∧
      String.join (lines.map writtenLine) = t := by
  unfold toToml
  cases h : c.assignments.mapM fun (key, v) => v.map (key, ·) with
  | error e => simp [← mapM_eq_ok, h, bind, Except.bind]
  | ok lines =>
    simp only [← mapM_eq_ok, h, bind, Except.bind, pure, Except.pure, Except.ok.injEq,
      exists_eq_left']
    rfl

theorem exists_writes {c : Config} : (∃ lines, List.Forall₂ Writes c.assignments lines) ↔
    c.blockSize ≤ maxInteger ∧ (∀ n, c.bufferSize = some n → n ≤ maxInteger) ∧
      c.backoffMicros ≤ maxInteger := by
  obtain ⟨blockSize, bufferSize, backoffMicros, growthPolicy⟩ := c
  cases bufferSize <;>
    simp [assignments, List.forall₂_cons_left_iff, Writes, writeInteger_eq_ok]

/-! ## Reading -/

theorem Writes.assigns_integer {key : String} {n : Nat} {line : String × String}
    (h : Writes (key, writeInteger n) line) (hkey : Lexeme.IsBare key.toList) :
    Assigns line (key, .integer n) := by
  obtain ⟨rfl, hwritten⟩ := h
  obtain ⟨hn, htext⟩ := writeInteger_eq_ok.1 hwritten
  exact ⟨rfl, hkey, htext ▸ spells_number (Nat.lt_of_le_of_lt hn maxInteger_lt)⟩

theorem Writes.assigns_policy {policy : GrowthPolicy} {line : String × String}
    (h : Writes ("growth_policy", .ok ("\"" ++ policy.name ++ "\"")) line) :
    Assigns line ("growth_policy", .string policy.name) := by
  obtain ⟨key, text⟩ := line
  obtain ⟨rfl, htext⟩ := h
  obtain rfl := Except.ok.inj htext
  refine ⟨rfl, (by decide : Lexeme.IsBare "growth_policy".toList), spells_string ?_ ?_⟩
  · cases policy <;> decide
  · cases policy <;> simp [GrowthPolicy.name, Lexeme.isPlain]

theorem assigns_of_writes {c : Config} {lines : List (String × String)}
    (h : List.Forall₂ Writes c.assignments lines) : List.Forall₂ Assigns lines c.entries := by
  obtain ⟨blockSize, bufferSize, backoffMicros, growthPolicy⟩ := c
  cases bufferSize with
  | none =>
    obtain _ | ⟨hblock, _ | ⟨hbackoff, _ | ⟨hpolicy, _ | _⟩⟩⟩ := h
    exact .cons (hblock.assigns_integer (by decide)) (.cons (hbackoff.assigns_integer (by decide))
      (.cons hpolicy.assigns_policy .nil))
  | some n =>
    obtain _ | ⟨hblock, _ | ⟨hbuffer, _ | ⟨hbackoff, _ | ⟨hpolicy, _ | _⟩⟩⟩⟩ := h
    exact .cons (hblock.assigns_integer (by decide)) (.cons (hbuffer.assigns_integer (by decide))
      (.cons (hbackoff.assigns_integer (by decide)) (.cons hpolicy.assigns_policy .nil)))

theorem fault?_eq_none {c : Config} : c.fault? = none ↔
    0 < c.blockSize ∧ ∀ n, c.bufferSize = some n → 0 < n ∧ n * c.blockSize < Word.limit := by
  unfold fault?
  split
  · simp_all
  · cases c.bufferSize with
    | none =>
      simp
      omega
    | some n =>
      simp only [Option.some.injEq, forall_eq']
      split
      · simp_all
      · split
        · rename_i hm
          rw [Word.mul?_eq_none] at hm
          simp
          omega
        · rename_i hm
          rw [Word.mul?_eq_some] at hm
          simp [hm]
          omega

theorem validate_eq_ok {c : Config} : c.validate = .ok () ↔ c.fault? = none := by
  unfold validate
  split
  · simp_all
  · simp_all

theorem ofToml_eq_ok {t : String} {c : Config} (h : ofToml t = .ok c) : c.validate = .ok () := by
  unfold ofToml at h
  split at h
  · simp at h
  · rename_i c' _
    cases hv : c'.validate with
    | error e => simp [hv, bind, Except.bind] at h
    | ok u =>
      simp only [hv, bind, Except.bind, pure, Except.pure, Except.ok.injEq] at h
      rw [← h, hv]

/-- What can be written is read as it was, or refused for its sizes. -/
theorem ofToml_toToml (c : Config) :
    ((∃ t, c.toToml = .ok t) ↔ c.blockSize ≤ 2 ^ 63 - 1 ∧
      (∀ n, c.bufferSize = some n → n ≤ 2 ^ 63 - 1) ∧ c.backoffMicros ≤ 2 ^ 63 - 1) ∧
    (∀ t, c.toToml = .ok t → ofToml t = c.validate.map fun _ => c) ∧
    ∀ t c', ofToml t = .ok c' → 0 < c'.blockSize ∧
      ∀ n, c'.bufferSize = some n → 0 < n ∧ n * c'.blockSize < 2 ^ 64 := by
  refine ⟨?_, fun t ht => ?_, fun t c' h => ?_⟩
  · refine Iff.trans ?_ exists_writes
    constructor
    · rintro ⟨t, ht⟩
      obtain ⟨lines, hlines, -⟩ := toToml_eq_ok.1 ht
      exact ⟨lines, hlines⟩
    · rintro ⟨lines, hlines⟩
      exact ⟨_, toToml_eq_ok.2 ⟨lines, hlines, rfl⟩⟩
  · obtain ⟨lines, hlines, rfl⟩ := toToml_eq_ok.1 ht
    have hread := Document.read?_writtenLines (assigns_of_writes hlines) c.keys_entries_nodup
    rw [ofToml, hread, Option.bind_some, ofEntries?_entries]
    rfl
  · exact fault?_eq_none.1 (validate_eq_ok.1 (ofToml_eq_ok h))

/-- The largest block that a document can hold, of such buffers. -/
def widest (bufferSize : Nat) : Config :=
  { blockSize := maxInteger, bufferSize := some bufferSize, growthPolicy := .exactFit }

theorem ofToml_toToml_widest :
    (∃ t, (widest 2).toToml = .ok t ∧ ofToml t = .ok (widest 2)) ∧
    ∃ t, (widest 3).toToml = .ok t ∧
      ofToml t = .error (.invalidConfig (.tooManyElements 3 maxInteger)) := by
  obtain ⟨hwrites, hreads, -⟩ := ofToml_toToml (widest 2)
  obtain ⟨hwrites', hreads', -⟩ := ofToml_toToml (widest 3)
  obtain ⟨t, ht⟩ := hwrites.2 (by decide)
  obtain ⟨t', ht'⟩ := hwrites'.2 (by decide)
  refine ⟨⟨t, ht, ?_⟩, t', ht', ?_⟩
  · rw [hreads t ht]
    rfl
  · rw [hreads' t' ht']
    rfl

end SlotPool.Config
