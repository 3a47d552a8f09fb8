import SlotPool.Proofs.Literals
import Mathlib.Data.List.Nodup

/-!
# What a line does to the table

A line of a document gives a single one of its names a value, and does so by the value that the name
had: scalars are left as they are. So a text that follows scalars is read as it would be by itself,
if it gives none of their names another value.
-/

namespace SlotPool.Toml

namespace Entries

variable {entries entries' first : Entries} {key name : String}

def names (entries : Entries) : List String := entries.map Prod.fst

@[simp] theorem names_nil : names [] = [] := rfl

@[simp] theorem names_append : (first ++ entries).names = first.names ++ entries.names :=
  List.map_append

@[simp] theorem names_replace (v : Value) : (entries.replace key v).names = entries.names := by
  simp only [names, replace, List.map_map]
  refine List.map_congr_left fun e _ => ?_
  by_cases h : e.1 = key <;> simp [h]

theorem get?_eq_none : entries.get? key = none ↔ key ∉ entries.names := by
  rw [get?, List.lookup_eq_none_iff]
  simp only [names, List.mem_map, not_exists, not_and, bne_iff_ne, ne_eq]
  exact ⟨fun h e he heq => h e he heq.symm, fun h e he heq => h e he heq.symm⟩

theorem exists_get? (h : key ∈ entries.names) : ∃ v, entries.get? key = some v :=
  Option.ne_none_iff_exists'.1 fun hnone => get?_eq_none.1 hnone h

theorem mem_of_get? {v : Value} (h : entries.get? key = some v) : (key, v) ∈ entries := by
  obtain ⟨before, after, rfl, -⟩ := List.lookup_eq_some_iff.1 h
  simp

theorem get?_append_of_some {v : Value} (h : first.get? key = some v) :
    get? (first ++ entries) key = some v := by
  rw [get?, List.lookup_append, ← get?, h]
  rfl

theorem get?_append (h : key ∉ first.names) : get? (first ++ entries) key = entries.get? key := by
  rw [get?, List.lookup_append, ← get?, ← get?, get?_eq_none.2 h]
  rfl

theorem names_concat (v : Value) : (entries ++ [(key, v)]).names = entries.names ++ [key] :=
  names_append

theorem nodup_names_concat {v : Value} :
    (entries ++ [(key, v)]).names.Nodup ↔ entries.names.Nodup ∧ key ∉ entries.names := by
  rw [names_concat, List.nodup_append']
  simp

theorem add?_eq (h : entries.names.Nodup) (v : Value) : entries.add? key v =
    if (entries ++ [(key, v)]).names.Nodup then some (entries ++ [(key, v)]) else none := by
  rw [add?]
  cases hget : entries.get? key with
  | none => rw [if_pos (nodup_names_concat.2 ⟨h, get?_eq_none.1 hget⟩)]
  | some old =>
    have hmem : key ∈ entries.names := List.mem_map_of_mem (mem_of_get? hget)
    rw [if_neg fun hnodup => (nodup_names_concat.1 hnodup).2 hmem]

/-- Gives the name a value that depends on the one it has. -/
def amend (key : String) (change : Option Value → Option Value) (entries : Entries) :
    Option Entries :=
  (change (entries.get? key)).map fun v =>
    match entries.get? key with
    | none => entries ++ [(key, v)]
    | some _ => entries.replace key v

theorem names_amend {change : Option Value → Option Value}
    (h : entries.amend key change = some entries') :
    entries'.names = if key ∈ entries.names then entries.names else entries.names ++ [key] := by
  obtain ⟨v, -, rfl⟩ := Option.map_eq_some_iff.1 h
  split
  · rename_i hnone
    rw [if_neg (get?_eq_none.1 hnone), names_concat]
  · rename_i hsome
    have hmem : key ∈ entries.names := List.mem_map_of_mem (mem_of_get? hsome)
    rw [if_pos hmem, names_replace]

theorem mem_names_amend {change : Option Value → Option Value}
    (h : entries.amend key change = some entries') :
    name ∈ entries'.names ↔ name ∈ entries.names ∨ name = key := by
  rw [names_amend h]
  split
  · rename_i hmem
    exact ⟨.inl, fun hname => hname.elim id (· ▸ hmem)⟩
  · simp

theorem nodup_amend {change : Option Value → Option Value} (hnodup : entries.names.Nodup)
    (h : entries.amend key change = some entries') : entries'.names.Nodup := by
  rw [names_amend h]
  split
  · exact hnodup
  · rename_i hmem
    exact hnodup.append (List.nodup_singleton key) (by simpa using hmem)

/-! ## Scalars in front -/

def Scalars (entries : Entries) : Prop := ∀ e ∈ entries, e.2.isScalar = true

def Apart (first entries : Entries) : Prop := ∀ name ∈ first.names, name ∉ entries.names

instance (first entries : Entries) : Decidable (Apart first entries) :=
  inferInstanceAs (Decidable (∀ name ∈ first.names, name ∉ entries.names))

theorem replace_of_not_mem (h : key ∉ entries.names) (v : Value) :
    entries.replace key v = entries := by
  have hkeep : ∀ e ∈ entries, (if e.1 = key then (e.1, v) else (e.1, e.2)) = e := by
    intro e he
    have hne : e.1 ≠ key := by
      rintro rfl
      exact h (List.mem_map_of_mem he)
    rw [if_neg hne]
  rw [replace, List.map_congr_left hkeep, List.map_id']

theorem replace_append (h : key ∉ first.names) (v : Value) :
    replace (first ++ entries) key v = first ++ entries.replace key v := by
  rw [replace, List.map_append, ← replace, ← replace, replace_of_not_mem h]

theorem amend_append {change : Option Value → Option Value} (h : key ∉ first.names) :
    amend key change (first ++ entries) = (amend key change entries).map (first ++ ·) := by
  rw [amend, amend, get?_append h]
  cases change (entries.get? key) with
  | none => rfl
  | some v =>
    cases entries.get? key with
    | none => simp
    | some old => simp [replace_append h]

/-- The change gives one name a value, and no scalar another one. -/
def Amends (change : Entries → Option Entries) : Prop :=
  ∃ key amended, (∀ v : Value, v.isScalar = true → amended (some v) = none) ∧
    ∀ entries, change entries = amend key amended entries

variable {change : Entries → Option Entries}

theorem Amends.nodup (h : Amends change) (hnodup : entries.names.Nodup)
    (hchange : change entries = some entries') : entries'.names.Nodup := by
  obtain ⟨key, amended, -, heq⟩ := h
  rw [heq] at hchange
  exact nodup_amend hnodup hchange

theorem Amends.names_subset (h : Amends change) (hchange : change entries = some entries') :
    entries.names ⊆ entries'.names := by
  obtain ⟨key, amended, -, heq⟩ := h
  rw [heq] at hchange
  exact fun name hname => (mem_names_amend hchange).2 (.inl hname)

theorem Amends.append (h : Amends change) (hfirst : first.Scalars) (hapart : Apart first entries) :
    change (first ++ entries) = (change entries).bind fun next =>
      if Apart first next then some (first ++ next) else none := by
  obtain ⟨key, amended, hscalar, heq⟩ := h
  rw [heq, heq]
  by_cases hkey : key ∈ first.names
  · -- A scalar has the name, and takes no other value.
    obtain ⟨v, hv⟩ := exists_get? hkey
    have hnone : amended (some v) = none := hscalar v (hfirst _ (mem_of_get? hv))
    rw [amend, get?_append_of_some hv, hnone]
    cases hnext : amend key amended entries with
    | none => rfl
    | some next =>
      have hclash : ¬ Apart first next := fun hnext' =>
        hnext' key hkey ((mem_names_amend hnext).2 (.inr rfl))
      simp [hclash]
  · have hnext : ∀ next, amend key amended entries = some next → Apart first next := by
      intro next hnext name hname hmem
      rcases (mem_names_amend hnext).1 hmem with hold | rfl
      · exact hapart name hname hold
      · exact hkey hname
    rw [amend_append hkey]
    cases hamend : amend key amended entries with
    | none => rfl
    | some next => simp [hnext next hamend]

/-! ## Walking a path -/

/-- What becomes of a value with a path through it. -/
def walked (dotted : Bool) (change : Change) (path : List String) : Option Value → Option Value
  | some (.table form inner) =>
    if dotted && form = .explicit then none
    else (descend dotted change path form inner).map (.table form)
  | some (.tables members) =>
    members.getLast?.bind fun last =>
      (descend dotted change path .explicit last).map fun last =>
        .tables (members.dropLast ++ [last])
  | some _ => none
  | none =>
    let form := if dotted then .dotted else .implied
    (descend dotted change path form []).map (.table form)

/-- What becomes of a value under a header. -/
def opened : Option Value → Option Value
  | some (.table .implied inner) => some (.table .explicit inner)
  | some _ => none
  | none => some (.table .explicit [])

/-- What becomes of a value under a doubled header. -/
def joined : Option Value → Option Value
  | some (.tables members) => some (.tables (members ++ [[]]))
  | some _ => none
  | none => some (.tables [[]])

theorem amends_descend (dotted : Bool) (change : Change) (path : List String) (form : Form) :
    Amends (descend dotted change (key :: path) form) := by
  refine ⟨key, walked dotted change path, ?_, ?_⟩
  · intro v hv
    cases v <;> first | rfl | cases hv
  · intro entries
    rw [descend, amend]
    cases entries.get? key with
    | none =>
      dsimp only [walked]
      cases descend dotted change path (if dotted then .dotted else .implied) [] <;> rfl
    | some v =>
      cases v with
      | table form inner =>
        dsimp only [walked]
        split
        · rfl
        · cases descend dotted change path form inner <;> rfl
      | tables members =>
        dsimp only [walked]
        cases members.getLast? with
        | none => rfl
        | some last =>
          dsimp only [Option.bind_some]
          cases descend dotted change path .explicit last <;> rfl
      | string | integer | float | boolean | dateTime | array | inlineTable => rfl

theorem amends_of_end {dotted : Bool} {change : Change} (path : List String)
    (h : path = [] → Amends (change .explicit)) :
    Amends (descend dotted change path .explicit) := by
  cases path with
  | nil => exact h rfl
  | cons name path => exact amends_descend dotted change path .explicit

theorem amends_assign (path : List String) (v : Value) :
    Amends (assign path key v .explicit) := by
  refine amends_of_end path ?_
  rintro rfl
  refine ⟨key, fun old => if old.isSome then none else some v, fun _ _ => rfl, ?_⟩
  intro entries
  simp only [add?, amend]
  cases entries.get? key <;> rfl

theorem amends_openTable (path : List String) : Amends (openTable path key .explicit) := by
  refine amends_of_end path fun _ => ⟨key, opened, ?_, ?_⟩
  · intro v hv
    cases v <;> first | rfl | cases hv
  · intro entries
    dsimp only [amend]
    cases entries.get? key with
    | none => rfl
    | some v =>
      cases v with
      | table form inner => cases form <;> rfl
      | string | integer | float | boolean | dateTime | array | inlineTable | tables => rfl

theorem amends_openMember (path : List String) : Amends (openMember path key .explicit) := by
  refine amends_of_end path fun _ => ⟨key, joined, ?_, ?_⟩
  · intro v hv
    cases v <;> first | rfl | cases hv
  · intro entries
    dsimp only [amend]
    cases entries.get? key with
    | none => rfl
    | some v => cases v <;> rfl

theorem amends_under (header path : List String) (v : Value) :
    Amends (descend false (assign path key v) header .explicit) :=
  amends_of_end header fun _ => amends_assign path v

end Entries

/-! ## Lines -/

namespace Document

open Entries Lexeme

/-- What a line does, whatever the table holds: nothing good, or a change of one name at most, of
the header, and of what is left of the text. -/
def Acts (line : Entries → Option (Document × List Char)) : Prop :=
  (∀ entries, line entries = none) ∨ ∃ change header rest, (change = some ∨ Amends change) ∧
    ∀ entries, line entries = (change entries).map fun next => (⟨next, header⟩, rest)

theorem acts_none : Acts fun _ => none := .inl fun _ => rfl

theorem acts_of_amends {change : Entries → Option Entries} (h : Amends change)
    (header : List String) (rest : List Char) :
    Acts fun entries => do
      let next ← change entries
      return (⟨next, header⟩, rest) := by
  refine .inr ⟨change, header, rest, .inr h, fun entries => ?_⟩
  dsimp only
  cases change entries <;> rfl

theorem acts_assignment? (header : List String) (cs : List Char) :
    Acts fun entries => assignment? ⟨entries, header⟩ cs := by
  unfold assignment?
  cases key cs with
  | none => exact acts_none
  | some found =>
    obtain ⟨⟨path, name⟩, rest⟩ := found
    simp only [Option.bind_eq_bind, Option.bind_some]
    split
    · rename_i tail
      cases value (depthLimit - 1) (afterBlanks tail) with
      | none => exact acts_none
      | some found =>
        obtain ⟨v, rest⟩ := found
        simp only [Option.bind_some]
        cases afterLine? rest with
        | none => exact acts_none
        | some rest => exact acts_of_amends (amends_under header path v) header rest
    · exact acts_none

theorem acts_header? (header : List String) (cs : List Char) :
    Acts fun entries => header? ⟨entries, header⟩ cs := by
  unfold header?
  split
  · rename_i tail
    cases key tail with
    | none => exact acts_none
    | some found =>
      obtain ⟨⟨path, name⟩, rest⟩ := found
      simp only [Option.bind_eq_bind, Option.bind_some]
      split
      · rename_i tail
        cases afterLine? tail with
        | none => exact acts_none
        | some rest => exact acts_of_amends (amends_openMember path) _ rest
      · exact acts_none
  · cases key cs with
    | none => exact acts_none
    | some found =>
      obtain ⟨⟨path, name⟩, rest⟩ := found
      simp only [Option.bind_eq_bind, Option.bind_some]
      split
      · rename_i tail
        cases afterLine? tail with
        | none => exact acts_none
        | some rest => exact acts_of_amends (amends_openTable path) _ rest
      · exact acts_none

theorem acts_afterLine? (header : List String) (cs : List Char) :
    Acts fun entries => (afterLine? cs).map (⟨entries, header⟩, ·) := by
  cases afterLine? cs with
  | none => exact acts_none
  | some rest => exact .inr ⟨some, header, rest, .inl rfl, fun entries => rfl⟩

theorem line?_cases (header : List String) (cs : List Char) :
    (∀ entries, line? ⟨entries, header⟩ cs = none) ∨
    ∃ change header' rest, (change = some ∨ Amends change) ∧
      ∀ entries, line? ⟨entries, header⟩ cs =
        (change entries).map fun next => (⟨next, header'⟩, rest) := by
  suffices Acts fun entries => line? ⟨entries, header⟩ cs from this
  unfold line?
  split
  · exact acts_afterLine? header cs
  · exact acts_afterLine? header cs
  · exact acts_afterLine? header cs
  · exact acts_header? header _
  · exact acts_assignment? header _

variable {doc doc' : Document} {cs rest : List Char} {first : Entries}

/-- The document with these entries in front of its own. -/
def after (first : Entries) (doc : Document) : Document := ⟨first ++ doc.entries, doc.header⟩

theorem line?_after (hfirst : first.Scalars) (hapart : Apart first doc.entries) (cs : List Char) :
    line? (doc.after first) cs = (line? doc cs).bind fun (next, rest) =>
      if Apart first next.entries then some (next.after first, rest) else none := by
  obtain ⟨entries, header⟩ := doc
  rcases line?_cases header cs with hnone | ⟨change, header', rest, hchange, heq⟩
  · rw [after, hnone, hnone]
    rfl
  · rw [after, heq, heq]
    rcases hchange with rfl | hamends
    · simp [hapart, after]
    · rw [hamends.append hfirst hapart]
      cases change entries with
      | none => rfl
      | some next =>
        simp only [Option.bind_some, Option.map_some]
        split <;> rfl

theorem names_of_line? (h : line? doc cs = some (doc', rest)) :
    doc.entries.names ⊆ doc'.entries.names ∧
      (doc.entries.names.Nodup → doc'.entries.names.Nodup) := by
  obtain ⟨entries, header⟩ := doc
  rcases line?_cases header cs with hnone | ⟨change, header', left, hchange, heq⟩
  · rw [hnone] at h
    cases h
  · rw [heq] at h
    obtain ⟨next, hnext, hpair⟩ := Option.map_eq_some_iff.1 h
    cases hpair
    rcases hchange with rfl | hamends
    · cases hnext
      exact ⟨fun _ => id, id⟩
    · exact ⟨hamends.names_subset hnext, fun hnodup => hamends.nodup hnodup hnext⟩

theorem names_of_lines? {fuel : Nat} (h : lines? fuel doc cs = some doc') :
    doc.entries.names ⊆ doc'.entries.names ∧
      (doc.entries.names.Nodup → doc'.entries.names.Nodup) := by
  induction fuel generalizing doc cs with
  | zero => cases h
  | succ fuel ih =>
    rw [lines?_succ] at h
    split at h
    · cases h
      exact ⟨fun _ => id, id⟩
    · obtain ⟨⟨next, rest⟩, hline, hrest⟩ := Option.bind_eq_some_iff.1 h
      obtain ⟨hsubset, hnodup⟩ := names_of_line? hline
      obtain ⟨hsubset', hnodup'⟩ := ih hrest
      exact ⟨fun name hname => hsubset' (hsubset hname), hnodup' ∘ hnodup⟩

/-- A text is read after scalars as it is read by itself, if it names nothing they name. -/
theorem lines?_after (hfirst : first.Scalars) (hapart : Apart first doc.entries) (fuel : Nat)
    (cs : List Char) :
    lines? fuel (doc.after first) cs = (lines? fuel doc cs).bind fun next =>
      if Apart first next.entries then some (next.after first) else none := by
  induction fuel generalizing doc cs with
  | zero => rfl
  | succ fuel ih =>
    rw [lines?_succ, lines?_succ, line?_after hfirst hapart]
    split
    · simp [hapart]
    · cases hline : line? doc cs with
      | none => rfl
      | some found =>
        obtain ⟨next, rest⟩ := found
        simp only [Option.bind_some]
        split
        · rename_i hnext
          exact ih hnext rest
        · rename_i hnext
          -- A name that comes twice after this line still does at the end.
          cases hlines : lines? fuel next rest with
          | none => rfl
          | some last =>
            have hlast : ¬ Apart first last.entries := fun hlast =>
              hnext fun name hname hmem => hlast name hname ((names_of_lines? hlines).1 hmem)
            simp [hlast]

theorem readOn_after (hfirst : first.Scalars) (hapart : Apart first doc.entries)
    (cs : List Char) : readOn (doc.after first) cs = (readOn doc cs).bind fun next =>
      if Apart first next.entries then some (next.after first) else none :=
  lines?_after hfirst hapart _ cs

end Document

end SlotPool.Toml
