import SlotPool.Toml.Document
import Mathlib.Algebra.Order.BigOperators.Group.List
import Mathlib.Data.List.Forall2
import Mathlib.Tactic.Common
import Mathlib.Tactic.IntervalCases

/-!
# Documents of plain lines

A plain line gives a bare key a value: the key, an equals sign between blanks, the text of the
value and a line end. A document of such lines stands for the table of their values.
-/

namespace SlotPool.Toml

open Lexeme

theorem ne_of_class {p : Char → Bool} {c d : Char} (hc : p c = true) (hd : p d = false) :
    c ≠ d := by
  rintro rfl
  simp [hc] at hd

/-! ## Numbers -/

namespace Number

theorem isWordChar_of_isDigit {c : Char} (h : c.isDigit = true) : isWordChar c = true := by
  simp [isWordChar, Char.isAlphanum, h]

theorem isDigit_toDigits (n : Nat) : ∀ c ∈ Nat.toDigits 10 n, c.isDigit = true := fun _ hc =>
  Nat.isDigit_of_mem_toDigits (by omega) (by omega) hc

theorem isRun_of_isDigit (cs : List Char) (hne : cs ≠ []) (h : ∀ c ∈ cs, c.isDigit = true) :
    isRun Char.isDigit cs = true := by
  fun_induction isRun Char.isDigit cs with
  | case1 => simp at hne
  | case2 c => exact h c (by simp)
  | case3 c rest ih => exact absurd (h '_' (by simp)) (by decide)
  | case4 c rest hone _ ih =>
    rw [h c (by simp), Bool.true_and]
    exact ih (by rintro rfl; exact hone rfl) fun d hd => h d (List.mem_cons_of_mem _ hd)

theorem toDigits_head_ne_zero (n : Nat) (h : 0 < n) : (Nat.toDigits 10 n).head? ≠ some '0' := by
  induction n using Nat.strong_induction_on with
  | _ n ih =>
    rw [Nat.toDigits_eq_if (by omega)]
    split
    · rename_i hn
      interval_cases n <;> decide
    · rename_i hn
      rw [List.head?_append_of_ne_nil _ Nat.toDigits_ne_nil]
      exact ih (n / 10) (by omega) (by omega)

theorem isDecimal_toDigits (n : Nat) : isDecimal (Nat.toDigits 10 n) = true := by
  rcases Nat.eq_zero_or_pos n with rfl | h
  · rfl
  · have hhead := toDigits_head_ne_zero n h
    have hrun := isRun_of_isDigit (Nat.toDigits 10 n) Nat.toDigits_ne_nil (isDigit_toDigits n)
    unfold isDecimal
    split
    · rfl
    · rename_i heq
      simp [heq] at hhead
    · exact hrun

theorem foldl_digits (cs : List Char) (h : ∀ c ∈ cs, c.isDigit = true) (n : Nat) :
    cs.foldl (fun n c => if c = '_' then n else n * 10 + digitValue c) n =
      Nat.ofDigitChars 10 cs n := by
  induction cs generalizing n with
  | nil => rfl
  | cons c cs ih =>
    have hc := h c (by simp)
    rw [List.foldl_cons, Nat.ofDigitChars_cons, if_neg (ne_of_class hc (by decide)),
      ih fun d hd => h d (List.mem_cons_of_mem _ hd)]
    simp [digitValue, hc, Nat.mul_comm]

theorem natOf_toDigits (n : Nat) : natOf 10 (Nat.toDigits 10 n) = n := by
  rw [natOf, foldl_digits _ (isDigit_toDigits n)]
  exact Nat.ofDigitChars_ten_toDigits

theorem mem_of_isDate {cs : List Char} (h : isDate cs = true) : '-' ∈ cs := by
  unfold isDate at h
  split at h
  · simp
  · simp at h

theorem mem_of_isTime {offset : Bool} {cs : List Char} (h : isTime offset cs = true) :
    ':' ∈ cs := by
  unfold isTime at h
  split at h
  · simp
  · simp at h

theorem isDateTime_eq_false {cs : List Char} (h : ∀ c ∈ cs, c.isDigit = true) :
    isDateTime cs = false := by
  have hdash : '-' ∉ cs := fun hm => absurd (h _ hm) (by decide)
  have hcolon : ':' ∉ cs := fun hm => absurd (h _ hm) (by decide)
  rw [Bool.eq_false_iff]
  intro hdate
  simp only [isDateTime, Bool.or_eq_true] at hdate
  rcases hdate with (hdate | htime) | hboth
  · exact hdash (mem_of_isDate hdate)
  · exact hcolon (mem_of_isTime htime)
  · split at hboth
    · simp only [Bool.and_eq_true] at hboth
      exact hdash (List.mem_of_mem_take (mem_of_isDate hboth.1.2))
    · simp at hboth

theorem unsigned_of_isDigit {cs : List Char} (h : ∀ c ∈ cs, c.isDigit = true) :
    unsigned cs = (false, cs) := by
  unfold unsigned
  split
  · exact absurd (h '-' (by simp)) (by decide)
  · exact absurd (h '+' (by simp)) (by decide)
  · rfl

theorem integer?_toDigits {n : Nat} (h : n < integerLimit) :
    integer? (Nat.toDigits 10 n) = some (n : Int) := by
  have hdigit := isDigit_toDigits n
  unfold integer?
  dsimp only
  split
  · rename_i heq
    exact absurd (hdigit 'x' (by simp [heq])) (by decide)
  · rename_i heq
    exact absurd (hdigit 'o' (by simp [heq])) (by decide)
  · rename_i heq
    exact absurd (hdigit 'b' (by simp [heq])) (by decide)
  · simp only [unsigned_of_isDigit hdigit, isDecimal_toDigits, natOf_toDigits, if_true,
      Bool.false_eq_true, if_false]
    rw [if_pos (by omega)]

theorem value?_toDigits {n : Nat} (h : n < integerLimit) :
    value? (Nat.toDigits 10 n) = some (.integer n) := by
  have hdigit := isDigit_toDigits n
  have htrue : Nat.toDigits 10 n ≠ ['t', 'r', 'u', 'e'] := fun he =>
    absurd (hdigit 't' (by simp [he])) (by decide)
  have hfalse : Nat.toDigits 10 n ≠ ['f', 'a', 'l', 's', 'e'] := fun he =>
    absurd (hdigit 'f' (by simp [he])) (by decide)
  simp [value?, htrue, hfalse, isDateTime_eq_false hdigit, integer?_toDigits h]

theorem word_of_value? {cs : List Char} {v : Value} (h : ∀ c ∈ cs, isWordChar c = true)
    (hv : value? cs = some v) (rest : List Char) :
    word (cs ++ '\n' :: rest) = some (v, '\n' :: rest) := by
  have hend : isWordChar '\n' = false := by decide
  simp [word, List.takeWhile_append_of_pos h, List.dropWhile_append_of_pos h, hend, hv]

end Number

/-! ## Strings -/

namespace Lexeme

theorem basic_plain (text : List Char) (h : ∀ c ∈ text, isPlain c = true ∧ c ≠ '"' ∧ c ≠ '\\')
    (rest : List Char) : basic (text ++ '"' :: rest) = some (text, rest) := by
  induction text with
  | nil => rfl
  | cons c text ih =>
    obtain ⟨hplain, hquote, hescape⟩ := h c (by simp)
    rw [List.cons_append, basic]
    · simp [hplain, hescape, ih fun d hd => h d (List.mem_cons_of_mem _ hd)]
    all_goals simp_all

theorem string_plain {text : List Char} (hne : text ≠ [])
    (h : ∀ c ∈ text, isPlain c = true ∧ c ≠ '"' ∧ c ≠ '\\') (rest : List Char) :
    string ('"' :: text ++ '"' :: rest) = some (text, rest) := by
  obtain ⟨c, text, rfl⟩ := List.exists_cons_of_ne_nil hne
  have hquote := (h c (by simp)).2.1
  rw [← basic_plain _ h rest]
  unfold string
  split <;> simp_all

/-! ## Keys -/

theorem afterBlanks_cons {c : Char} (h : isBlank c = false) (cs : List Char) :
    afterBlanks (c :: cs) = c :: cs := by
  simp [afterBlanks, h]

/-- A key that can be written without quotes. -/
def IsBare (cs : List Char) : Prop := cs ≠ [] ∧ ∀ c ∈ cs, isBareKey c = true

instance (cs : List Char) : Decidable (IsBare cs) :=
  decidable_of_iff ((!cs.isEmpty && cs.all isBareKey) = true) (by simp [IsBare])

theorem isBlank_of_isBareKey {c : Char} (h : isBareKey c = true) : isBlank c = false := by
  simp [isBlank, ne_of_class (d := ' ') h (by decide), ne_of_class (d := '\t') h (by decide)]

theorem keyPart_bare {cs rest : List Char} (h : IsBare cs)
    (hrest : ∀ c ∈ rest.head?, isBareKey c = false) :
    keyPart (cs ++ rest) = some (String.ofList cs, rest) := by
  obtain ⟨hne, hall⟩ := h
  have htake : rest.takeWhile isBareKey = [] := by
    cases rest with
    | nil => rfl
    | cons d rest => simp [hrest d rfl]
  have hdrop : rest.dropWhile isBareKey = rest := by
    cases rest with
    | nil => rfl
    | cons d rest => simp [hrest d rfl]
  obtain ⟨c, cs, rfl⟩ := List.exists_cons_of_ne_nil hne
  have hc := hall c (by simp)
  unfold keyPart
  split
  · rename_i heq
    exact absurd (List.cons.inj heq).1 (ne_of_class hc (by decide))
  · rename_i heq
    exact absurd (List.cons.inj heq).1 (ne_of_class hc (by decide))
  · simp only [List.takeWhile_append_of_pos hall, List.dropWhile_append_of_pos hall, htake, hdrop,
      List.append_nil]

theorem key_bare {cs blanks : List Char} (h : IsBare cs) (hblanks : ∀ c ∈ blanks, isBlank c = true)
    (rest : List Char) :
    key (cs ++ (blanks ++ '=' :: rest)) = some (([], String.ofList cs), '=' :: rest) := by
  have htail : ∀ fuel, keyTail (fuel + 1) (blanks ++ '=' :: rest) = some ([], '=' :: rest) := by
    intro fuel
    have hafter : afterBlanks (blanks ++ '=' :: rest) = '=' :: rest := by
      rw [afterBlanks, List.dropWhile_append_of_pos hblanks, ← afterBlanks,
        afterBlanks_cons (by decide)]
    simp [keyTail, hafter]
  have hend : ∀ c ∈ (blanks ++ '=' :: rest).head?, isBareKey c = false := by
    intro c hc
    cases blanks with
    | nil =>
      cases hc
      decide
    | cons b blanks =>
      cases hc
      obtain rfl | rfl : c = ' ' ∨ c = '\t' := by simpa [isBlank] using hblanks c (by simp)
      · decide
      · decide
  have hpart := keyPart_bare h hend
  obtain ⟨c, cs, rfl⟩ := List.exists_cons_of_ne_nil h.1
  rw [List.cons_append] at hpart ⊢
  simp [key, afterBlanks_cons (isBlank_of_isBareKey (h.2 c (by simp))), hpart, htail, depthLimit]

end Lexeme

/-! ## Lines -/

/-- The text, up to the end of its line, stands for the value. -/
def Spells (text : String) (v : Value) : Prop :=
  ∀ rest, value (depthLimit - 1) (afterBlanks (text.toList ++ '\n' :: rest)) =
    some (v, '\n' :: rest)

theorem value_of_scalar {c : Char} {cs rest : List Char} {v : Value} (depth : Nat)
    (harray : c ≠ '[') (htable : c ≠ '{') (h : scalar (c :: cs) = some (v, rest)) :
    value (depth + 1) (c :: cs) = some (v, rest) := by
  rw [value]
  · exact h
  · rintro tail heq
    exact harray (List.cons.inj heq).1
  · rintro tail heq
    exact htable (List.cons.inj heq).1

theorem spells_number {n : Nat} (h : n < Number.integerLimit) :
    Spells (toString n) (.integer n) := by
  intro rest
  have hdigit := Number.isDigit_toDigits n
  have hword := Number.word_of_value? (fun c hc => Number.isWordChar_of_isDigit (hdigit c hc))
    (Number.value?_toDigits h) rest
  rw [Nat.toString_eq_ofList_toDigits, String.toList_ofList]
  obtain ⟨c, cs, hcs⟩ := List.exists_cons_of_ne_nil (Nat.toDigits_ne_nil (n := n) (b := 10))
  rw [hcs] at hdigit hword ⊢
  have hc : ∀ d : Char, d.isDigit = false → c ≠ d := fun d =>
    ne_of_class (hdigit c (by simp))
  rw [List.cons_append] at hword ⊢
  rw [afterBlanks_cons (by simp [isBlank, hc ' ' (by decide), hc '\t' (by decide)])]
  refine value_of_scalar _ (hc _ (by decide)) (hc _ (by decide)) ?_
  unfold scalar
  split
  · rename_i heq
    exact absurd (List.cons.inj heq).1 (hc _ (by decide))
  · rename_i heq
    exact absurd (List.cons.inj heq).1 (hc _ (by decide))
  · exact hword

theorem spells_string {s : String} (hne : s.toList ≠ [])
    (h : ∀ c ∈ s.toList, isPlain c = true ∧ c ≠ '"' ∧ c ≠ '\\') :
    Spells ("\"" ++ s ++ "\"") (.string s) := by
  intro rest
  have hquoted : ("\"" ++ s ++ "\"").toList ++ '\n' :: rest =
      '"' :: s.toList ++ '"' :: '\n' :: rest := by
    simp
  rw [hquoted, List.cons_append, afterBlanks_cons (by decide)]
  refine value_of_scalar _ (by decide) (by decide) ?_
  rw [← List.cons_append]
  simp only [scalar, List.cons_append]
  rw [← List.cons_append, string_plain hne h]
  simp

/-- A bare key with the text of a value. -/
structure Assigns (line : String × String) (entry : String × Value) : Prop where
  key : line.1 = entry.1
  bare : IsBare line.1.toList
  spells : Spells line.2 entry.2

/-- The line that gives a key a value. -/
def writtenLine (line : String × String) : String := line.1 ++ " = " ++ line.2 ++ "\n"

theorem toList_writtenLine (line : String × String) (rest : List Char) :
    (writtenLine line).toList ++ rest =
      line.1.toList ++ ' ' :: '=' :: ' ' :: (line.2.toList ++ '\n' :: rest) := by
  simp [writtenLine]

namespace Document

theorem assignment?_writtenLine {line : String × String} {entry : String × Value}
    (h : Assigns line entry) {entries : Entries} (hnew : entries.get? entry.1 = none)
    (rest : List Char) :
    assignment? ⟨entries, []⟩ ((writtenLine line).toList ++ rest) =
      some (⟨entries ++ [entry], []⟩, rest) := by
  obtain ⟨name, text⟩ := line
  obtain ⟨key, v⟩ := entry
  obtain rfl : name = key := h.key
  have hkey := key_bare h.bare (by simp [isBlank] : ∀ c ∈ [' '], isBlank c = true)
    (' ' :: (text.toList ++ '\n' :: rest))
  rw [List.singleton_append] at hkey
  have hblank : ∀ cs, afterBlanks (' ' :: cs) = afterBlanks cs := fun cs => by
    simp [afterBlanks, isBlank]
  have hvalue := h.spells rest
  have hend : afterLine? ('\n' :: rest) = some rest := by
    simp [afterLine?, afterBlanks, isBlank, afterComment, afterNewline?]
  simp only at hnew hkey hvalue
  rw [toList_writtenLine]
  simp [assignment?, hkey, hblank, hvalue, hend, Entries.descend, Entries.assign, Entries.add?,
    hnew]

theorem lines?_of_bare {c : Char} (h : isBareKey c = true) (fuel : Nat) (doc : Document)
    (cs : List Char) : lines? (fuel + 1) doc (c :: cs) =
      match doc.assignment? (c :: cs) with
      | some (doc, rest) => lines? fuel doc rest
      | none => none := by
  have hne : ∀ d, isBareKey d = false → ∀ tail, c :: cs ≠ d :: tail := fun d hd tail heq =>
    ne_of_class h hd (List.cons.inj heq).1
  rw [lines?, afterBlanks_cons (isBlank_of_isBareKey h)]
  split
  case h_6 => rfl
  · rename_i heq
    simp at heq
  -- What else a line may begin with is no key.
  all_goals
    rename_i heq
    exact absurd heq (hne _ (by decide) _)

theorem lines?_writtenLines {lines : List (String × String)} {new : Entries}
    (h : List.Forall₂ Assigns lines new) {entries : Entries}
    (hnew : ((entries ++ new).map Prod.fst).Nodup) {fuel : Nat} (hfuel : lines.length < fuel) :
    lines? fuel ⟨entries, []⟩ (lines.flatMap fun line => (writtenLine line).toList) =
      some ⟨entries ++ new, []⟩ := by
  induction h generalizing entries fuel with
  | nil =>
    obtain ⟨fuel, rfl⟩ := Nat.exists_eq_succ_of_ne_zero (by omega : fuel ≠ 0)
    simp [lines?, afterBlanks]
  | @cons line entry lines new hline _ ih =>
    obtain ⟨fuel, rfl⟩ := Nat.exists_eq_succ_of_ne_zero (by omega : fuel ≠ 0)
    have hfresh : entries.get? entry.1 = none := by
      rw [Entries.get?, List.lookup_eq_none_iff]
      intro e he
      simp only [List.map_append, List.nodup_append] at hnew
      have hne := hnew.2.2 e.1 (List.mem_map_of_mem he) entry.1 (by simp)
      simpa using hne.symm
    have hone := assignment?_writtenLine hline hfresh
      (lines.flatMap fun line => (writtenLine line).toList)
    have hrest : lines? fuel ⟨entries ++ [entry], []⟩ _ = some ⟨entries ++ [entry] ++ new, []⟩ :=
      ih (by simpa using hnew) (by simpa using hfuel)
    rw [List.flatMap_cons]
    obtain ⟨c, cs, hcs⟩ := List.exists_cons_of_ne_nil hline.bare.1
    rw [toList_writtenLine, hcs, List.cons_append] at hone ⊢
    rw [lines?_of_bare (hline.bare.2 c (by simp [hcs])), hone]
    simpa using hrest

theorem afterMark_writtenLines {lines : List (String × String)} {entries : Entries}
    (h : List.Forall₂ Assigns lines entries) :
    afterMark (lines.flatMap fun line => (writtenLine line).toList) =
      lines.flatMap fun line => (writtenLine line).toList := by
  cases h with
  | nil => rfl
  | @cons line entry lines entries hline _ =>
    obtain ⟨c, cs, hcs⟩ := List.exists_cons_of_ne_nil hline.bare.1
    have hc := hline.bare.2 c (by simp [hcs])
    rw [List.flatMap_cons, toList_writtenLine, hcs, List.cons_append]
    unfold afterMark
    split
    · rename_i heq
      exact absurd (List.cons.inj heq).1 (ne_of_class hc (by decide))
    · rfl

theorem length_le_writtenLines (lines : List (String × String)) :
    lines.length ≤ (lines.flatMap fun line => (writtenLine line).toList).length := by
  rw [List.length_flatMap]
  calc lines.length = (lines.map fun _ => 1).sum := by simp
    _ ≤ _ := List.sum_le_sum fun line _ => by
      simp [writtenLine]
      omega

theorem read?_writtenLines {lines : List (String × String)} {entries : Entries}
    (h : List.Forall₂ Assigns lines entries) (hd : (entries.map Prod.fst).Nodup) :
    read? (String.join (lines.map writtenLine)) = some entries := by
  have htext : (String.join (lines.map writtenLine)).toList =
      lines.flatMap fun line => (writtenLine line).toList := by
    rw [String.toList_join, List.flatMap_map]
  have hnew : (([] ++ entries : Entries).map Prod.fst).Nodup := hd
  have hlines := lines?_writtenLines h hnew (Nat.lt_succ_of_le (length_le_writtenLines lines))
  simp only [read?, htext, afterMark_writtenLines h]
  rw [hlines]
  rfl

end Document

end SlotPool.Toml
