import SlotPool.Toml.Document
import Mathlib.Data.List.TakeWhile
import Mathlib.Tactic.Common

/-!
# Readers take characters off the front

What a reader leaves is not longer than what it was given, and a line takes a character or more. So
a document is read to its end however many lines it may have: the count of lines that `lines?` goes
by is only there to make it end.
-/

namespace SlotPool.Toml

open Lexeme

/-- What the reader leaves is not longer than the text. -/
def Shortens {α : Type} (read : Reader α) : Prop :=
  ∀ cs x rest, read cs = some (x, rest) → rest.length ≤ cs.length

theorem Shortens.map {α β : Type} {read : Reader α} (h : Shortens read) (f : α → β) :
    Shortens fun cs => (read cs).map fun (x, rest) => (f x, rest) := by
  intro cs x rest heq
  obtain ⟨⟨y, left⟩, hread, hpair⟩ := Option.map_eq_some_iff.1 heq
  cases hpair
  exact h cs y rest hread

theorem prepend_eq_some {α : Type} {read : Option (List α × List Char)} {x : α} {xs : List α}
    {rest : List Char}
    (h : (do let (inner, rest) ← read; return (x :: inner, rest)) = some (xs, rest)) :
    ∃ inner, read = some (inner, rest) ∧ xs = x :: inner := by
  obtain ⟨⟨inner, left⟩, hread, hpair⟩ := Option.bind_eq_some_iff.1 h
  cases hpair
  exact ⟨inner, hread, rfl⟩

theorem length_le_of_prepend {read : Option (List Char × List Char)} {x : Char}
    {xs rest : List Char} {n m : Nat} (hle : n ≤ m)
    (ih : ∀ inner, read = some (inner, rest) → rest.length ≤ n)
    (h : (do let (inner, rest) ← read; return (x :: inner, rest)) = some (xs, rest)) :
    rest.length ≤ m := by
  obtain ⟨inner, hinner, -⟩ := prepend_eq_some h
  exact (ih inner hinner).trans hle

namespace Lexeme

variable {cs rest : List Char}

/-! ## Blanks, comments and line ends -/

theorem length_afterBlanks_le (cs : List Char) : (afterBlanks cs).length ≤ cs.length :=
  (List.dropWhile_sublist _).length_le

theorem length_afterComment_le (cs : List Char) : (afterComment cs).length ≤ cs.length := by
  unfold afterComment
  split
  · rename_i tail
    have htail := (List.dropWhile_sublist isPlain (l := tail)).length_le
    simp only [List.length_cons]
    omega
  · exact Nat.le_refl _

theorem length_lt_of_afterNewline? (h : afterNewline? cs = some rest) :
    rest.length < cs.length := by
  unfold afterNewline? at h
  split at h
  · cases h
    simp
  · cases h
    simp only [List.length_cons]
    omega
  · cases h

theorem length_le_of_afterLine? (h : afterLine? cs = some rest) : rest.length ≤ cs.length := by
  have hblanks := length_afterBlanks_le cs
  have hcomment := length_afterComment_le (afterBlanks cs)
  unfold afterLine? at h
  split at h
  · cases h
    exact Nat.zero_le _
  · have hline := length_lt_of_afterNewline? h
    omega

theorem length_lt_of_afterLine? (hne : cs ≠ []) (h : afterLine? cs = some rest) :
    rest.length < cs.length := by
  have hblanks := length_afterBlanks_le cs
  have hcomment := length_afterComment_le (afterBlanks cs)
  unfold afterLine? at h
  split at h
  · cases h
    exact List.length_pos_iff.2 hne
  · have hline := length_lt_of_afterNewline? h
    omega

theorem length_afterGap_le (fuel : Nat) (cs : List Char) :
    (afterGap fuel cs).length ≤ cs.length := by
  induction fuel generalizing cs with
  | zero => exact Nat.le_refl _
  | succ fuel ih =>
    have hblanks := length_afterBlanks_le cs
    have hcomment := length_afterComment_le (afterBlanks cs)
    unfold afterGap
    dsimp only
    split
    · split
      · rename_i _ _ rest hline
        have hshort := length_lt_of_afterNewline? hline
        have hgap := ih rest
        omega
      · omega
    · split
      · rename_i _ _ rest hline
        have hshort := length_lt_of_afterNewline? hline
        have hgap := ih rest
        omega
      · exact hblanks

/-! ## Strings -/

theorem shortens_basic : Shortens basic := by
  intro cs text rest h
  fun_induction basic cs generalizing text with
  | case1 => cases h
  | case2 tail =>
    cases h
    simp
  | case3 a b c d tail ih =>
    obtain ⟨x, -, h⟩ := Option.bind_eq_some_iff.1 h
    exact length_le_of_prepend (by simp only [List.length_cons]; omega) ih h
  | case4 a b c d e f g i tail ih =>
    obtain ⟨x, -, h⟩ := Option.bind_eq_some_iff.1 h
    exact length_le_of_prepend (by simp only [List.length_cons]; omega) ih h
  | case5 c tail hu hU ih =>
    obtain ⟨x, -, h⟩ := Option.bind_eq_some_iff.1 h
    exact length_le_of_prepend (by simp only [List.length_cons]; omega) ih h
  | case6 c tail hquote _ _ _ hplain ih =>
    exact length_le_of_prepend (by simp only [List.length_cons]; omega) ih h
  | case7 => cases h

theorem shortens_literal : Shortens literal := by
  intro cs text rest h
  fun_induction literal cs generalizing text with
  | case1 => cases h
  | case2 tail =>
    cases h
    simp
  | case3 c tail hquote hplain ih =>
    exact length_le_of_prepend (by simp only [List.length_cons]; omega) ih h
  | case4 => cases h

theorem shortens_closing? (quote : Char) : Shortens (closing? quote) := by
  intro cs text rest h
  unfold closing? at h
  dsimp only at h
  split at h
  · cases h
  · cases h
    simp

theorem length_blankLines_le (fuel : Nat) (cs : List Char) :
    (afterFold?.blankLines fuel cs).length ≤ cs.length := by
  induction fuel generalizing cs with
  | zero => exact Nat.le_refl _
  | succ fuel ih =>
    have hblanks := length_afterBlanks_le cs
    rw [afterFold?.blankLines]
    split
    · rename_i rest hline
      have hshort := length_lt_of_afterNewline? hline
      have hlines := ih rest
      omega
    · exact hblanks

theorem length_le_of_afterFold? (h : afterFold? cs = some rest) : rest.length ≤ cs.length := by
  have hblanks := length_afterBlanks_le cs
  unfold afterFold? at h
  split at h
  · cases h
  · rename_i tail hline
    cases h
    have hshort := length_lt_of_afterNewline? hline
    have hlines := length_blankLines_le tail.length tail
    omega

theorem shortens_multilineBasic (fuel : Nat) : Shortens (multilineBasic fuel) := by
  intro cs text rest h
  fun_induction multilineBasic fuel cs generalizing text with
  | case1 => cases h
  | case2 cs fuel result hclosing =>
    cases h
    exact shortens_closing? _ _ _ _ hclosing
  | case3 => cases h
  | case4 fuel tail hclosing ih =>
    exact length_le_of_prepend (by simp only [List.length_cons]; omega) ih h
  | case5 fuel tail left hfold hclosing ih =>
    have hle := ih _ h
    have hfolded := length_le_of_afterFold? hfold
    simp only [List.length_cons]
    omega
  | case6 fuel a b c d tail hfold hclosing ih =>
    obtain ⟨x, -, h⟩ := Option.bind_eq_some_iff.1 h
    exact length_le_of_prepend (by simp only [List.length_cons]; omega) ih h
  | case7 fuel a b c d e f g i tail hfold hclosing ih =>
    obtain ⟨x, -, h⟩ := Option.bind_eq_some_iff.1 h
    exact length_le_of_prepend (by simp only [List.length_cons]; omega) ih h
  | case8 fuel c tail hu hU hfold hclosing ih =>
    obtain ⟨x, -, h⟩ := Option.bind_eq_some_iff.1 h
    exact length_le_of_prepend (by simp only [List.length_cons]; omega) ih h
  | case9 => cases h
  | case10 fuel c tail hreturn hescape hplain hclosing ih =>
    exact length_le_of_prepend (by simp only [List.length_cons]; omega) ih h
  | case11 => cases h

theorem shortens_multilineLiteral (fuel : Nat) : Shortens (multilineLiteral fuel) := by
  intro cs text rest h
  fun_induction multilineLiteral fuel cs generalizing text with
  | case1 => cases h
  | case2 cs fuel result hclosing =>
    cases h
    exact shortens_closing? _ _ _ _ hclosing
  | case3 => cases h
  | case4 fuel tail hclosing ih =>
    exact length_le_of_prepend (by simp only [List.length_cons]; omega) ih h
  | case5 fuel c tail hreturn hplain hclosing ih =>
    exact length_le_of_prepend (by simp only [List.length_cons]; omega) ih h
  | case6 => cases h

theorem length_afterOpening_le (cs : List Char) : (afterOpening cs).length ≤ cs.length := by
  unfold afterOpening
  cases hline : afterNewline? cs with
  | none => exact Nat.le_refl _
  | some rest => exact (length_lt_of_afterNewline? hline).le

theorem shortens_string : Shortens string := by
  intro cs text rest h
  unfold string at h
  split at h
  · rename_i tail
    have hle := shortens_multilineBasic _ _ _ _ h
    have hopening := length_afterOpening_le tail
    simp only [List.length_cons]
    omega
  · have hle := shortens_basic _ _ _ h
    simp only [List.length_cons]
    omega
  · rename_i tail
    have hle := shortens_multilineLiteral _ _ _ _ h
    have hopening := length_afterOpening_le tail
    simp only [List.length_cons]
    omega
  · have hle := shortens_literal _ _ _ h
    simp only [List.length_cons]
    omega
  · cases h

/-! ## Keys -/

theorem length_lt_of_keyPart {part : String} (h : keyPart cs = some (part, rest)) :
    rest.length < cs.length := by
  unfold keyPart at h
  split at h
  · have hle := shortens_basic.map String.ofList _ _ _ h
    simp only [List.length_cons]
    omega
  · have hle := shortens_literal.map String.ofList _ _ _ h
    simp only [List.length_cons]
    omega
  · split at h
    · cases h
    · rename_i hbare
      cases h
      have hsplit :=
        congrArg List.length (List.takeWhile_append_dropWhile (p := isBareKey) (l := cs))
      have hpos := List.length_pos_iff.2 hbare
      rw [List.length_append] at hsplit
      omega

theorem shortens_keyTail (fuel : Nat) : Shortens (keyTail fuel) := by
  intro cs parts rest h
  induction fuel generalizing cs parts with
  | zero => cases h
  | succ fuel ih =>
    have hblanks := length_afterBlanks_le cs
    rw [keyTail] at h
    split at h
    · rename_i tail htail
      obtain ⟨⟨part, left⟩, hpart, h⟩ := Option.bind_eq_some_iff.1 h
      obtain ⟨inner, hinner, -⟩ := prepend_eq_some h
      have hle := ih _ _ hinner
      have hlt := length_lt_of_keyPart hpart
      have hafter := length_afterBlanks_le tail
      rw [htail, List.length_cons] at hblanks
      omega
    · cases h
      exact hblanks

theorem length_lt_of_key {path : List String} {name : String}
    (h : key cs = some ((path, name), rest)) : rest.length < cs.length := by
  obtain ⟨⟨first, left⟩, hpart, h⟩ := Option.bind_eq_some_iff.1 h
  obtain ⟨⟨others, left'⟩, htail, h⟩ := Option.bind_eq_some_iff.1 h
  have hblanks := length_afterBlanks_le cs
  have hlt := length_lt_of_keyPart hpart
  have hle := shortens_keyTail _ _ _ _ htail
  dsimp only at h hle
  split at h
  · cases h
    omega
  · cases h

end Lexeme

/-! ## Values -/

namespace Number

theorem cases_of_word {cs rest : List Char} {v : Value} (h : word cs = some (v, rest)) :
    (∃ later, cs.dropWhile isWordChar = ' ' :: later ∧ later.dropWhile isWordChar = rest ∧
      isDate (cs.takeWhile isWordChar) = true ∧ isTime true (later.takeWhile isWordChar) = true ∧
      v = .dateTime
        (String.ofList (cs.takeWhile isWordChar ++ ' ' :: later.takeWhile isWordChar))) ∨
    cs.dropWhile isWordChar = rest ∧ value? (cs.takeWhile isWordChar) = some v := by
  have hplain : (value? (cs.takeWhile isWordChar)).map (·, cs.dropWhile isWordChar) =
      some (v, rest) → cs.dropWhile isWordChar = rest ∧
        value? (cs.takeWhile isWordChar) = some v := by
    intro hmap
    obtain ⟨v', hv, hpair⟩ := Option.map_eq_some_iff.1 hmap
    cases hpair
    exact ⟨rfl, hv⟩
  unfold word at h
  dsimp only at h
  split at h
  · rename_i later hlater
    split at h
    · rename_i htime
      cases h
      rw [Bool.and_eq_true] at htime
      exact .inl ⟨later, hlater, rfl, htime.1, htime.2, rfl⟩
    · exact .inr (hplain h)
  · exact .inr (hplain h)

theorem shortens_word : Shortens word := by
  intro cs v rest h
  have hrest := (List.dropWhile_sublist isWordChar (l := cs)).length_le
  rcases cases_of_word h with ⟨later, hlater, hleft, -⟩ | ⟨hleft, -⟩
  · have hlater' := (List.dropWhile_sublist isWordChar (l := later)).length_le
    rw [hlater, List.length_cons] at hrest
    rw [hleft] at hlater'
    omega
  · rw [hleft] at hrest
    exact hrest

end Number

theorem shortens_scalar : Shortens scalar := by
  intro cs v rest h
  unfold scalar at h
  split at h
  · exact shortens_string.map (fun text => Value.string (String.ofList text)) _ _ _ h
  · exact shortens_string.map (fun text => Value.string (String.ofList text)) _ _ _ h
  · exact Number.shortens_word _ _ _ h

theorem shortens_arrayElements {element : Reader Value} (h : Shortens element) (fuel : Nat) :
    Shortens (arrayElements element fuel) := by
  intro cs vs rest heq
  induction fuel generalizing cs vs with
  | zero => cases heq
  | succ fuel ih =>
    have hgap := length_afterGap_le cs.length cs
    rw [arrayElements] at heq
    split at heq
    · rename_i tail htail
      cases heq
      rw [htail, List.length_cons] at hgap
      omega
    · obtain ⟨⟨v, left⟩, helement, heq⟩ := Option.bind_eq_some_iff.1 heq
      have hle := h _ _ _ helement
      have hgap' := length_afterGap_le left.length left
      dsimp only at heq
      split at heq
      · rename_i tail htail
        obtain ⟨inner, hinner, -⟩ := prepend_eq_some heq
        have hinner := ih _ _ hinner
        rw [htail, List.length_cons] at hgap'
        omega
      · rename_i tail htail
        cases heq
        rw [htail, List.length_cons] at hgap'
        omega
      · cases heq

theorem shortens_inlineEntries {element : Reader Value} (h : Shortens element) (fuel : Nat)
    (entries : Entries) : Shortens (inlineEntries element fuel entries) := by
  intro cs new rest heq
  induction fuel generalizing cs entries with
  | zero => cases heq
  | succ fuel ih =>
    rw [inlineEntries] at heq
    obtain ⟨⟨⟨path, name⟩, left⟩, hkey, heq⟩ := Option.bind_eq_some_iff.1 heq
    have hlt := length_lt_of_key hkey
    dsimp only at heq
    split at heq
    · rename_i tail
      obtain ⟨⟨v, after⟩, helement, heq⟩ := Option.bind_eq_some_iff.1 heq
      obtain ⟨entries', -, heq⟩ := Option.bind_eq_some_iff.1 heq
      have hle := h _ _ _ helement
      have hblanks := length_afterBlanks_le tail
      have hblanks' := length_afterBlanks_le after
      rw [List.length_cons] at hlt
      dsimp only at heq
      split at heq
      · rename_i tail' htail
        have hinner := ih _ _ heq
        rw [htail, List.length_cons] at hblanks'
        omega
      · rename_i tail' htail
        cases heq
        rw [htail, List.length_cons] at hblanks'
        omega
      · cases heq
    · cases heq

theorem shortens_value (depth : Nat) : Shortens (value depth) := by
  intro cs v rest h
  induction depth generalizing cs v rest with
  | zero => exact shortens_scalar _ _ _ h
  | succ depth ih =>
    have helement : Shortens (value depth) := ih
    unfold value at h
    split at h
    · have hle := (shortens_arrayElements helement _).map Value.array _ _ _ h
      simp only [List.length_cons]
      omega
    · rename_i tail
      have hblanks := length_afterBlanks_le tail
      split at h
      · rename_i left htail
        cases h
        rw [htail] at hblanks
        simp only [List.length_cons] at hblanks ⊢
        omega
      · have hle := (shortens_inlineEntries helement _ _).map Value.inlineTable _ _ _ h
        simp only [List.length_cons]
        omega
    · exact shortens_scalar _ _ _ h

/-! ## Lines -/

namespace Document

variable {doc doc' : Document} {cs rest : List Char}

theorem length_lt_of_assignment? (h : assignment? doc cs = some (doc', rest)) :
    rest.length < cs.length := by
  obtain ⟨⟨⟨path, name⟩, left⟩, hkey, h⟩ := Option.bind_eq_some_iff.1 h
  have hlt := length_lt_of_key hkey
  dsimp only at h
  split at h
  · rename_i tail
    obtain ⟨⟨v, after⟩, hvalue, h⟩ := Option.bind_eq_some_iff.1 h
    obtain ⟨after', hline, h⟩ := Option.bind_eq_some_iff.1 h
    obtain ⟨entries, -, h⟩ := Option.bind_eq_some_iff.1 h
    cases h
    have hle := shortens_value _ _ _ _ hvalue
    have hblanks := length_afterBlanks_le tail
    have hend := length_le_of_afterLine? hline
    dsimp only at hend
    rw [List.length_cons] at hlt
    omega
  · cases h

theorem length_lt_of_header? (h : header? doc cs = some (doc', rest)) :
    rest.length < cs.length := by
  unfold header? at h
  split at h
  · obtain ⟨⟨⟨path, name⟩, left⟩, hkey, h⟩ := Option.bind_eq_some_iff.1 h
    have hlt := length_lt_of_key hkey
    dsimp only at h
    split at h
    · obtain ⟨after, hline, h⟩ := Option.bind_eq_some_iff.1 h
      obtain ⟨entries, -, h⟩ := Option.bind_eq_some_iff.1 h
      cases h
      have hend := length_le_of_afterLine? hline
      simp only [List.length_cons] at hlt ⊢
      omega
    · cases h
  · obtain ⟨⟨⟨path, name⟩, left⟩, hkey, h⟩ := Option.bind_eq_some_iff.1 h
    have hlt := length_lt_of_key hkey
    dsimp only at h
    split at h
    · obtain ⟨after, hline, h⟩ := Option.bind_eq_some_iff.1 h
      obtain ⟨entries, -, h⟩ := Option.bind_eq_some_iff.1 h
      cases h
      have hend := length_le_of_afterLine? hline
      rw [List.length_cons] at hlt
      omega
    · cases h

/-- What one line does to the document, and the text after it. -/
def line? (doc : Document) (cs : List Char) : Option (Document × List Char) :=
  match afterBlanks cs with
  | '#' :: _ | '\n' :: _ | '\r' :: _ => (afterLine? cs).map (doc, ·)
  | '[' :: rest => doc.header? rest
  | rest => doc.assignment? rest

theorem line?_assignment (hcomment : ∀ tail, afterBlanks cs ≠ '#' :: tail)
    (hfeed : ∀ tail, afterBlanks cs ≠ '\n' :: tail)
    (hreturn : ∀ tail, afterBlanks cs ≠ '\r' :: tail)
    (hheader : ∀ tail, afterBlanks cs ≠ '[' :: tail) :
    line? doc cs = doc.assignment? (afterBlanks cs) := by
  unfold line?
  split
  · exact absurd ‹_› (hcomment _)
  · exact absurd ‹_› (hfeed _)
  · exact absurd ‹_› (hreturn _)
  · exact absurd ‹_› (hheader _)
  · rfl

theorem lines?_succ (fuel : Nat) (doc : Document) (cs : List Char) :
    lines? (fuel + 1) doc cs = if afterBlanks cs = [] then some doc
      else (line? doc cs).bind fun (doc, rest) => lines? fuel doc rest := by
  rw [lines?]
  split
  · rename_i hnil
    rw [if_pos hnil]
  · rename_i hcons
    simp only [line?, hcons, reduceCtorEq, if_false]
    cases afterLine? cs <;> rfl
  · rename_i hcons
    simp only [line?, hcons, reduceCtorEq, if_false]
    cases afterLine? cs <;> rfl
  · rename_i hcons
    simp only [line?, hcons, reduceCtorEq, if_false]
    cases afterLine? cs <;> rfl
  · rename_i tail hcons
    simp only [line?, hcons, reduceCtorEq, if_false]
    cases doc.header? tail <;> rfl
  · rename_i hnil hcomment hfeed hreturn hheader
    rw [if_neg hnil, line?_assignment hcomment hfeed hreturn hheader]
    cases doc.assignment? (afterBlanks cs) <;> rfl

theorem length_lt_of_line? (hne : afterBlanks cs ≠ []) (h : line? doc cs = some (doc', rest)) :
    rest.length < cs.length := by
  have hblanks := length_afterBlanks_le cs
  have hempty : (afterLine? cs).map (doc, ·) = some (doc', rest) → rest.length < cs.length := by
    intro hmap
    obtain ⟨left, hline, hpair⟩ := Option.map_eq_some_iff.1 hmap
    cases hpair
    refine length_lt_of_afterLine? ?_ hline
    rintro rfl
    exact hne rfl
  unfold line? at h
  split at h
  · exact hempty h
  · exact hempty h
  · exact hempty h
  · rename_i tail hcons
    have hlt := length_lt_of_header? h
    rw [hcons, List.length_cons] at hblanks
    omega
  · have hlt := length_lt_of_assignment? h
    omega

/-- Lines are read to the end of the text, whatever their number. -/
theorem lines?_fuel {fuel fuel' : Nat} (h : cs.length < fuel) (h' : cs.length < fuel') :
    lines? fuel doc cs = lines? fuel' doc cs := by
  induction fuel generalizing doc cs fuel' with
  | zero => omega
  | succ fuel ih =>
    obtain ⟨fuel', rfl⟩ := Nat.exists_eq_succ_of_ne_zero (by omega : fuel' ≠ 0)
    rw [lines?_succ, lines?_succ]
    split
    · rfl
    · rename_i hne
      -- A line takes one of the fuel, and a character or more of the text.
      cases hline : line? doc cs with
      | none => rfl
      | some next =>
        have hlt := length_lt_of_line? hne hline
        exact ih (by omega) (by omega)

/-- Reads all the lines of the text. -/
def readOn (doc : Document) (cs : List Char) : Option Document := lines? (cs.length + 1) doc cs

theorem readOn_eq (doc : Document) (cs : List Char) :
    readOn doc cs = if afterBlanks cs = [] then some doc
      else (line? doc cs).bind fun (doc, rest) => readOn doc rest := by
  rw [readOn, lines?_succ]
  split
  · rfl
  · rename_i hne
    cases hline : line? doc cs with
    | none => rfl
    | some next => exact lines?_fuel (length_lt_of_line? hne hline) (Nat.lt_succ_self _)

end Document

end SlotPool.Toml
