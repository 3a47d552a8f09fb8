import SlotPool.Proofs.Lines
import SlotPool.Proofs.Readers

/-!
# Literals

A literal is a text that stands for a value by itself. It stands for the same value where a line
goes on after it, as long as nothing but blanks and a comment follow, so that it can be read without
what comes later.
-/

namespace SlotPool.Toml

open Lexeme

/-! ## What is left of a text -/

section

variable {p : Char → Bool} {cs more : List Char}

theorem takeWhile_append_of_stop (h : ∀ c ∈ more.head?, p c = false) :
    (cs ++ more).takeWhile p = cs.takeWhile p := by
  induction cs with
  | nil =>
    cases more with
    | nil => rfl
    | cons c more => simp [h c (by simp)]
  | cons c cs ih => simp only [List.cons_append, List.takeWhile_cons, ih]

theorem dropWhile_append_of_stop (h : ∀ c ∈ more.head?, p c = false) :
    (cs ++ more).dropWhile p = cs.dropWhile p ++ more := by
  induction cs with
  | nil =>
    cases more with
    | nil => rfl
    | cons c more => simp [h c (by simp)]
  | cons c cs ih =>
    simp only [List.cons_append, List.dropWhile_cons]
    split
    · exact ih
    · rfl

theorem dropWhile_append_of_ne_nil (h : cs.dropWhile p ≠ []) :
    (cs ++ more).dropWhile p = cs.dropWhile p ++ more := by
  induction cs with
  | nil => exact absurd rfl h
  | cons c cs ih =>
    simp only [List.cons_append, List.dropWhile_cons] at h ⊢
    split
    · rename_i hc
      rw [if_pos hc] at h
      exact ih h
    · rfl

end

namespace Lexeme

/-- Nothing but blanks and a comment follow on the line. -/
def AtEnd (cs : List Char) : Prop :=
  ∀ c ∈ (afterBlanks cs).head?, c = '#' ∨ c = '\n' ∨ c = '\r'

def isStop (c : Char) : Bool := c = '#' || c = '\n' || c = '\r' || isBlank c

theorem AtEnd.head {cs : List Char} (h : AtEnd cs) : ∀ c ∈ cs.head?, isStop c = true := by
  intro c hc
  obtain ⟨rest, rfl⟩ := List.head?_eq_some_iff.1 hc
  by_cases hb : isBlank c = true
  · simp [isStop, hb]
  · have hc := h c (by simp [afterBlanks, hb])
    simp only [isStop, Bool.or_eq_true, decide_eq_true_eq]
    tauto

theorem AtEnd.tail {cs : List Char} (h : AtEnd (' ' :: cs)) : AtEnd cs := by
  have hblanks : afterBlanks (' ' :: cs) = afterBlanks cs := by simp [afterBlanks, isBlank]
  rw [AtEnd, hblanks] at h
  exact h

theorem AtEnd.not_of {cs : List Char} (h : AtEnd cs) {p : Char → Bool}
    (hp : ∀ c, isStop c = true → p c = false) : ∀ c ∈ cs.head?, p c = false :=
  fun c hc => hp c (h.head c hc)

theorem eq_of_isStop {c : Char} (h : isStop c = true) :
    c = '#' ∨ c = '\n' ∨ c = '\r' ∨ c = ' ' ∨ c = '\t' := by
  simpa [isStop, isBlank, or_assoc] using h

/-! ## Strings on one line -/

variable {cs more text : List Char}

theorem ne_of_escape? {c d x : Char} (h : escape? c = some x) (hd : escape? d = none) :
    c ≠ d := by
  rintro rfl
  rw [hd] at h
  cases h

theorem basic_append (h : basic cs = some (text, [])) (more : List Char) :
    basic (cs ++ more) = some (text, more) := by
  fun_induction basic cs generalizing text with
  | case1 => cases h
  | case2 rest =>
    cases h
    rfl
  | case3 a b c d rest ih =>
    obtain ⟨x, hx, h⟩ := Option.bind_eq_some_iff.1 h
    obtain ⟨inner, hinner, rfl⟩ := prepend_eq_some h
    simp [basic, hx, ih hinner]
  | case4 a b c d e f g i rest ih =>
    obtain ⟨x, hx, h⟩ := Option.bind_eq_some_iff.1 h
    obtain ⟨inner, hinner, rfl⟩ := prepend_eq_some h
    simp [basic, hx, ih hinner]
  | case5 c rest hu hU ih =>
    obtain ⟨x, hx, h⟩ := Option.bind_eq_some_iff.1 h
    obtain ⟨inner, hinner, rfl⟩ := prepend_eq_some h
    rw [List.cons_append, List.cons_append, basic]
    · simp [hx, ih hinner]
    · simp [ne_of_escape? (d := 'u') hx rfl]
    · simp [ne_of_escape? (d := 'U') hx rfl]
  | case6 c rest hquote _ _ _ hplain ih =>
    obtain ⟨inner, hinner, rfl⟩ := prepend_eq_some h
    have hescape : c ≠ '\\' := by simpa using (Bool.and_eq_true_iff.1 hplain).2
    rw [List.cons_append, basic]
    · rw [if_pos hplain, ih hinner]
      rfl
    · exact hquote
    all_goals simp [hescape]
  | case7 => cases h

theorem literal_append (h : literal cs = some (text, [])) (more : List Char) :
    literal (cs ++ more) = some (text, more) := by
  fun_induction literal cs generalizing text with
  | case1 => cases h
  | case2 rest =>
    cases h
    rfl
  | case3 c rest hquote hplain ih =>
    obtain ⟨inner, hinner, rfl⟩ := prepend_eq_some h
    rw [List.cons_append, literal]
    · simp [hplain, ih hinner]
    · exact hquote
  | case4 => cases h

/-! ## Strings of several lines -/

theorem afterNewline?_of_ne {c : Char} (hn : c ≠ '\n') (hr : c ≠ '\r') (rest : List Char) :
    afterNewline? (c :: rest) = none := by
  unfold afterNewline?
  split
  · rename_i heq
    exact absurd (List.cons.inj heq).1 hn
  · rename_i heq
    exact absurd (List.cons.inj heq).1 hr
  · rfl

theorem afterNewline?_return {c : Char} (hn : c ≠ '\n') (rest : List Char) :
    afterNewline? ('\r' :: c :: rest) = none := by
  unfold afterNewline?
  split
  · rename_i heq
    exact absurd (List.cons.inj heq).1 (by decide)
  · rename_i heq
    exact absurd (List.cons.inj (List.cons.inj heq).2).1 hn
  · rfl

theorem afterNewline?_append (hne : cs ≠ []) (hcr : cs ≠ ['\r']) (more : List Char) :
    afterNewline? (cs ++ more) = (afterNewline? cs).map (· ++ more) := by
  obtain ⟨c, rest, rfl⟩ := List.exists_cons_of_ne_nil hne
  by_cases hn : c = '\n'
  · rw [hn]
    rfl
  by_cases hr : c = '\r'
  · subst hr
    obtain ⟨d, rest, rfl⟩ := List.exists_cons_of_ne_nil fun he : rest = [] => hcr (by rw [he])
    by_cases hd : d = '\n'
    · rw [hd]
      rfl
    · rw [List.cons_append, List.cons_append, afterNewline?_return hd, afterNewline?_return hd]
      rfl
  · rw [List.cons_append, afterNewline?_of_ne hn hr, afterNewline?_of_ne hn hr]
    rfl

section

variable {quote : Char}

theorem closing?_append_of_none (hq : ∀ c ∈ more.head?, c ≠ quote)
    (h : closing? quote cs = none) : closing? quote (cs ++ more) = none := by
  have hstop : ∀ c ∈ more.head?, decide (c = quote) = false := by simpa using hq
  unfold closing? at h ⊢
  simp only [takeWhile_append_of_stop hstop] at h ⊢
  split at h
  · rename_i hshort
    rw [if_pos hshort]
  · cases h

/-- Quotes that end a string are no more than five, so that all of the text is made of them. -/
theorem closing?_append_of_some (hq : ∀ c ∈ more.head?, c ≠ quote)
    (h : closing? quote cs = some (text, [])) :
    closing? quote (cs ++ more) = some (text, more) := by
  have hstop : ∀ c ∈ more.head?, decide (c = quote) = false := by simpa using hq
  have hrun := (List.takeWhile_sublist (fun c => decide (c = quote)) (l := cs)).length_le
  unfold closing? at h ⊢
  simp only [takeWhile_append_of_stop hstop] at h ⊢
  split at h
  · cases h
  · rename_i hlong
    simp only [Option.some.injEq, Prod.mk.injEq, List.drop_eq_nil_iff] at h
    obtain ⟨htext, hdrop⟩ := h
    rw [if_neg hlong, htext, List.drop_left' (by omega)]

end

theorem afterNewline?_afterBlanks_append (hne : afterBlanks cs ≠ [])
    (hcr : afterBlanks cs ≠ ['\r']) (more : List Char) :
    afterNewline? (afterBlanks (cs ++ more)) =
      (afterNewline? (afterBlanks cs)).map (· ++ more) := by
  rw [afterBlanks, dropWhile_append_of_ne_nil hne]
  exact afterNewline?_append hne hcr more

theorem afterNewline?_afterBlanks_of_some {rest : List Char}
    (h : afterNewline? (afterBlanks cs) = some rest) (more : List Char) :
    afterNewline? (afterBlanks (cs ++ more)) = some (rest ++ more) := by
  have hne : afterBlanks cs ≠ [] := by
    intro he
    rw [he] at h
    cases h
  have hcr : afterBlanks cs ≠ ['\r'] := by
    intro he
    rw [he] at h
    cases h
  rw [afterNewline?_afterBlanks_append hne hcr, h]
  rfl

theorem blankLines_nil (fuel : Nat) : afterFold?.blankLines fuel [] = [] := by
  cases fuel <;> rfl

theorem blankLines_append {fuel fuel' : Nat} (hf : cs.length ≤ fuel)
    (hf' : (cs ++ more).length ≤ fuel') (hne : afterFold?.blankLines fuel cs ≠ [])
    (hcr : afterFold?.blankLines fuel cs ≠ ['\r']) :
    afterFold?.blankLines fuel' (cs ++ more) = afterFold?.blankLines fuel cs ++ more := by
  have hpos : 0 < cs.length := by
    refine List.length_pos_iff.2 ?_
    rintro rfl
    exact hne (blankLines_nil fuel)
  induction fuel generalizing cs fuel' with
  | zero => omega
  | succ fuel ih =>
    rw [List.length_append] at hf'
    obtain ⟨fuel', rfl⟩ := Nat.exists_eq_succ_of_ne_zero (by omega : fuel' ≠ 0)
    have hblanks := length_afterBlanks_le cs
    rw [afterFold?.blankLines] at hne hcr ⊢
    rw [afterFold?.blankLines]
    cases hline : afterNewline? (afterBlanks cs) with
    | none =>
      rw [hline] at hne hcr
      rw [afterNewline?_afterBlanks_append hne hcr, hline]
      exact dropWhile_append_of_ne_nil hne
    | some rest =>
      rw [hline] at hne hcr
      rw [afterNewline?_afterBlanks_of_some hline]
      have hlt := length_lt_of_afterNewline? hline
      refine ih (by omega) (by rw [List.length_append]; omega) hne hcr ?_
      refine List.length_pos_iff.2 ?_
      rintro rfl
      exact hne (blankLines_nil fuel)

theorem afterFold?_append_of_some {rest : List Char} (hne : rest ≠ []) (hcr : rest ≠ ['\r'])
    (h : afterFold? cs = some rest) (more : List Char) :
    afterFold? (cs ++ more) = some (rest ++ more) := by
  unfold afterFold? at h ⊢
  cases hline : afterNewline? (afterBlanks cs) with
  | none =>
    rw [hline] at h
    cases h
  | some tail =>
    rw [hline] at h
    rw [afterNewline?_afterBlanks_of_some hline]
    cases h
    exact congrArg some (blankLines_append (Nat.le_refl _) (Nat.le_refl _) hne hcr)

theorem afterFold?_letter {c : Char} (hblank : isBlank c = false) (hn : c ≠ '\n')
    (hr : c ≠ '\r') (rest : List Char) : afterFold? (c :: rest) = none := by
  unfold afterFold?
  rw [afterBlanks_cons hblank, afterNewline?_of_ne hn hr]

theorem afterFold?_escape {c x : Char} (h : escape? c = some x) (rest : List Char) :
    afterFold? (c :: rest) = none := by
  refine afterFold?_letter ?_ (ne_of_escape? h rfl) (ne_of_escape? h rfl) rest
  simp [isBlank, ne_of_escape? (d := ' ') h rfl, ne_of_escape? (d := '\t') h rfl]

theorem ne_of_multilineBasic {fuel : Nat} (h : multilineBasic fuel cs = some (text, [])) :
    cs ≠ [] ∧ cs ≠ ['\r'] := by
  constructor <;>
  · rintro rfl
    cases fuel <;> cases h

theorem multilineBasic_append {fuel fuel' : Nat} (hq : ∀ c ∈ more.head?, c ≠ '"')
    (h : multilineBasic fuel cs = some (text, [])) (hf : fuel ≤ fuel') :
    multilineBasic fuel' (cs ++ more) = some (text, more) := by
  fun_induction multilineBasic fuel cs generalizing text fuel' with
  | case1 => cases h
  | case2 cs fuel result hclosing =>
    obtain ⟨fuel', rfl⟩ := Nat.exists_eq_succ_of_ne_zero (by omega : fuel' ≠ 0)
    cases h
    unfold multilineBasic
    rw [closing?_append_of_some hq hclosing]
  | case3 => cases h
  | case4 fuel tail hclosing ih =>
    obtain ⟨fuel', rfl⟩ := Nat.exists_eq_succ_of_ne_zero (by omega : fuel' ≠ 0)
    obtain ⟨inner, hinner, rfl⟩ := prepend_eq_some h
    have hopen := closing?_append_of_none hq hclosing
    simp only [List.cons_append] at hopen ⊢
    rw [multilineBasic, hopen]
    simp [ih hinner (by omega : fuel ≤ fuel')]
  | case5 fuel tail left hfold hclosing ih =>
    obtain ⟨fuel', rfl⟩ := Nat.exists_eq_succ_of_ne_zero (by omega : fuel' ≠ 0)
    -- The closing quotes are still to come after the fold, so that it does not reach the end.
    obtain ⟨hne, hcr⟩ := ne_of_multilineBasic h
    have hopen := closing?_append_of_none hq hclosing
    rw [List.cons_append] at hopen ⊢
    unfold multilineBasic
    simp only [hopen, afterFold?_append_of_some hne hcr hfold]
    exact ih h (by omega)
  | case6 fuel a b c d tail hfold hclosing ih =>
    obtain ⟨fuel', rfl⟩ := Nat.exists_eq_succ_of_ne_zero (by omega : fuel' ≠ 0)
    obtain ⟨x, hx, h⟩ := Option.bind_eq_some_iff.1 h
    obtain ⟨inner, hinner, rfl⟩ := prepend_eq_some h
    have hopen := closing?_append_of_none hq hclosing
    simp only [List.cons_append] at hopen ⊢
    rw [multilineBasic, hopen, afterFold?_letter (by decide) (by decide) (by decide)]
    simp [hx, ih hinner (by omega : fuel ≤ fuel')]
  | case7 fuel a b c d e f g i tail hfold hclosing ih =>
    obtain ⟨fuel', rfl⟩ := Nat.exists_eq_succ_of_ne_zero (by omega : fuel' ≠ 0)
    obtain ⟨x, hx, h⟩ := Option.bind_eq_some_iff.1 h
    obtain ⟨inner, hinner, rfl⟩ := prepend_eq_some h
    have hopen := closing?_append_of_none hq hclosing
    simp only [List.cons_append] at hopen ⊢
    rw [multilineBasic, hopen, afterFold?_letter (by decide) (by decide) (by decide)]
    simp [hx, ih hinner (by omega : fuel ≤ fuel')]
  | case8 fuel c tail hu hU hfold hclosing ih =>
    obtain ⟨fuel', rfl⟩ := Nat.exists_eq_succ_of_ne_zero (by omega : fuel' ≠ 0)
    obtain ⟨x, hx, h⟩ := Option.bind_eq_some_iff.1 h
    obtain ⟨inner, hinner, rfl⟩ := prepend_eq_some h
    have hopen := closing?_append_of_none hq hclosing
    simp only [List.cons_append] at hopen ⊢
    rw [multilineBasic, hopen, afterFold?_escape hx]
    · simp [hx, ih hinner (by omega : fuel ≤ fuel')]
    · simp [ne_of_escape? (d := 'u') hx rfl]
    · simp [ne_of_escape? (d := 'U') hx rfl]
  | case9 => cases h
  | case10 fuel c tail hreturn hescape hplain hclosing ih =>
    obtain ⟨fuel', rfl⟩ := Nat.exists_eq_succ_of_ne_zero (by omega : fuel' ≠ 0)
    obtain ⟨inner, hinner, rfl⟩ := prepend_eq_some h
    have hopen := closing?_append_of_none hq hclosing
    rw [List.cons_append] at hopen ⊢
    rw [multilineBasic, hopen]
    · simp [hplain, ih hinner (by omega : fuel ≤ fuel')]
    · rintro rest rfl
      simp [isPlain] at hplain
    · exact hescape
  | case11 => cases h

theorem multilineLiteral_append {fuel fuel' : Nat} (hq : ∀ c ∈ more.head?, c ≠ '\'')
    (h : multilineLiteral fuel cs = some (text, [])) (hf : fuel ≤ fuel') :
    multilineLiteral fuel' (cs ++ more) = some (text, more) := by
  fun_induction multilineLiteral fuel cs generalizing text fuel' with
  | case1 => cases h
  | case2 cs fuel result hclosing =>
    obtain ⟨fuel', rfl⟩ := Nat.exists_eq_succ_of_ne_zero (by omega : fuel' ≠ 0)
    cases h
    unfold multilineLiteral
    rw [closing?_append_of_some hq hclosing]
  | case3 => cases h
  | case4 fuel tail hclosing ih =>
    obtain ⟨fuel', rfl⟩ := Nat.exists_eq_succ_of_ne_zero (by omega : fuel' ≠ 0)
    obtain ⟨inner, hinner, rfl⟩ := prepend_eq_some h
    have hopen := closing?_append_of_none hq hclosing
    simp only [List.cons_append] at hopen ⊢
    rw [multilineLiteral, hopen]
    simp [ih hinner (by omega : fuel ≤ fuel')]
  | case5 fuel c tail hreturn hplain hclosing ih =>
    obtain ⟨fuel', rfl⟩ := Nat.exists_eq_succ_of_ne_zero (by omega : fuel' ≠ 0)
    obtain ⟨inner, hinner, rfl⟩ := prepend_eq_some h
    have hopen := closing?_append_of_none hq hclosing
    rw [List.cons_append] at hopen ⊢
    rw [multilineLiteral, hopen]
    · simp [hplain, ih hinner (by omega : fuel ≤ fuel')]
    · rintro rest rfl
      simp [isPlain] at hplain
  | case6 => cases h

theorem ne_of_multilineLiteral {fuel : Nat} (h : multilineLiteral fuel cs = some (text, [])) :
    cs ≠ [] ∧ cs ≠ ['\r'] := by
  constructor <;>
  · rintro rfl
    cases fuel <;> cases h

theorem afterOpening_append (hne : afterOpening cs ≠ []) (hcr : afterOpening cs ≠ ['\r'])
    (more : List Char) : afterOpening (cs ++ more) = afterOpening cs ++ more := by
  have hne' : cs ≠ [] := by
    rintro rfl
    exact hne rfl
  have hcr' : cs ≠ ['\r'] := by
    rintro rfl
    exact hcr rfl
  unfold afterOpening
  rw [afterNewline?_append hne' hcr']
  cases afterNewline? cs <;> rfl

theorem append_ne_quotes {quote : Char} (hne : cs ≠ []) (hq : ∀ c ∈ more.head?, c ≠ quote)
    (h : ∀ rest, cs ≠ quote :: quote :: rest) (rest : List Char) :
    cs ++ more ≠ quote :: quote :: rest := by
  intro heq
  match cs, hne with
  | [c], _ =>
    obtain ⟨-, rfl⟩ := List.cons.inj heq
    exact hq quote rfl rfl
  | c :: d :: tail, _ =>
    obtain ⟨rfl, htail⟩ := List.cons.inj heq
    obtain ⟨rfl, -⟩ := List.cons.inj htail
    exact h tail rfl

theorem string_append (hbasic : ∀ c ∈ more.head?, c ≠ '"')
    (hliteral : ∀ c ∈ more.head?, c ≠ '\'') (h : string cs = some (text, [])) :
    string (cs ++ more) = some (text, more) := by
  unfold string at h
  split at h
  · obtain ⟨hne, hcr⟩ := ne_of_multilineBasic h
    simp only [List.cons_append, string]
    rw [afterOpening_append hne hcr]
    exact multilineBasic_append hbasic h (by simp)
  · rename_i rest hthree
    have hne : rest ≠ [] := by
      rintro rfl
      cases h
    rw [List.cons_append, string]
    · exact basic_append h more
    · exact append_ne_quotes hne hbasic hthree
  · obtain ⟨hne, hcr⟩ := ne_of_multilineLiteral h
    simp only [List.cons_append, string]
    rw [afterOpening_append hne hcr]
    exact multilineLiteral_append hliteral h (by simp)
  · rename_i rest hthree
    have hne : rest ≠ [] := by
      rintro rfl
      cases h
    rw [List.cons_append, string]
    · exact literal_append h more
    · exact append_ne_quotes hne hliteral hthree
  · cases h

end Lexeme

/-! ## Words -/

namespace Number

variable {cs more : List Char} {v : Value}

theorem isWordChar_of_isStop {c : Char} (h : isStop c = true) : isWordChar c = false := by
  obtain rfl | rfl | rfl | rfl | rfl := eq_of_isStop h <;> decide

/-- A blank and a comment are no time, so that they do not make a date longer. -/
theorem word_append (hend : AtEnd more) (h : word cs = some (v, [])) :
    word (cs ++ more) = some (v, more) := by
  have hstop := hend.not_of fun c => isWordChar_of_isStop
  have htoken : (cs ++ more).takeWhile isWordChar = _ := takeWhile_append_of_stop hstop
  have hrest : (cs ++ more).dropWhile isWordChar = _ := dropWhile_append_of_stop hstop
  unfold word
  simp only [htoken, hrest]
  rcases cases_of_word h with ⟨later, hlater, hleft, hdate, htime, rfl⟩ | ⟨hleft, hv⟩
  · simp [hlater, takeWhile_append_of_stop hstop, dropWhile_append_of_stop hstop, hleft, hdate,
      htime]
  · -- The token is all of the text. A blank may follow, but no time after it.
    rw [hleft, List.nil_append, hv]
    split
    · rename_i later
      have hnone : later.takeWhile isWordChar = [] := by
        have hlater := hend.tail.not_of fun c => isWordChar_of_isStop
        cases later with
        | nil => rfl
        | cons c later => simp [hlater c rfl]
      simp [hnone, isTime]
    · rfl

theorem isWordChar_of_word {rest : List Char} (h : word cs = some (v, rest)) :
    ∃ c tail, cs = c :: tail ∧ isWordChar c = true := by
  have htoken : cs.takeWhile isWordChar ≠ [] := by
    intro hnil
    rcases cases_of_word h with ⟨-, -, -, hdate, -⟩ | ⟨-, hv⟩
    · rw [hnil] at hdate
      cases hdate
    · rw [hnil] at hv
      cases hv
  cases cs with
  | nil => exact absurd rfl htoken
  | cons c tail =>
    refine ⟨c, tail, rfl, ?_⟩
    by_contra hc
    exact htoken (List.takeWhile_cons_of_neg hc)

theorem integer?_lt {n : Int} (h : integer? cs = some n) : n < integerLimit := by
  have hrange : ∀ m : Int,
      (if -integerLimit ≤ m ∧ m < integerLimit then some m else none) = some n →
        n < integerLimit := by
    intro m hm
    split at hm
    · rename_i hlt
      cases hm
      exact hlt.2
    · cases hm
  unfold integer? at h
  dsimp only at h
  split at h
  all_goals
    split at h
    · exact hrange _ h
    · cases h

end Number

/-! ## Scalars -/

def Value.isScalar : Value → Bool
  | .string _ | .integer _ | .float _ | .boolean _ | .dateTime _ => true
  | _ => false

variable {cs more rest : List Char} {v : Value}

theorem value?_isScalar (h : Number.value? cs = some v) :
    v.isScalar = true ∧ ∀ n, v = .integer n → n < Number.integerLimit := by
  unfold Number.value? at h
  split at h
  · cases h
    simp [Value.isScalar]
  · split at h
    · cases h
      simp [Value.isScalar]
    · split at h
      · cases h
        simp [Value.isScalar]
      · split at h
        · rename_i n hn
          cases h
          exact ⟨rfl, fun m hm => Value.integer.inj hm ▸ Number.integer?_lt hn⟩
        · split at h
          · cases h
            simp [Value.isScalar]
          · cases h

theorem word_isScalar (h : Number.word cs = some (v, rest)) :
    v.isScalar = true ∧ ∀ n, v = .integer n → n < Number.integerLimit := by
  rcases Number.cases_of_word h with ⟨-, -, -, -, -, rfl⟩ | ⟨-, hv⟩
  · simp [Value.isScalar]
  · exact value?_isScalar hv

theorem cases_of_scalar (h : scalar cs = some (v, rest)) :
    (∃ quote tail text, cs = quote :: tail ∧ (quote = '"' ∨ quote = '\'') ∧
      string cs = some (text, rest) ∧ v = .string (String.ofList text)) ∨
    ∃ c tail, cs = c :: tail ∧ Number.isWordChar c = true ∧ Number.word cs = some (v, rest) := by
  unfold scalar at h
  split at h
  · obtain ⟨⟨text, left⟩, hstring, hpair⟩ := Option.map_eq_some_iff.1 h
    cases hpair
    exact .inl ⟨_, _, text, rfl, .inl rfl, hstring, rfl⟩
  · obtain ⟨⟨text, left⟩, hstring, hpair⟩ := Option.map_eq_some_iff.1 h
    cases hpair
    exact .inl ⟨_, _, text, rfl, .inr rfl, hstring, rfl⟩
  · obtain ⟨c, tail, hcs, hc⟩ := Number.isWordChar_of_word h
    exact .inr ⟨c, tail, hcs, hc, h⟩

theorem scalar_isScalar (h : scalar cs = some (v, rest)) :
    v.isScalar = true ∧ ∀ n, v = .integer n → n < Number.integerLimit := by
  rcases cases_of_scalar h with ⟨-, -, text, -, -, -, rfl⟩ | ⟨-, -, -, -, hword⟩
  · simp [Value.isScalar]
  · exact word_isScalar hword

theorem scalar_of_isWordChar {c : Char} (h : Number.isWordChar c = true) (tail : List Char) :
    scalar (c :: tail) = Number.word (c :: tail) := by
  unfold scalar
  split
  · rename_i heq
    exact absurd (List.cons.inj heq).1 (ne_of_class h (by decide))
  · rename_i heq
    exact absurd (List.cons.inj heq).1 (ne_of_class h (by decide))
  · rfl

theorem scalar_append (hend : AtEnd more) (h : scalar cs = some (v, [])) :
    scalar (cs ++ more) = some (v, more) := by
  rcases cases_of_scalar h with ⟨quote, tail, text, rfl, hquote, hstring, rfl⟩ |
    ⟨c, tail, rfl, hc, hword⟩
  · have hne : ∀ quote, isStop quote = false → ∀ c ∈ more.head?, c ≠ quote :=
      fun quote hquote c hc => ne_of_class (hend.head c hc) hquote
    have hreads := string_append (hne '"' (by decide)) (hne '\'' (by decide)) hstring
    rw [List.cons_append] at hreads ⊢
    rcases hquote with rfl | rfl <;> simp [scalar, hreads]
  · have hreads := Number.word_append hend hword
    rw [List.cons_append] at hreads ⊢
    rw [scalar_of_isWordChar hc, hreads]

/-- A text that stands for a value by itself. -/
structure Literal where
  text : String
  value : Value
  reads : scalar text.toList = some (value, [])

namespace Literal

variable (l : Literal)

theorem isScalar_value : l.value.isScalar = true := (scalar_isScalar l.reads).1

theorem integer_lt {n : Int} (h : l.value = .integer n) : n < Number.integerLimit :=
  (scalar_isScalar l.reads).2 n h

theorem head : ∃ c tail, l.text.toList = c :: tail ∧ isBlank c = false ∧ c ≠ '[' ∧ c ≠ '{' := by
  rcases cases_of_scalar l.reads with ⟨quote, tail, -, htext, rfl | rfl, -⟩ |
    ⟨c, tail, htext, hc, -⟩
  · exact ⟨_, tail, htext, by decide, by decide, by decide⟩
  · exact ⟨_, tail, htext, by decide, by decide, by decide⟩
  · have hne : ∀ d, Number.isWordChar d = false → c ≠ d := fun d => ne_of_class hc
    refine ⟨c, tail, htext, ?_, hne '[' (by decide), hne '{' (by decide)⟩
    simp [isBlank, hne ' ' (by decide), hne '\t' (by decide)]

theorem afterBlanks_append (more : List Char) :
    afterBlanks (l.text.toList ++ more) = l.text.toList ++ more := by
  obtain ⟨c, tail, htext, hblank, -⟩ := l.head
  rw [htext, List.cons_append, afterBlanks_cons hblank]

theorem value_append (depth : Nat) (hend : AtEnd more) :
    Toml.value (depth + 1) (l.text.toList ++ more) = some (l.value, more) := by
  obtain ⟨c, tail, htext, -, harray, htable⟩ := l.head
  have hreads := scalar_append hend l.reads
  rw [htext, List.cons_append] at hreads ⊢
  exact value_of_scalar depth harray htable hreads

end Literal

end SlotPool.Toml
