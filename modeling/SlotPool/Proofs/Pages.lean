import SlotPool.Proofs.Amendments

/-!
# Pages

A page is a text of lines at the top of a document, each empty or with a scalar for a bare key, and
maybe of tables after them. What it stands for is told by its lines and by what the tables stand
for by themselves, wherever blanks, comments and empty lines may be.
-/

namespace SlotPool.Toml

open Lexeme Entries

/-! ## The parts of a page -/

/-- Blanks, or nothing. -/
structure Blanks where
  chars : List Char
  blank : ∀ c ∈ chars, isBlank c = true

/-- What may follow on a line: blanks, and a comment after its sign. -/
structure Margin where
  blanks : Blanks
  comment : Option String
  plain : ∀ text ∈ comment, ∀ c ∈ text.toList, isPlain c = true

namespace Margin

def note (m : Margin) : List Char :=
  match m.comment with
  | none => []
  | some text => '#' :: text.toList

def chars (m : Margin) : List Char := m.blanks.chars ++ m.note

end Margin

/-- A bare key, an equals sign between blanks, and a scalar. -/
structure Assignment where
  name : String
  bare : IsBare name.toList
  before : Blanks
  after : Blanks
  literal : Literal

namespace Assignment

def entry (a : Assignment) : String × Value := (a.name, a.literal.value)

def chars (a : Assignment) : List Char :=
  a.name.toList ++ (a.before.chars ++ '=' :: (a.after.chars ++ a.literal.text.toList))

end Assignment

inductive Line where
  | empty (margin : Margin)
  | assigns (indent : Blanks) (a : Assignment) (margin : Margin)

namespace Line

def entries : Line → Entries
  | empty _ => []
  | assigns _ a _ => [a.entry]

def chars : Line → List Char
  | empty margin => margin.chars
  | assigns indent a margin => indent.chars ++ (a.chars ++ margin.chars)

end Line

inductive LineEnd where
  | feed
  | returnFeed

def LineEnd.chars : LineEnd → List Char
  | feed => ['\n']
  | returnFeed => ['\r', '\n']

/-- What a page ends with: a line without a line end, or tables. -/
inductive Ending where
  | line (last : Line)
  | tables (text : String) (opens : (afterBlanks text.toList).head? = some '[')

namespace Ending

def entries : Ending → Entries
  | line last => last.entries
  | tables _ _ => []

def chars : Ending → List Char
  | line last => last.chars
  | tables text _ => text.toList

def tablesText : Ending → String
  | line _ => ""
  | tables text _ => text

end Ending

structure Page where
  lines : List (Line × LineEnd)
  ending : Ending

namespace Page

def chars (p : Page) : List Char :=
  p.lines.flatMap (fun line => line.1.chars ++ line.2.chars) ++ p.ending.chars

def text (p : Page) : String := String.ofList p.chars

def assigned (p : Page) : Entries := p.lines.flatMap (·.1.entries) ++ p.ending.entries

def tables (p : Page) : Entries := (Document.read? p.ending.tablesText).getD []

end Page

/-! ## Reading a line -/

namespace Lexeme

variable {cs rest stop : List Char}

theorem afterBlanks_append (b : Blanks) (cs : List Char) :
    afterBlanks (b.chars ++ cs) = afterBlanks cs :=
  List.dropWhile_append_of_pos b.blank

/-- The line stops there: at the end of the text, or at a line end with `rest` after it. -/
def Stops (stop rest : List Char) : Prop :=
  (stop = [] ∧ rest = []) ∨ ∃ lineEnd : LineEnd, stop = lineEnd.chars ++ rest

theorem Stops.head (h : Stops stop rest) : ∀ c ∈ stop.head?, c = '\n' ∨ c = '\r' := by
  rcases h with ⟨rfl, -⟩ | ⟨lineEnd, rfl⟩
  · simp
  · cases lineEnd <;> simp [LineEnd.chars]

theorem Stops.dropWhile (h : Stops stop rest) {p : Char → Bool} (hfeed : p '\n' = false)
    (hreturn : p '\r' = false) : stop.dropWhile p = stop := by
  cases stop with
  | nil => rfl
  | cons c stop =>
    have hc : p c = false := by
      rcases h.head c rfl with rfl | rfl
      · exact hfeed
      · exact hreturn
    simp [hc]

theorem afterBlanks_margin (h : Stops stop rest) (m : Margin) :
    afterBlanks (m.chars ++ stop) = m.note ++ stop := by
  rw [Margin.chars, List.append_assoc, afterBlanks_append]
  unfold Margin.note
  split
  · exact h.dropWhile (by decide) (by decide)
  · exact afterBlanks_cons (by decide) _

theorem atEnd_margin (h : Stops stop rest) (m : Margin) : AtEnd (m.chars ++ stop) := by
  intro c hc
  rw [afterBlanks_margin h] at hc
  unfold Margin.note at hc
  split at hc
  · exact .inr (h.head c hc)
  · cases hc
    exact .inl rfl

theorem afterComment_note (h : Stops stop rest) (m : Margin) :
    afterComment (m.note ++ stop) = stop := by
  unfold Margin.note
  split
  · unfold afterComment
    split
    · rename_i hcons
      exact absurd (h.head '#' (by rw [List.nil_append] at hcons; rw [hcons]; rfl)) (by decide)
    · rfl
  · rename_i text htext
    rw [List.cons_append, afterComment, List.dropWhile_append_of_pos (m.plain text htext)]
    exact h.dropWhile (by decide) (by decide)

theorem afterLine?_margin (h : Stops stop rest) (m : Margin) :
    afterLine? (m.chars ++ stop) = some rest := by
  unfold afterLine?
  rw [afterBlanks_margin h, afterComment_note h]
  rcases h with ⟨rfl, rfl⟩ | ⟨lineEnd, rfl⟩
  · rfl
  · cases lineEnd <;> rfl

end Lexeme

namespace Document

variable {entries : Entries} {stop rest : List Char}

theorem line?_empty (h : Stops stop rest) (m : Margin) (hne : m.note ++ stop ≠ [])
    (doc : Document) : line? doc (m.chars ++ stop) = some (doc, rest) := by
  have hend := atEnd_margin h m
  have hline := afterLine?_margin h m
  obtain ⟨c, cs, hcs⟩ := List.exists_cons_of_ne_nil hne
  rw [AtEnd, afterBlanks_margin h, hcs] at hend
  unfold line?
  rw [afterBlanks_margin h, hcs, hline]
  rcases hend c rfl with rfl | rfl | rfl <;> rfl

theorem readOn_empty (h : Stops stop rest) (m : Margin) (doc : Document) :
    readOn doc (m.chars ++ stop) = readOn doc rest := by
  rw [readOn_eq, afterBlanks_margin h]
  split
  · rename_i hnil
    rcases h with ⟨rfl, rfl⟩ | ⟨lineEnd, rfl⟩
    · rfl
    · cases lineEnd <;> simp [LineEnd.chars] at hnil
  · rename_i hne
    rw [line?_empty h m hne]
    rfl

theorem assignment?_chars (h : Stops stop rest) (a : Assignment) (m : Margin) :
    assignment? ⟨entries, []⟩ (a.chars ++ (m.chars ++ stop)) =
      (entries.add? a.name a.literal.value).map fun next => (⟨next, []⟩, rest) := by
  have hkey := key_bare a.bare a.before.blank
    (a.after.chars ++ (a.literal.text.toList ++ (m.chars ++ stop)))
  have hvalue : value (depthLimit - 1) _ = _ := a.literal.value_append 78 (atEnd_margin h m)
  have hline := afterLine?_margin h m
  have hchars : a.chars ++ (m.chars ++ stop) = a.name.toList ++ (a.before.chars ++ '=' ::
      (a.after.chars ++ (a.literal.text.toList ++ (m.chars ++ stop)))) := by
    simp [Assignment.chars]
  rw [String.ofList_toList] at hkey
  rw [assignment?, hchars, hkey]
  simp only [Option.bind_eq_bind, Option.bind_some, afterBlanks_append,
    a.literal.afterBlanks_append, hvalue, hline, descend, assign]
  cases entries.add? a.name a.literal.value <;> rfl

theorem afterBlanks_assigns (indent : Blanks) (a : Assignment) (m : Margin) (stop : List Char) :
    ∃ c cs, isBareKey c = true ∧ a.chars ++ (m.chars ++ stop) = c :: cs ∧
      afterBlanks ((Line.assigns indent a m).chars ++ stop) = c :: cs := by
  obtain ⟨c, cs, hcs⟩ := List.exists_cons_of_ne_nil a.bare.1
  have hc : isBareKey c = true := a.bare.2 c (by simp [hcs])
  have hchars : a.chars ++ (m.chars ++ stop) = c :: (cs ++ (a.before.chars ++ '=' ::
      (a.after.chars ++ (a.literal.text.toList ++ (m.chars ++ stop))))) := by
    simp [Assignment.chars, hcs]
  refine ⟨c, _, hc, hchars, ?_⟩
  rw [Line.chars, List.append_assoc, afterBlanks_append, List.append_assoc, hchars]
  exact afterBlanks_cons (isBlank_of_isBareKey hc) _

theorem readOn_assigns (h : Stops stop rest) (indent : Blanks) (a : Assignment) (m : Margin) :
    readOn ⟨entries, []⟩ ((Line.assigns indent a m).chars ++ stop) =
      (entries.add? a.name a.literal.value).bind fun next => readOn ⟨next, []⟩ rest := by
  obtain ⟨c, cs, hc, hchars, hstart⟩ := afterBlanks_assigns indent a m stop
  have hne : ∀ d, isBareKey d = false → ∀ tail,
      afterBlanks ((Line.assigns indent a m).chars ++ stop) ≠ d :: tail := by
    intro d hd tail heq
    rw [hstart] at heq
    exact ne_of_class hc hd (List.cons.inj heq).1
  rw [readOn_eq, line?_assignment (hne _ (by decide)) (hne _ (by decide)) (hne _ (by decide))
    (hne _ (by decide)), hstart, if_neg (List.cons_ne_nil _ _), ← hchars, assignment?_chars h]
  cases entries.add? a.name a.literal.value <;> rfl

theorem readOn_line (h : Stops stop rest) (hnodup : entries.names.Nodup) (line : Line) :
    readOn ⟨entries, []⟩ (line.chars ++ stop) =
      if (entries ++ line.entries).names.Nodup then readOn ⟨entries ++ line.entries, []⟩ rest
      else none := by
  cases line with
  | empty m => simp [Line.entries, Line.chars, hnodup, readOn_empty h m]
  | assigns indent a m =>
    rw [readOn_assigns h, add?_eq hnodup]
    exact apply_ite (Option.bind · fun next => readOn ⟨next, []⟩ rest) _ _ _

theorem readOn_lines (lines : List (Line × LineEnd)) (hnodup : entries.names.Nodup) :
    readOn ⟨entries, []⟩ (lines.flatMap (fun line => line.1.chars ++ line.2.chars) ++ rest) =
      if (entries ++ lines.flatMap (·.1.entries)).names.Nodup then
        readOn ⟨entries ++ lines.flatMap (·.1.entries), []⟩ rest
      else none := by
  induction lines generalizing entries with
  | nil => simp [hnodup]
  | cons line lines ih =>
    have hstops : Stops (line.2.chars ++ (lines.flatMap
        (fun line => line.1.chars ++ line.2.chars) ++ rest)) _ := .inr ⟨line.2, rfl⟩
    have hline := readOn_line hstops hnodup line.1
    simp only [List.flatMap_cons, List.append_assoc] at hline ⊢
    rw [hline]
    -- The values of the line are among those in front of the lines that are left.
    split
    · rename_i hnodup'
      rw [ih hnodup', List.append_assoc]
    · rename_i hclash
      rw [if_neg]
      rw [← List.append_assoc, names_append]
      exact fun hall => hclash hall.of_append_left

end Document

/-! ## Reading a page -/

namespace Page

variable (p : Page)

theorem exists_literal {e : String × Value} (he : e ∈ p.assigned) :
    ∃ l : Literal, e.2 = l.value := by
  have hline : ∀ line : Line, e ∈ line.entries → ∃ l : Literal, e.2 = l.value := by
    intro line he
    cases line with
    | empty m => cases he
    | assigns indent a m =>
      obtain rfl := List.mem_singleton.1 he
      exact ⟨a.literal, rfl⟩
  rcases List.mem_append.1 he with he | he
  · obtain ⟨line, -, he⟩ := List.mem_flatMap.1 he
    exact hline line.1 he
  · cases hending : p.ending with
    | line last =>
      rw [hending] at he
      exact hline last he
    | tables text opens =>
      rw [hending] at he
      cases he

theorem scalars_assigned : p.assigned.Scalars := by
  intro e he
  obtain ⟨l, hl⟩ := p.exists_literal he
  rw [hl]
  exact l.isScalar_value

end Page

namespace Document

variable {entries : Entries} {stop rest : List Char}

theorem afterMark_eq {cs : List Char} (h : (afterBlanks cs).head? ≠ some '\uFEFF') :
    afterMark cs = cs := by
  unfold afterMark
  split
  · rw [afterBlanks_cons (by decide)] at h
    exact absurd rfl h
  · rfl

theorem nodup_of_readOn {cs : List Char} {doc : Document} (h : readOn {} cs = some doc) :
    doc.entries.names.Nodup := (names_of_lines? h).2 List.nodup_nil

theorem afterBlanks_line (line : Line) (h : Stops stop rest) :
    (afterBlanks (line.chars ++ stop)).head? ≠ some '\uFEFF' := by
  cases line with
  | empty m =>
    intro hmark
    rcases atEnd_margin h m _ hmark with heq | heq | heq <;> cases heq
  | assigns indent a m =>
    obtain ⟨c, cs, hc, -, hstart⟩ := afterBlanks_assigns indent a m stop
    rw [hstart]
    rintro ⟨⟩
    cases hc

theorem afterMark_chars (p : Page) : afterMark p.chars = p.chars := by
  refine afterMark_eq ?_
  unfold Page.chars
  cases p.lines with
  | nil =>
    cases p.ending with
    | line last =>
      have hline := afterBlanks_line last (.inl ⟨rfl, rfl⟩)
      rwa [List.append_nil] at hline
    | tables text opens =>
      rw [List.flatMap_nil, List.nil_append, Ending.chars, opens]
      decide
  | cons line lines =>
    rw [List.flatMap_cons, List.append_assoc, List.append_assoc]
    exact afterBlanks_line line.1 (.inr ⟨line.2, rfl⟩)

theorem read?_of_afterMark {text : String} (h : afterMark text.toList = text.toList) :
    read? text = (readOn {} text.toList).map (·.entries) := by
  unfold read?
  rw [h]
  rfl

theorem nodup_append_iff {first own : Entries} (hfirst : first.names.Nodup)
    (hown : own.names.Nodup) : (first ++ own).names.Nodup ↔ Apart first own := by
  rw [names_append, List.nodup_append']
  exact ⟨fun h name hname => h.2.2 hname, fun h => ⟨hfirst, hown, fun name => h name⟩⟩

theorem readOn_ending (hnodup : entries.names.Nodup) (hscalars : entries.Scalars)
    (ending : Ending) : (readOn ⟨entries, []⟩ ending.chars).map (·.entries) =
      (read? ending.tablesText).bind fun own =>
        if (entries ++ ending.entries ++ own).names.Nodup then
          some (entries ++ ending.entries ++ own)
        else none := by
  cases ending with
  | line last =>
    have hline := readOn_line (.inl ⟨rfl, rfl⟩) hnodup last
    have hempty : read? (Ending.line last).tablesText = some [] := rfl
    rw [List.append_nil] at hline
    rw [hempty, Ending.chars, hline, Option.bind_some, Ending.entries, List.append_nil]
    split <;> rfl
  | tables text opens =>
    have hmark : afterMark text.toList = text.toList := afterMark_eq (by rw [opens]; decide)
    have hafter : readOn (after entries {}) text.toList = _ :=
      readOn_after hscalars (by simp [Apart]) text.toList
    have hdoc : after entries {} = ⟨entries, []⟩ := by simp [after]
    rw [hdoc] at hafter
    rw [Ending.tablesText, read?_of_afterMark hmark, Ending.chars, hafter, Ending.entries,
      List.append_nil]
    cases hown : readOn {} text.toList with
    | none => rfl
    | some doc =>
      have hiff := nodup_append_iff hnodup (nodup_of_readOn hown)
      simp only [Option.bind_some, Option.map_some, hiff]
      split <;> rfl

/-- A page is read as the values of its lines and then the tables, unless a name comes twice. -/
theorem read?_text (p : Page) : read? p.text = (read? p.ending.tablesText).bind fun own =>
    if (p.assigned ++ own).names.Nodup then some (p.assigned ++ own) else none := by
  have hmark : afterMark p.text.toList = p.text.toList := by
    rw [Page.text, String.toList_ofList, afterMark_chars]
  have hlines : readOn ⟨[], []⟩ p.chars = _ := readOn_lines p.lines List.nodup_nil
  have hscalars : Scalars (p.lines.flatMap (·.1.entries)) := fun e he =>
    p.scalars_assigned e (List.mem_append_left _ he)
  rw [read?_of_afterMark hmark, Page.text, String.toList_ofList, hlines]
  simp only [List.nil_append]
  split
  · rename_i hnodup
    exact readOn_ending hnodup hscalars p.ending
  · rename_i hclash
    have hnone : ∀ own : Entries, ¬ (p.assigned ++ own).names.Nodup := by
      intro own hall
      rw [Page.assigned, List.append_assoc, names_append] at hall
      exact hclash hall.of_append_left
    cases read? p.ending.tablesText with
    | none => rfl
    | some own => exact (if_neg (hnone own)).symm

theorem isSome_read?_text (p : Page) : (read? p.text).isSome = true ↔
    (read? p.ending.tablesText).isSome = true ∧ (p.assigned ++ p.tables).names.Nodup := by
  rw [read?_text, Page.tables]
  cases read? p.ending.tablesText with
  | none => simp
  | some own => by_cases h : (p.assigned ++ own).names.Nodup <;> simp_all

theorem read?_text_eq_some {p : Page} (h : (read? p.text).isSome = true) :
    read? p.text = some (p.assigned ++ p.tables) := by
  obtain ⟨hown, hnodup⟩ := (isSome_read?_text p).1 h
  obtain ⟨own, hown⟩ := Option.isSome_iff_exists.1 hown
  rw [Page.tables, hown, Option.getD_some] at hnodup ⊢
  rw [read?_text, hown, Option.bind_some, if_pos hnodup]

end Document

end SlotPool.Toml
