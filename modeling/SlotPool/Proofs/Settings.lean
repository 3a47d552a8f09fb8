import SlotPool.Proofs.Configs
import SlotPool.Proofs.Pages
import Mathlib.Data.List.Perm.Subperm

/-!
# A configuration is told by its settings alone

A page gives a configuration the settings that it names, in whatever order, and the defaults for
those it does not. Other lines, and tables, say nothing to it, whatever stands in them.
-/

namespace SlotPool.Config

open Toml Toml.Entries

def sizeNames : List String := ["block_size", "buffer_size", "backoff_micros"]

/-- The names that mean something to a configuration. -/
def settings : List String := sizeNames ++ ["growth_policy"]

/-- Sizes are integers from zero on, and the policy is a string that names one. -/
def OfKind (e : String × Value) : Prop :=
  (e.1 ∈ sizeNames → ∃ n : Nat, n ≤ 2 ^ 63 - 1 ∧ e.2 = .integer n) ∧
    (e.1 = "growth_policy" → ∃ policy : GrowthPolicy, e.2 = .string policy.name)

/-- The configuration with one setting put in the place of what it had. -/
def override (c : Config) : String × Value → Config
  | ("block_size", .integer n) => { c with blockSize := n.toNat }
  | ("buffer_size", .integer n) => { c with bufferSize := some n.toNat }
  | ("backoff_micros", .integer n) => { c with backoffMicros := n.toNat }
  | ("growth_policy", .string name) =>
    { c with growthPolicy := (GrowthPolicy.ofName? name).getD c.growthPolicy }
  | _ => c

/-! ## The kinds of values -/

variable {v : Value} {entries entries' : Entries}

theorem size?_eq_some {n : Nat} : size? v = some n ↔ v = .integer n := by
  unfold size?
  split
  · split
    · simp
      omega
    · simp
      omega
  · rename_i hne
    simp only [reduceCtorEq, false_iff]
    exact hne _

theorem ofName?_eq_some {text : String} {policy : GrowthPolicy} :
    GrowthPolicy.ofName? text = some policy ↔ text = policy.name := by
  constructor
  · intro h
    unfold GrowthPolicy.ofName? at h
    split at h <;> cases h <;> rfl
  · rintro rfl
    exact GrowthPolicy.ofName?_name policy

theorem policy?_eq_some (hv : v.isScalar = true) {policy : GrowthPolicy} :
    policy? v = some policy ↔ v = .string policy.name := by
  cases v with
  | string text => simp [policy?, ofName?_eq_some]
  | integer | float | boolean | dateTime | array => simp [policy?]
  | inlineTable | table | tables => cases hv

/-- The reader takes what stands under the name for one part of a configuration. -/
structure Sets {α : Type} (name : String) (part : Config → α) (read : Value → Option α) : Prop where
  takes : ∀ c v x, v.isScalar = true → read v = some x → part (override c (name, v)) = x
  keeps : ∀ c e, e.1 ≠ name → part (override c e) = part c

theorem sets_blockSize : Sets "block_size" blockSize size? := by
  constructor
  · intro c v n _ hv
    obtain rfl := size?_eq_some.1 hv
    rfl
  · intro c e hne
    unfold override
    split <;> first | rfl | exact absurd rfl hne

theorem sets_bufferSize : Sets "buffer_size" bufferSize fun v => (size? v).map some := by
  constructor
  · intro c v n _ hv
    obtain ⟨m, hm, rfl⟩ := Option.map_eq_some_iff.1 hv
    obtain rfl := size?_eq_some.1 hm
    rfl
  · intro c e hne
    unfold override
    split <;> first | rfl | exact absurd rfl hne

theorem sets_backoffMicros : Sets "backoff_micros" backoffMicros size? := by
  constructor
  · intro c v n _ hv
    obtain rfl := size?_eq_some.1 hv
    rfl
  · intro c e hne
    unfold override
    split <;> first | rfl | exact absurd rfl hne

theorem sets_growthPolicy : Sets "growth_policy" growthPolicy policy? := by
  constructor
  · intro c v policy hscalar hv
    obtain rfl := (policy?_eq_some hscalar).1 hv
    simp [override, GrowthPolicy.ofName?_name]
  · intro c e hne
    unfold override
    split <;> first | rfl | exact absurd rfl hne

variable {α : Type} {name : String} {part : Config → α} {read : Value → Option α}

theorem get?_cons (e : String × Value) :
    get? (e :: entries) name = if e.1 = name then some e.2 else entries.get? name := by
  rw [get?, List.lookup_cons, get?]
  by_cases h : e.1 = name
  · simp [h]
  · have hne : (name == e.1) = false := beq_false_of_ne (Ne.symm h)
    rw [hne, if_neg h]

/-- A part is what its setting gives, or what it was, wherever in the list the setting stands. -/
theorem field?_eq (h : Sets name part read) (hnodup : entries.names.Nodup)
    (hscalars : entries.Scalars)
    (hread : ∀ v, entries.get? name = some v → (read v).isSome = true) (c : Config) :
    field? entries name read (part c) = some (part (entries.foldl override c)) := by
  induction entries generalizing c with
  | nil => rfl
  | cons e entries ih =>
    obtain ⟨hnew, hnodup⟩ := List.nodup_cons.1 hnodup
    have hrest := ih hnodup fun e he => hscalars e (List.mem_cons_of_mem _ he)
    rw [List.foldl_cons]
    unfold field? at hrest ⊢
    simp only [get?_cons] at hread ⊢
    by_cases hname : e.1 = name
    · subst hname
      -- The name does not come again, so that the part stays as it is here.
      have hnone : get? entries e.1 = none := get?_eq_none.2 hnew
      obtain ⟨x, hx⟩ := Option.isSome_iff_exists.1 (hread e.2 (if_pos rfl))
      have htakes := h.takes c e.2 x (hscalars e (by simp)) hx
      have hlast := hrest (by simp [hnone]) (override c e)
      rw [hnone] at hlast
      rw [if_pos rfl, ← hlast, htakes]
      exact hx
    · simp only [if_neg hname] at hread ⊢
      rw [← h.keeps c e hname]
      exact hrest hread (override c e)

/-! ## What is read of a table -/

theorem ofEntries?_congr (h : ∀ name ∈ settings, entries.get? name = entries'.get? name) :
    ofEntries? entries = ofEntries? entries' := by
  simp only [ofEntries?, field?, h "block_size" (by decide), h "buffer_size" (by decide),
    h "backoff_micros" (by decide), h "growth_policy" (by decide)]

theorem ofEntries?_append (h : ∀ name ∈ entries'.names, name ∉ settings) :
    ofEntries? (entries ++ entries') = ofEntries? entries := by
  refine ofEntries?_congr fun name hname => ?_
  by_cases hmem : name ∈ entries.names
  · obtain ⟨v, hv⟩ := exists_get? hmem
    rw [hv, get?_append_of_some hv]
  · rw [get?_append hmem, get?_eq_none.2 hmem, get?_eq_none.2 fun hown => h name hown hname]

/-- The settings of a table. -/
def known (entries : Entries) : Entries := entries.filter fun e => e.1 ∈ settings

theorem get?_known (hname : name ∈ settings) : (known entries).get? name = entries.get? name := by
  induction entries with
  | nil => rfl
  | cons e entries ih =>
    rw [known, List.filter_cons, ← known]
    by_cases he : e.1 = name
    · simp [he, hname, get?_cons]
    · split <;> simp [get?_cons, he, ih]

theorem get?_eq_some (hnodup : entries.names.Nodup) :
    entries.get? name = some v ↔ (name, v) ∈ entries := by
  refine ⟨mem_of_get?, fun hmem => ?_⟩
  induction entries with
  | nil => cases hmem
  | cons e entries ih =>
    obtain ⟨hnew, hnodup⟩ := List.nodup_cons.1 hnodup
    rw [get?_cons]
    rcases List.mem_cons.1 hmem with rfl | hmem
    · rw [if_pos rfl]
    · have hne : e.1 ≠ name := by
        rintro rfl
        exact hnew (List.mem_map.2 ⟨_, hmem, rfl⟩)
      rw [if_neg hne, ih hnodup hmem]

theorem get?_perm (h : entries.Perm entries') (hnodup : entries.names.Nodup) :
    entries.get? name = entries'.get? name := by
  have hnodup' : entries'.names.Nodup := (h.map Prod.fst).nodup hnodup
  refine Option.ext fun v => ?_
  rw [get?_eq_some hnodup, get?_eq_some hnodup', h.mem_iff]

theorem ofEntries?_perm (h : (known entries).Perm (known entries'))
    (hnodup : entries.names.Nodup) : ofEntries? entries = ofEntries? entries' := by
  have hknown : (known entries).names.Nodup := hnodup.sublist (List.filter_sublist.map Prod.fst)
  refine ofEntries?_congr fun name hname => ?_
  rw [← get?_known hname, get?_perm h hknown, get?_known hname]

/-- The values of all settings can be read. -/
structure Readable (entries : Entries) : Prop where
  sizes : ∀ name ∈ sizeNames, ∀ v, entries.get? name = some v → (size? v).isSome = true
  policy : ∀ v, entries.get? "growth_policy" = some v → (policy? v).isSome = true

theorem Readable.ofEntries?_eq (h : Readable entries) (hnodup : entries.names.Nodup)
    (hscalars : entries.Scalars) : ofEntries? entries = some (entries.foldl override {}) := by
  have hblock := field?_eq sets_blockSize hnodup hscalars (h.sizes _ (by decide)) {}
  have hbuffer := field?_eq sets_bufferSize hnodup hscalars
    (fun v hv => by rw [Option.isSome_map, h.sizes _ (by decide) v hv]) {}
  have hbackoff := field?_eq sets_backoffMicros hnodup hscalars (h.sizes _ (by decide)) {}
  have hpolicy := field?_eq sets_growthPolicy hnodup hscalars h.policy {}
  rw [ofEntries?, hblock, hbuffer, hbackoff, hpolicy]
  rfl

theorem readable_of_ofEntries? {c : Config} (h : ofEntries? entries = some c) :
    Readable entries := by
  obtain ⟨blockSize, hblock, h⟩ := Option.bind_eq_some_iff.1 h
  obtain ⟨bufferSize, hbuffer, h⟩ := Option.bind_eq_some_iff.1 h
  obtain ⟨backoffMicros, hbackoff, h⟩ := Option.bind_eq_some_iff.1 h
  obtain ⟨policy, hpolicy, -⟩ := Option.bind_eq_some_iff.1 h
  constructor
  · intro name hname v hv
    simp only [sizeNames, List.mem_cons, List.not_mem_nil, or_false] at hname
    rcases hname with rfl | rfl | rfl
    · rw [field?, hv] at hblock
      exact Option.isSome_of_eq_some hblock
    · rw [field?, hv] at hbuffer
      rw [← Option.isSome_map]
      exact Option.isSome_of_eq_some hbuffer
    · rw [field?, hv] at hbackoff
      exact Option.isSome_of_eq_some hbackoff
  · intro v hv
    rw [field?, hv] at hpolicy
    exact Option.isSome_of_eq_some hpolicy

theorem isSome_size? (l : Literal) :
    (size? l.value).isSome = true ↔ ∃ n : Nat, n ≤ 2 ^ 63 - 1 ∧ l.value = .integer n := by
  rw [Option.isSome_iff_exists]
  refine exists_congr fun n => ?_
  rw [size?_eq_some]
  refine ⟨fun hn => ⟨?_, hn⟩, fun hn => hn.2⟩
  have hlt := l.integer_lt hn
  rw [Number.integerLimit] at hlt
  omega

theorem readable_iff (hnodup : entries.names.Nodup)
    (hliterals : ∀ e ∈ entries, ∃ l : Literal, e.2 = l.value) :
    Readable entries ↔ ∀ e ∈ entries, OfKind e := by
  constructor
  · intro h e he
    obtain ⟨l, hl⟩ := hliterals e he
    have hget : entries.get? e.1 = some e.2 := (get?_eq_some hnodup).2 he
    refine ⟨fun hname => ?_, fun hname => ?_⟩
    · rw [hl] at hget ⊢
      exact (isSome_size? l).1 (h.sizes e.1 hname _ hget)
    · rw [hname] at hget
      obtain ⟨policy, hpolicy⟩ := Option.isSome_iff_exists.1 (h.policy _ hget)
      rw [hl] at hpolicy ⊢
      exact ⟨policy, (policy?_eq_some l.isScalar_value).1 hpolicy⟩
  · intro h
    constructor
    · intro name hname v hv
      have hmem := mem_of_get? hv
      obtain ⟨l, rfl⟩ := hliterals _ hmem
      exact (isSome_size? l).2 ((h _ hmem).1 hname)
    · intro v hv
      obtain ⟨policy, rfl⟩ := (h _ (mem_of_get? hv)).2 rfl
      exact Option.isSome_of_eq_some ((policy?_eq_some rfl).2 rfl)

theorem ofEntries?_assigned {p : Page} (hnodup : p.assigned.names.Nodup) {c : Config} :
    ofEntries? p.assigned = some c ↔
      (∀ e ∈ p.assigned, OfKind e) ∧ p.assigned.foldl override {} = c := by
  rw [← readable_iff hnodup fun e => p.exists_literal]
  constructor
  · intro h
    have hreadable := readable_of_ofEntries? h
    rw [hreadable.ofEntries?_eq hnodup p.scalars_assigned] at h
    exact ⟨hreadable, Option.some.inj h⟩
  · rintro ⟨hreadable, rfl⟩
    exact hreadable.ofEntries?_eq hnodup p.scalars_assigned

/-! ## Sheets -/

/-- A page that is a document, without the name of a setting among those of its tables. -/
structure IsSheet (p : Page) : Prop where
  reads : (Document.read? p.text).isSome = true
  foreign : ∀ name ∈ p.tables.names, name ∉ settings

variable {p p' : Page}

theorem IsSheet.nodup (hp : IsSheet p) : (p.assigned ++ p.tables).names.Nodup :=
  ((Document.isSome_read?_text p).1 hp.reads).2

theorem IsSheet.nodup_assigned (hp : IsSheet p) : p.assigned.names.Nodup := by
  have hnodup := hp.nodup
  rw [names_append] at hnodup
  exact hnodup.of_append_left

theorem nodup_of_subperm (h : entries.Subperm entries') (hnodup : entries'.names.Nodup) :
    entries.names.Nodup := by
  obtain ⟨between, hperm, hsub⟩ := h
  exact (hperm.map Prod.fst).nodup (hnodup.sublist (hsub.map Prod.fst))

theorem IsSheet.of_subperm (hp : IsSheet p) (hlines : p'.assigned.Subperm p.assigned)
    (htables : p'.ending.tablesText = p.ending.tablesText ∨ p'.ending.tablesText = "") :
    IsSheet p' := by
  obtain ⟨hread, hnodup⟩ := (Document.isSome_read?_text p).1 hp.reads
  have htables' : (Document.read? p'.ending.tablesText).isSome = true ∧
      p'.tables.Sublist p.tables := by
    unfold Page.tables
    rcases htables with heq | hnone
    · rw [heq]
      exact ⟨hread, .refl _⟩
    · rw [hnone]
      exact ⟨rfl, List.nil_sublist _⟩
  refine ⟨(Document.isSome_read?_text p').2 ⟨htables'.1, ?_⟩, fun name hname => ?_⟩
  · exact nodup_of_subperm (hlines.append htables'.2.subperm) hnodup
  · exact hp.foreign name ((htables'.2.map Prod.fst).subset hname)

theorem IsSheet.ofToml_eq (hp : IsSheet p) : ofToml p.text =
    match ofEntries? p.assigned with
    | none => .error (.invalidConfig .malformed)
    | some c => c.validate.map fun _ => c := by
  rw [ofToml, Document.read?_text_eq_some hp.reads, Option.bind_some,
    ofEntries?_append hp.foreign]
  cases ofEntries? p.assigned with
  | none => rfl
  | some c => cases hc : c.validate <;> simp [hc, Except.map, bind, Except.bind, pure, Except.pure]

theorem validate_map_eq_ok {c c' : Config} :
    (c.validate.map fun _ => c) = .ok c' ↔ c = c' ∧ c'.validate = .ok () := by
  cases hc : c.validate with
  | ok u =>
    simp only [Except.map, Except.ok.injEq]
    exact ⟨fun heq => ⟨heq, heq ▸ hc⟩, And.left⟩
  | error e =>
    simp only [Except.map, reduceCtorEq, false_iff, not_and]
    rintro rfl
    simp [hc]

theorem validate_eq_error {c : Config} {e : PoolError} (h : c.validate = .error e) :
    ∃ fault, e = .invalidConfig fault := by
  unfold validate at h
  split at h
  · cases h
  · cases h
    exact ⟨_, rfl⟩

theorem ofToml_eq_error {text : String} {e : PoolError} (h : ofToml text = .error e) :
    ∃ fault, e = .invalidConfig fault := by
  unfold ofToml at h
  split at h
  · cases h
    exact ⟨_, rfl⟩
  · rename_i c _
    cases hc : c.validate with
    | ok u => simp [hc, bind, Except.bind, pure, Except.pure] at h
    | error e' =>
      simp only [hc, bind, Except.bind, Except.error.injEq] at h
      exact h ▸ validate_eq_error hc

/-- A sheet is read as the defaults with its settings put in their place, if all of these are of
their kind and the rules hold. Nothing else about it matters: neither the order of its lines, nor
the lines and tables that are no settings. -/
theorem ofToml_told_by_settings (p : Page) (hp : IsSheet p) :
    (∀ c, ofToml p.text = .ok c ↔
      (∀ e ∈ p.assigned, OfKind e) ∧ p.assigned.foldl override {} = c ∧ c.validate = .ok ()) ∧
    (∀ e, ofToml p.text = .error e → ∃ fault, e = .invalidConfig fault) ∧
    (∀ p', IsSheet p' → (known p'.assigned).Perm (known p.assigned) →
      ofToml p'.text = ofToml p.text) ∧
    ∀ p' : Page, p'.assigned.Subperm p.assigned →
      (p'.ending.tablesText = p.ending.tablesText ∨ p'.ending.tablesText = "") → IsSheet p' := by
  refine ⟨fun c => ?_, fun e => ofToml_eq_error, fun p' hp' hperm => ?_, fun p' => hp.of_subperm⟩
  · rw [hp.ofToml_eq, ← and_assoc, ← ofEntries?_assigned hp.nodup_assigned]
    cases ofEntries? p.assigned with
    | none => simp
    | some c' => rw [Option.some.injEq, validate_map_eq_ok]
  · rw [hp.ofToml_eq, hp'.ofToml_eq, ofEntries?_perm hperm hp'.nodup_assigned]

def noBlanks : Blanks := ⟨[], by simp⟩

def noMargin : Margin := ⟨noBlanks, none, by simp⟩

def blockLine : Assignment :=
  ⟨"block_size", by decide, noBlanks, noBlanks, "64", .integer 64, rfl⟩

def growthLine : Assignment :=
  ⟨"growth_policy", by decide, noBlanks, ⟨[' '], by simp [Lexeme.isBlank]⟩, "\"exact-fit\"",
    .string "exact-fit", rfl⟩

def ownerLine : Assignment :=
  ⟨"owner", by decide, noBlanks, noBlanks, "'tests'", .string "tests", rfl⟩

/-- A line for each, and the last without its line end. -/
def plain : Page :=
  ⟨[(.assigns noBlanks blockLine noMargin, .feed)], .line (.assigns noBlanks growthLine noMargin)⟩

/-- Settings among other lines, and a table with the name of a setting inside. -/
def mixed : Page :=
  ⟨[(.empty ⟨noBlanks, some " limits", by simp [Lexeme.isPlain]⟩, .feed),
    (.assigns noBlanks growthLine noMargin, .feed),
    (.assigns noBlanks ownerLine noMargin, .returnFeed),
    (.assigns noBlanks blockLine noMargin, .feed)],
    .tables "[pool]\nblock_size = 0\n" (by decide)⟩

theorem ofToml_told_by_settings_mixed :
    IsSheet mixed ∧ ofToml mixed.text = .ok { blockSize := 64, growthPolicy := .exactFit } ∧
      ofToml plain.text = ofToml mixed.text := by
  have hsheet : IsSheet mixed := by
    refine ⟨(Document.isSome_read?_text _).2 ⟨by decide +kernel, by decide +kernel⟩, ?_⟩
    decide +kernel
  obtain ⟨hok, -, hsame, hfewer⟩ := ofToml_told_by_settings mixed hsheet
  have hkinds : ∀ e ∈ mixed.assigned, OfKind e := by
    intro e he
    have hcases : e = growthLine.entry ∨ e = ownerLine.entry ∨ e = blockLine.entry := by
      simpa [mixed, Page.assigned, Line.entries, Ending.entries] using he
    rcases hcases with rfl | rfl | rfl
    · exact ⟨fun hname => absurd hname (by decide), fun _ => ⟨.exactFit, rfl⟩⟩
    · exact ⟨fun hname => absurd hname (by decide), fun hname => absurd hname (by decide)⟩
    · exact ⟨fun _ => ⟨64, by decide, rfl⟩, fun hname => absurd hname (by decide)⟩
  have hplain : IsSheet plain := hfewer plain
    ⟨[growthLine.entry, blockLine.entry], .swap _ _ _, .cons_cons _ (.cons _ (.refl _))⟩ (.inr rfl)
  exact ⟨hsheet, (hok _).2 ⟨hkinds, rfl, rfl⟩, hsame plain hplain (.swap _ _ _)⟩

end SlotPool.Config
