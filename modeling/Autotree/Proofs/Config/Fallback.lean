import Mathlib.Data.List.Nodup
import Autotree.Config.Declaration
import Autotree.Define
import Autotree.Proofs.Config.Resolution

/-!
# Fallbacks written out

An option that is left unset has its fallback.  To write the fallback out, as a line of the
configuration file, comes to the same exactly if the line can carry it: a value that a line carries
has no blank at its ends, no `=`, no `#` and no line feed (`Writable`).  Integers and booleans are
such values (`writable_scalar`), but a string is taken as it is declared.
-/

namespace Autotree

open Text

/-- A value that a line can carry. -/
structure Writable (value : String) : Prop where
  trimmed : Trimmed value.toList
  noEquals : '=' ∉ value.toList
  noHash : '#' ∉ value.toList
  noBreak : '\n' ∉ value.toList

/-- A name that a line can begin with. -/
structure LineName (name : String) : Prop where
  noComment : name.toList.head? ≠ some '#'
  noEquals : '=' ∉ name.toList
  noBreak : '\n' ∉ name.toList

theorem Writable.of_forall {value : String}
    (h : ∀ c ∈ value.toList, isBlank c = false ∧ c ≠ '=' ∧ c ≠ '#') : Writable value where
  trimmed := ⟨fun c hc => (h c (List.mem_of_head? hc)).1,
    fun c hc => (h c (List.mem_of_getLast? hc)).1⟩
  noEquals hmem := (h _ hmem).2.1 rfl
  noHash hmem := (h _ hmem).2.2 rfl
  noBreak hmem := absurd (h _ hmem).1 (by decide)

/-! ## Declared fallbacks -/

theorem OptionSpec.canonicalName_canonicalName (name : String) :
    canonicalName (canonicalName name) = canonicalName name := by
  rw [canonicalName, canonicalName, trim_upper_trim, upper_upper]

namespace Declaration

/-- An accepted declaration gives its option a name in canonical form, and the scalar that it
declares as fallback. -/
theorem spec_eq_ok {d : Declaration} {option : OptionSpec} (h : d.spec = .ok option) :
    option.name = OptionSpec.canonicalName d.name ∧
      d.fallback.mapM (scalar option.name) = .ok option.fallback := by
  simp only [spec, bind, Except.bind] at h
  split at h
  · cases h
  · split at h
    · cases h
    · split at h
      · cases h
      · next hfallback =>
        rw [← Except.ok.inj h]
        exact ⟨rfl, hfallback⟩

theorem exists_scalar_of_spec {d : Declaration} {option : OptionSpec} {value : String}
    (h : d.spec = .ok option) (hfallback : option.fallback = some value) :
    ∃ v, d.fallback = some v ∧ scalar option.name v = .ok value := by
  have hscalar := (spec_eq_ok h).2
  rw [hfallback] at hscalar
  cases hd : d.fallback with
  | none => rw [hd] at hscalar; cases hscalar
  | some v =>
    rw [hd, Option.mapM_some] at hscalar
    cases hv : scalar option.name v with
    | error e => rw [hv] at hscalar; cases hscalar
    | ok text =>
      rw [hv] at hscalar
      exact ⟨v, rfl, hv.trans (congrArg Except.ok (Option.some.inj (Except.ok.inj hscalar)))⟩

theorem plain_of_isDigit {c : Char} (h : c.isDigit = true) :
    isBlank c = false ∧ c ≠ '=' ∧ c ≠ '#' := by
  have hrange : 48 ≤ c.toNat ∧ c.toNat ≤ 57 := by
    simpa [Char.isDigit, UInt32.le_iff_toNat_le] using h
  refine ⟨?_, ?_, ?_⟩
  · simp [isBlank]
    omega
  · rintro rfl
    exact absurd hrange (by decide)
  · rintro rfl
    exact absurd hrange (by decide)

theorem plain_of_mem_repr {n : Nat} {c : Char} (h : c ∈ n.repr.toList) :
    isBlank c = false ∧ c ≠ '=' ∧ c ≠ '#' := by
  rw [Nat.toList_repr] at h
  exact plain_of_isDigit (Nat.isDigit_of_mem_toDigits (by decide) (by decide) h)

theorem writable_scalar {key value : String} {v : Toml.Value} (h : scalar key v = .ok value)
    (hv : ∀ text, v ≠ .string text) : Writable value := by
  cases v with
  | string text => exact absurd rfl (hv text)
  | integer n =>
    obtain rfl := Except.ok.inj h
    apply Writable.of_forall
    intro c hc
    rw [Int.toString_eq_repr] at hc
    cases n with
    | ofNat n => exact plain_of_mem_repr hc
    | negSucc n =>
      rw [Int.repr, String.toList_append] at hc
      rcases List.mem_append.1 hc with hc | hc
      · obtain rfl := List.mem_singleton.1 hc
        exact ⟨rfl, by decide, by decide⟩
      · exact plain_of_mem_repr hc
  | boolean b =>
    obtain rfl := Except.ok.inj h
    apply Writable.of_forall
    intro c hc
    have hdigit : c.isDigit = true := by
      cases b with
      | false => rw [List.mem_singleton.1 hc]; rfl
      | true => rw [List.mem_singleton.1 hc]; rfl
    exact plain_of_isDigit hdigit
  | float x => cases h
  | dateTime t => cases h
  | array elements => cases h
  | table entries => cases h

end Declaration

/-! ## What lines can carry -/

namespace Entry

theorem writable_of_readLine {line : List Char} {key value : String} (hbreak : '\n' ∉ line)
    (h : readLine line = .assignment key value) : Writable value := by
  rcases readLine_cases line with
    ⟨-, hread⟩ | ⟨front, back, rfl, -, hback, -, hread⟩ | ⟨-, -, hread⟩
  · rw [hread] at h
    cases h
  · rw [hread, Line.assignment.injEq] at h
    obtain ⟨-, rfl⟩ := h
    have hmem {c : Char} (hc : c ∈ (valueOf back).toList) : c ∈ valueChars back := by
      rw [valueOf, String.toList_ofList] at hc
      exact mem_of_mem_trimChars hc
    have hsub {c : Char} (hc : c ∈ valueChars back) : c ∈ back := List.takeWhile_subset _ hc
    constructor
    · rw [valueOf, String.toList_ofList]
      exact trimmed_trimChars _
    · exact fun hc => hback (hsub (hmem hc))
    · exact fun hc => hash_not_mem_valueChars back (hmem hc)
    · exact fun hc => hbreak (List.mem_append_right _ (List.mem_cons_of_mem _ (hsub (hmem hc))))
  · rw [hread] at h
    cases h

/-- Every value of a configuration file is one that a line can carry. -/
theorem writable_of_parse {text : String} {entries : List Entry} (h : parse text = .ok entries) :
    ∀ entry ∈ entries, Writable entry.value := by
  rw [parse_eq] at h
  intro entry hentry
  have hmem : entry.binding ∈ (pieces text).filterMap assignment? :=
    (parseLines_eq_ok h).2 ▸ List.mem_map_of_mem hentry
  obtain ⟨line, hline, hassign⟩ := List.mem_filterMap.1 hmem
  exact writable_of_readLine (not_mem_of_mem_splitOn hline) (readLine_of_assignment? hassign)

theorem not_idle_name {name : String} (hname : LineName name)
    (hcanonical : OptionSpec.canonicalName name = name) (value : List Char) :
    ¬Idle (name.toList ++ '=' :: value) := by
  have htrimmed : trimChars name.toList = name.toList := by
    rw [← hcanonical, OptionSpec.canonicalName, ← toList_trim, trim_upper_trim]
  rw [idle_append_cons (by decide) (by decide), htrimmed]
  exact hname.noComment

theorem readLine_name {name : String} (hname : LineName name)
    (hcanonical : OptionSpec.canonicalName name = name) {value : List Char} (hvalue : '=' ∉ value) :
    readLine (name.toList ++ '=' :: value) = .assignment name (valueOf value) := by
  have hidle := not_idle_name hname hcanonical value
  rw [readLine_assignment hname.noEquals hvalue hidle, keyOf, String.ofList_toList, hcanonical]

theorem valueOf_of_writable {value : String} (h : Writable value) :
    valueOf value.toList = value := by
  rw [valueOf, valueChars_of_not_mem h.noHash, h.trimmed.trimChars_eq, String.ofList_toList]

theorem parse_line {name : String} (hname : LineName name)
    (hcanonical : OptionSpec.canonicalName name = name) (value : String) :
    parse (name ++ "=" ++ value) = .ok [⟨1, name, value⟩] ↔ Writable value := by
  constructor
  · intro h
    exact writable_of_parse h ⟨1, name, value⟩ (by simp)
  · intro h
    have hlist : (name ++ "=" ++ value).toList = name.toList ++ '=' :: value.toList := by simp
    have hbreak : '\n' ∉ (name ++ "=" ++ value).toList := by
      simp [hname.noBreak, h.noBreak]
    rw [parse_eq, Text.pieces_of_not_mem hbreak, hlist, parseLines,
      readLine_name hname hcanonical h.noEquals, valueOf_of_writable h]
    rfl

theorem readLine_name_cases {name : String} (hname : LineName name)
    (hcanonical : OptionSpec.canonicalName name = name) (value : List Char) :
    Malformed (name.toList ++ '=' :: value) ∨
      ∃ assigned, readLine (name.toList ++ '=' :: value) = .assignment name assigned := by
  by_cases hvalue : '=' ∈ value
  · have hidle : ¬Idle (name.toList ++ '=' :: value) := not_idle_name hname hcanonical value
    have hcount : (name.toList ++ '=' :: value).count '=' ≠ 1 := by
      have hpos := List.count_pos_iff.2 hvalue
      simp only [List.count_append, List.count_cons_self]
      omega
    exact .inl ⟨_, readLine_malformed hidle hcount⟩
  · exact .inr ⟨_, readLine_name hname hcanonical hvalue⟩

/-- The first line of a fallback written out begins with the name and an `=`, whatever the fallback
is. -/
theorem exists_line_of_name {name : String} (hname : LineName name) (value : String) :
    ∃ line ∈ charLines (name ++ "=" ++ value).toList, ∃ first,
      readLine line = readLine (name.toList ++ '=' :: first) := by
  have hlist : (name ++ "=" ++ value).toList = (name.toList ++ ['=']) ++ value.toList := by simp
  have hbreak : '\n' ∉ name.toList ++ ['='] := by simp [hname.noBreak]
  obtain ⟨first, rest, hsplit⟩ :=
    List.exists_cons_of_ne_nil (List.splitOn_ne_nil '\n' value.toList)
  rw [charLines, hlist, splitOn_append_of_not_mem hbreak, hsplit, List.modifyHead_cons]
  cases rest with
  | nil => exact ⟨name.toList ++ ['='] ++ first, by simp [linesOfPieces], first, by simp⟩
  | cons next rest =>
    refine ⟨dropReturn (name.toList ++ ['='] ++ first), by simp [linesOfPieces], first, ?_⟩
    rw [readLine, trimChars_dropReturn, readLine, List.append_assoc, List.singleton_append]

end Entry

/-! ## One more line -/

namespace Schema

theorem contains_of_mem {schema : Schema} {option : OptionSpec} (h : option ∈ schema.options) :
    schema.contains option.name = true :=
  contains_iff.2 ⟨option, h, rfl⟩

variable {schema : Schema} {option : OptionSpec} {value : String} {entries entries' : List Entry}

theorem assigned?_eq_none {name : String} (h : ∀ entry ∈ entries, entry.key ≠ name) :
    assigned? entries name = none := by
  rw [← Option.not_isSome_iff_eq_none, isSome_assigned?]
  rintro ⟨entry, hentry, hkey⟩
  exact h entry hentry hkey

theorem exists_of_assigned? {name : String} (h : assigned? entries name = some value) :
    ∃ entry ∈ entries, entry.value = value := by
  obtain ⟨entry, hfind, hvalue⟩ := Option.map_eq_some_iff.1 h
  exact ⟨entry, List.mem_reverse.1 (List.mem_of_find?_eq_some hfind), hvalue⟩

theorem argument_of_unset (hfallback : option.fallback = some value)
    (hunset : assigned? entries option.name = none) :
    argument entries option = .ok ⟨option.name, option.kind, value⟩ := by
  rw [argument, hunset, hfallback]

theorem argument_of_assigned (hassigned : assigned? entries option.name = some value) :
    argument entries option = .ok ⟨option.name, option.kind, value⟩ := by
  rw [argument, hassigned]

/-- To assign its fallback to an option that is unset makes no difference. -/
theorem resolve_of_inserted (hoption : option ∈ schema.options)
    (hfallback : option.fallback = some value) {before after : List (String × String)}
    (hentries : entries.map Entry.binding = before ++ after)
    (hentries' : entries'.map Entry.binding = before ++ [(option.name, value)] ++ after)
    (hunset : assigned? entries option.name = none) :
    schema.resolve entries' = schema.resolve entries := by
  have hunknown : schema.unknown? (entries'.map Entry.binding) =
      schema.unknown? (entries.map Entry.binding) := by
    simp [hentries, hentries', unknown?, List.find?_append, contains_of_mem hoption]
  have hargument : ∀ other ∈ schema.options, argument entries' other = argument entries other := by
    intro other hother
    by_cases hname : other.name = option.name
    -- the option takes its fallback on one side, and is assigned it on the other
    · obtain rfl := eq_of_name_eq hother hoption hname
      rw [argument_of_unset hfallback hunset]
      apply argument_of_assigned
      rw [assigned?_eq, hentries, lastValue?_append, Option.or_eq_none_iff] at hunset
      rw [assigned?_eq, hentries', lastValue?_append, lastValue?_append, hunset.1]
      simp [lastValue?]
    · have hnone : lastValue? [(option.name, value)] other.name = none := by
        rw [lastValue?_eq_none_iff]
        simpa using Ne.symm hname
      have hassigned : assigned? entries' other.name = assigned? entries other.name := by
        rw [assigned?_eq, assigned?_eq, hentries, hentries', lastValue?_append, lastValue?_append,
          hnone, Option.none_or, lastValue?_append]
      rw [argument, hassigned, argument]
  rw [resolve_eq, resolve_eq, hunknown, mapM_congr_of_mem hargument]

/-- An option with the same value in two configurations that are resolved. -/
theorem argument_eq_of_resolve_eq_ok {resolved : Resolved}
    (h : schema.resolve entries = .ok resolved) (h' : schema.resolve entries' = .ok resolved)
    (hoption : option ∈ schema.options) : argument entries option = argument entries' option := by
  have hmapM {es : List Entry} (hes : schema.resolve es = .ok resolved) :
      schema.options.mapM (argument es) = .ok resolved.arguments := by
    rw [resolve_eq] at hes
    split at hes
    · cases hes
    · cases hargs : schema.options.mapM (argument es) with
      | error e => rw [hargs] at hes; cases hes
      | ok args =>
        rw [hargs] at hes
        rw [← Except.ok.inj hes]
  exact eq_of_mapM_eq_ok (hmapM h) (hmapM h') option hoption

end Schema

namespace Config

/-- A text that can be read and assigns nothing to a name. -/
def LeavesUnset (text name : String) : Prop :=
  ∃ entries, Entry.parse text = .ok entries ∧ ∀ entry ∈ entries, entry.key ≠ name

/-- A text with those lines of another one somewhere among its lines. -/
def Inserted (line text text' : String) : Prop :=
  ∃ before after, lines text = before ++ after ∧ lines text' = before ++ lines line ++ after

theorem Inserted.charLines {line text text' : String} (h : Inserted line text text') :
    ∃ before after, charLines text.toList = before ++ after ∧
      charLines text'.toList = before ++ charLines line.toList ++ after := by
  obtain ⟨before, after, htext, htext'⟩ := h
  refine ⟨before.map String.toList, after.map String.toList, ?_, ?_⟩
  · rw [charLines_eq, htext, List.map_append]
  · rw [charLines_eq, htext', List.map_append, List.map_append, charLines_eq]

/-- A text assigns what it assigned before, and in the midst of it what the lines put in assign. -/
theorem Inserted.parse {line text text' : String} (h : Inserted line text text')
    {entries added : List Entry} (htext : Entry.parse text = .ok entries)
    (hline : Entry.parse line = .ok added) :
    ∃ entries' before after, Entry.parse text' = .ok entries' ∧
      entries.map Entry.binding = before ++ after ∧
      entries'.map Entry.binding = before ++ added.map Entry.binding ++ after := by
  obtain ⟨before, after, hlines, hlines'⟩ := h.charLines
  obtain ⟨hgood, hbindings⟩ := Entry.parseLines_eq_ok htext
  obtain ⟨hgoodLine, hadded⟩ := Entry.parseLines_eq_ok hline
  rw [hlines] at hgood hbindings
  have hgood' : ∀ l ∈ Text.charLines text'.toList, ¬Entry.Malformed l := by
    rw [hlines']
    intro l hl
    simp only [List.mem_append] at hgood hl
    rcases hl with (hl | hl) | hl
    · exact hgood l (.inl hl)
    · exact hgoodLine l hl
    · exact hgood l (.inr hl)
  obtain ⟨entries', hparse'⟩ := Entry.exists_parseLines_eq_ok 1 hgood'
  refine ⟨entries', _, _, hparse', hbindings.trans List.filterMap_append, ?_⟩
  rw [(Entry.parseLines_eq_ok hparse').2, hlines', List.filterMap_append, List.filterMap_append,
    hadded]

section

variable {schema : Schema} {option : OptionSpec} {name value text text' : String}
  {entries' : List Entry}

theorem outcome_of_inserted (hoption : option ∈ schema.options)
    (hfallback : option.fallback = some value) (hunset : LeavesUnset text option.name)
    (hinserted : Inserted (option.name ++ "=" ++ value) text text')
    (hline : Entry.parse (option.name ++ "=" ++ value) = .ok [⟨1, option.name, value⟩]) :
    outcome schema text' = outcome schema text := by
  obtain ⟨entries, hparse, hkeys⟩ := hunset
  obtain ⟨entries', before, after, hparse', hbindings, hbindings'⟩ := hinserted.parse hparse hline
  rw [outcome, outcome, hparse, hparse']
  exact Schema.resolve_of_inserted hoption hfallback hbindings hbindings'
    (Schema.assigned?_eq_none hkeys)

/-- A fallback written out assigns something to the option, whatever the fallback is. -/
theorem Inserted.exists_assigned (h : Inserted (name ++ "=" ++ value) text text')
    (hname : LineName name) (hcanonical : OptionSpec.canonicalName name = name)
    (hparse' : Entry.parse text' = .ok entries') :
    ∃ written, Schema.assigned? entries' name = some written := by
  obtain ⟨before, after, -, hlines'⟩ := h.charLines
  obtain ⟨hgood', hbindings'⟩ := Entry.parseLines_eq_ok hparse'
  obtain ⟨line, hmem, first, hread⟩ := Entry.exists_line_of_name hname value
  have hline : line ∈ Text.charLines text'.toList := by
    rw [hlines']
    exact List.mem_append_left _ (List.mem_append_right _ hmem)
  rcases Entry.readLine_name_cases hname hcanonical first with ⟨bad, hbad⟩ | ⟨assigned, hassigned⟩
  · exact absurd ⟨bad, hread.trans hbad⟩ (hgood' line hline)
  · have hbinding : (name, assigned) ∈ entries'.map Entry.binding := by
      rw [hbindings', List.mem_filterMap]
      exact ⟨line, hline, by simp [Entry.assignment?, hread, hassigned]⟩
    obtain ⟨entry, hentry, heq⟩ := List.mem_map.1 hbinding
    rw [← Option.isSome_iff_exists]
    exact Schema.isSome_assigned?.2 ⟨entry, hentry, congrArg Prod.fst heq⟩

theorem outcome_eq_ok {resolved : Resolved} (h : outcome schema text = .ok resolved) :
    ∃ entries, Entry.parse text = .ok entries ∧ schema.resolve entries = .ok resolved := by
  rw [outcome] at h
  cases hparse : Entry.parse text with
  | error e => rw [hparse] at h; cases h
  | ok entries => exact ⟨entries, rfl, by rw [hparse] at h; exact h⟩

/-- Where a fallback written out makes no difference, it is what some line of the text assigns. -/
theorem writable_of_outcome_eq (hoption : option ∈ schema.options)
    (hfallback : option.fallback = some value) (hname : LineName option.name)
    (hcanonical : OptionSpec.canonicalName option.name = option.name)
    (hunset : LeavesUnset text option.name)
    (hinserted : Inserted (option.name ++ "=" ++ value) text text') {resolved : Resolved}
    (h : outcome schema text = .ok resolved) (h' : outcome schema text' = .ok resolved) :
    Writable value := by
  obtain ⟨entries, hparse, hkeys⟩ := hunset
  have hresolve : schema.resolve entries = .ok resolved := by rwa [outcome, hparse] at h
  obtain ⟨entries', hparse', hresolve'⟩ := outcome_eq_ok h'
  obtain ⟨written, hwritten⟩ := hinserted.exists_assigned hname hcanonical hparse'
  have hsame := Schema.argument_eq_of_resolve_eq_ok hresolve hresolve' hoption
  rw [Schema.argument_of_unset hfallback (Schema.assigned?_eq_none hkeys),
    Schema.argument_of_assigned hwritten] at hsame
  have hvalue : value = written := congrArg Argument.value (Except.ok.inj hsame)
  obtain ⟨entry, hentry, hassigned⟩ := Schema.exists_of_assigned? hwritten
  rw [hvalue, ← hassigned]
  exact Entry.writable_of_parse hparse' entry hentry

end

/-- To write a fallback out makes no difference exactly if it is writable, as every fallback is
that is no string. -/
theorem fallback_as_line {d : Declaration} {option : OptionSpec} {value : String}
    (hspec : d.spec = .ok option) (hfallback : option.fallback = some value)
    (hname : LineName option.name) :
    (Entry.parse (option.name ++ "=" ++ value) = .ok [⟨1, option.name, value⟩] ↔ Writable value) ∧
      (∀ text, d.fallback = some (.string text) → value = text) ∧
      ((∀ text, d.fallback ≠ some (.string text)) → Writable value) ∧
      ∀ schema : Schema, option ∈ schema.options →
        ∀ text text', LeavesUnset text option.name →
          Inserted (option.name ++ "=" ++ value) text text' →
          (Writable value →
              outcome schema text' = outcome schema text ∧
              ∀ initial, outcome schema text' >>= Define.synthesize initial =
                outcome schema text >>= Define.synthesize initial) ∧
            ∀ resolved, outcome schema text = .ok resolved → outcome schema text' = .ok resolved →
              Writable value := by
  obtain ⟨v, hv, hscalar⟩ := Declaration.exists_scalar_of_spec hspec hfallback
  have hself : OptionSpec.canonicalName option.name = option.name := by
    rw [(Declaration.spec_eq_ok hspec).1, OptionSpec.canonicalName_canonicalName]
  have hline := Entry.parse_line hname hself value
  refine ⟨hline, ?_, ?_, ?_⟩
  · intro text htext
    obtain rfl := Option.some.inj (hv.symm.trans htext)
    exact (Except.ok.inj hscalar).symm
  · intro hstring
    exact Declaration.writable_scalar hscalar fun text heq => hstring text (hv.trans (heq ▸ rfl))
  · intro schema hoption text text' hunset hinserted
    constructor
    · intro hwritable
      have hsame := outcome_of_inserted hoption hfallback hunset hinserted (hline.2 hwritable)
      exact ⟨hsame, fun initial => by rw [hsame]⟩
    · intro resolved h h'
      exact writable_of_outcome_eq hoption hfallback hname hself hunset hinserted h h'

def levelDeclaration : Declaration where
  name := "level"
  type := "int"
  fallback := some (.integer 3)

def levelSchema : Schema where
  options := [⟨"DEBUG", .flag, none⟩, ⟨"LEVEL", .integer none, some "3"⟩]

theorem level_as_line :
    levelDeclaration.spec = .ok ⟨"LEVEL", .integer none, some "3"⟩ ∧
      Entry.parse "LEVEL=3" = .ok [⟨1, "LEVEL", "3"⟩] ∧
      outcome levelSchema "debug=1\nLEVEL=3\n" = outcome levelSchema "debug=1\n" := by
  have hspec : levelDeclaration.spec = .ok ⟨"LEVEL", .integer none, some "3"⟩ := by decide +kernel
  have hname : LineName "LEVEL" := ⟨by decide, by decide, by decide⟩
  obtain ⟨hline, -, hplain, hschema⟩ := fallback_as_line hspec rfl hname
  have hwritable : Writable "3" := hplain (by rintro text ⟨⟩)
  have hunset : LeavesUnset "debug=1\n" "LEVEL" :=
    ⟨[⟨1, "DEBUG", "1"⟩], by decide +kernel, by decide⟩
  have hinserted : Inserted "LEVEL=3" "debug=1\n" "debug=1\nLEVEL=3\n" :=
    ⟨["debug=1"], [], by decide +kernel, by decide +kernel⟩
  exact ⟨hspec, hline.2 hwritable,
    ((hschema levelSchema (by decide) _ _ hunset hinserted).1 hwritable).1⟩

def paddedDeclaration : Declaration where
  name := "name"
  type := "str"
  fallback := some (.string " x ")

/-- A fallback with blanks around it is another value than the line that writes it out assigns. -/
theorem padded_fallback_differs :
    paddedDeclaration.spec = .ok ⟨"NAME", .text, some " x "⟩ ∧
      Entry.parse "NAME= x " = .ok [⟨1, "NAME", "x"⟩] ∧
      outcome ⟨[⟨"NAME", .text, some " x "⟩], by decide⟩ "" =
        .ok ⟨[⟨"NAME", .text, " x "⟩]⟩ ∧
      outcome ⟨[⟨"NAME", .text, some " x "⟩], by decide⟩ "NAME= x " =
        .ok ⟨[⟨"NAME", .text, "x"⟩]⟩ := by
  refine ⟨?_, ?_, ?_, ?_⟩ <;> decide +kernel

end Config

end Autotree
