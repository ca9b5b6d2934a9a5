import Mathlib.Logic.Relation
import Autotree.Proofs.Config.Reading

/-!
# Edits that leave a configuration as it is

Comments, blanks, the case of a key and the order of assignments to different keys do not matter to
a configuration file.  `Edit` relates two texts that differ in one such thing; texts that differ in
any number of them resolve to the same configuration, or fail alike (`outcome_of_edits`).  What an
edit preserves is whether some line is malformed, and the last value assigned to each key
(`SameReading`).
-/

namespace Autotree.Config

open Text Entry

/-! ## Edits -/

/-- Changes within a line that leave what it says. -/
inductive LineEdit : List Char → List Char → Prop where
  /-- Blanks around the line. -/
  | around (line : List Char) {as bs : List Char} (ha : AllBlank as) (hb : AllBlank bs) :
    LineEdit line (as ++ line ++ bs)
  /-- Blanks on both sides of an `=`, behind the key and in front of the value. -/
  | aroundEquals (front back : List Char) {as bs : List Char} (ha : AllBlank as)
    (hb : AllBlank bs) : LineEdit (front ++ '=' :: back) (front ++ as ++ '=' :: (bs ++ back))
  /-- Blanks between a value and the comment behind it. -/
  | beforeComment {front : List Char} (back : List Char) {as : List Char} (hfront : '=' ∈ front)
    (ha : AllBlank as) : LineEdit (front ++ '#' :: back) (front ++ as ++ '#' :: back)
  /-- A comment behind everything else. -/
  | comment (line : List Char) {text : List Char} (htext : '=' ∉ text) :
    LineEdit line (line ++ '#' :: text)
  /-- The case of the ASCII letters of a key. -/
  | keyCase {key key' : List Char} (back : List Char)
    (hcase : key.map Char.toUpper = key'.map Char.toUpper) :
    LineEdit (key ++ '=' :: back) (key' ++ '=' :: back)

/-- Whether a line assigns a value to a key. -/
def assigns (key : String) (line : List Char) : Bool :=
  (assignment? line).any (·.1 == key)

/-- Changes of lines that leave the last assignment to each key. -/
inductive LinesEdit : List (List Char) → List (List Char) → Prop where
  /-- One more line that is blank or only a comment. -/
  | insert (before after : List (List Char)) {line : List Char} (h : Idle line) :
    LinesEdit (before ++ after) (before ++ line :: after)
  /-- A change within one line. -/
  | change (before after : List (List Char)) {line line' : List Char} (h : LineEdit line line') :
    LinesEdit (before ++ line :: after) (before ++ line' :: after)
  /-- One assignment less, to a key to which a later line assigns. -/
  | drop (before after : List (List Char)) {line later : List Char} {key : String}
    (h : assigns key line) (hlater : later ∈ after) (hagain : assigns key later) :
    LinesEdit (before ++ line :: after) (before ++ after)
  /-- Another order, in which the lines that assign to one key follow each other as before. -/
  | reorder {lines lines' : List (List Char)} (hperm : lines.Perm lines')
    (horder : ∀ key, lines.filter (assigns key) = lines'.filter (assigns key)) :
    LinesEdit lines lines'

/-- One change of a text that its configuration does not notice. -/
def Edit (text text' : String) : Prop :=
  LinesEdit (pieces text) (pieces text')

/-! ## Outcomes -/

/-- Errors of one kind, about the same option where one has no value. -/
def Alike : ConfigError → ConfigError → Prop
  | .missingValue key, .missingValue key' => key = key'
  | e, e' => e.ctorIdx = e'.ctorIdx

/-- Equal configurations, or errors that are alike. -/
inductive SameOutcome : Except ConfigError Resolved → Except ConfigError Resolved → Prop where
  | ok (resolved : Resolved) : SameOutcome (.ok resolved) (.ok resolved)
  | error {e e' : ConfigError} (h : Alike e e') : SameOutcome (.error e) (.error e')

theorem Alike.refl (e : ConfigError) : Alike e e := by
  cases e <;> rfl

theorem SameOutcome.refl (r : Except ConfigError Resolved) : SameOutcome r r := by
  cases r with
  | ok resolved => exact .ok resolved
  | error e => exact .error (.refl e)

/-! ## Lines that say the same -/

/-- Lines that make the same assignment or none, and that are malformed both or neither. -/
structure SameLine (line line' : List Char) : Prop where
  assignment : assignment? line = assignment? line'
  malformed : Malformed line ↔ Malformed line'

theorem SameLine.of_readLine_eq {line line' : List Char} (h : readLine line = readLine line') :
    SameLine line line' :=
  ⟨by rw [assignment?, h, assignment?], by rw [Malformed, h, Malformed]⟩

theorem SameLine.of_count_ne_one {line line' : List Char} (hidle : Idle line ↔ Idle line')
    (hcount : line.count '=' ≠ 1) (hcount' : line'.count '=' ≠ 1) : SameLine line line' := by
  by_cases h : Idle line
  · apply SameLine.of_readLine_eq
    rw [readLine_idle h, readLine_idle (hidle.1 h)]
  · have hread := readLine_malformed h hcount
    have hread' := readLine_malformed (hidle.not.1 h) hcount'
    exact ⟨by simp [assignment?, hread, hread'], by simp [Malformed, hread, hread']⟩

theorem SameLine.of_equals {front front' back back' : List Char}
    (hidle : (trimChars front).head? = some '#' ↔ (trimChars front').head? = some '#')
    (hcount : (front ++ '=' :: back).count '=' = (front' ++ '=' :: back').count '=')
    (hkey : keyOf front = keyOf front') (hvalue : valueOf back = valueOf back') :
    SameLine (front ++ '=' :: back) (front' ++ '=' :: back') := by
  have hidles : Idle (front ++ '=' :: back) ↔ Idle (front' ++ '=' :: back') := by
    rwa [idle_append_cons (by decide) (by decide), idle_append_cons (by decide) (by decide)]
  by_cases hone : (front ++ '=' :: back).count '=' = 1
  · by_cases h : Idle (front ++ '=' :: back)
    · apply SameLine.of_readLine_eq
      rw [readLine_idle h, readLine_idle (hidles.1 h)]
    -- the `=` in the middle is the only one, in both lines
    · rw [hone] at hcount
      simp only [List.count_append, List.count_cons_self] at hone hcount
      have hnot (cs : List Char) (hcs : cs.count '=' = 0) : '=' ∉ cs := List.count_eq_zero.1 hcs
      apply SameLine.of_readLine_eq
      rw [readLine_assignment (hnot _ (by omega)) (hnot _ (by omega)) h,
        readLine_assignment (hnot _ (by omega)) (hnot _ (by omega)) (hidles.not.1 h), hkey, hvalue]
  · exact .of_count_ne_one hidles hone (hcount ▸ hone)

theorem count_equals_map_toUpper (cs : List Char) :
    (cs.map Char.toUpper).count '=' = cs.count '=' := by
  rw [List.count_eq_countP, List.countP_map, List.count_eq_countP]
  congr 1
  funext c
  simp [(toUpper_indifferent c).2.2.2]

theorem keyOf_map_toUpper (key : List Char) : keyOf (key.map Char.toUpper) = keyOf key := by
  simp only [keyOf, OptionSpec.canonicalName, ← String.toList_inj, toList_upper, toList_trim,
    String.toList_ofList, trimChars_map_toUpper, flatMap_upperChar_map_toUpper]

theorem head?_map_toUpper (cs : List Char) :
    (cs.map Char.toUpper).head? = some '#' ↔ cs.head? = some '#' := by
  cases cs with
  | nil => rfl
  | cons c cs => simpa using (toUpper_indifferent c).2.2.1

theorem idle_append_comment (line text : List Char) : Idle (line ++ '#' :: text) ↔ Idle line := by
  have hnot : ¬AllBlank (line ++ '#' :: text) := fun h => h.not_mem (c := '#') rfl (by simp)
  rw [Idle, or_iff_right hnot, dropWhile_append_cons rfl, Idle, AllBlank,
    ← List.dropWhile_eq_nil_iff]
  cases line.dropWhile isBlank <;> simp

theorem LineEdit.sameLine {line line' : List Char} (h : LineEdit line line') :
    SameLine line line' := by
  cases h with
  | around _ ha hb =>
    apply SameLine.of_readLine_eq
    rw [readLine, readLine, trimChars_padded ha hb]
  | aroundEquals front back ha hb =>
    apply SameLine.of_equals
    · rw [trimChars_append_blank ha]
    · simp [ha.count_eq_zero, hb.count_eq_zero, isBlank]
    · exact keyOf_congr (trimChars_append_blank ha front).symm
    · rw [valueOf, valueOf, valueChars_blank_append hb, trimChars_blank_append hb]
  | @beforeComment front back as hfront ha =>
    -- the value begins behind the first `=`, so the blanks are within it
    obtain ⟨key, value, rfl⟩ := List.append_of_mem hfront
    simp only [List.append_assoc, List.cons_append]
    apply SameLine.of_equals Iff.rfl
    · simp [ha.count_eq_zero, isBlank]
    · rfl
    · rw [valueOf, valueChars_append_hash, ← List.append_assoc, valueOf, valueChars_append_hash,
        trimChars_valueChars_append_blank ha]
  | @comment _ text htext =>
    have hcount : ('#' :: text).count '=' = 0 :=
      List.count_eq_zero_of_not_mem (by simp [htext])
    by_cases hmem : '=' ∈ line
    · obtain ⟨key, value, rfl⟩ := List.append_of_mem hmem
      simp only [List.append_assoc, List.cons_append]
      apply SameLine.of_equals Iff.rfl
      · simp only [List.count_append, List.count_cons_self, hcount, Nat.add_zero]
      · rfl
      · rw [valueOf, valueOf, valueChars_append_hash]
    · have hzero : line.count '=' = 0 := List.count_eq_zero_of_not_mem hmem
      apply SameLine.of_count_ne_one (idle_append_comment line text).symm
      · omega
      · rw [List.count_append]
        omega
  | @keyCase key key' back hcase =>
    apply SameLine.of_equals
    · rw [← head?_map_toUpper, ← trimChars_map_toUpper, hcase, trimChars_map_toUpper,
        head?_map_toUpper]
    · rw [List.count_append, List.count_append, ← count_equals_map_toUpper, hcase,
        count_equals_map_toUpper]
    · rw [← keyOf_map_toUpper, hcase, keyOf_map_toUpper]
    · rfl

/-! ## Texts that assign the same -/

/-- Lines some of which are malformed or none, and that assign the same value to each key in the
end. -/
structure SameReading (lines lines' : List (List Char)) : Prop where
  malformed : (∃ line ∈ lines, Malformed line) ↔ ∃ line ∈ lines', Malformed line
  last : ∀ key, Schema.lastValue? (lines.filterMap assignment?) key =
    Schema.lastValue? (lines'.filterMap assignment?) key

namespace SameReading

variable {lines lines' lines'' : List (List Char)}

theorem refl (lines : List (List Char)) : SameReading lines lines :=
  ⟨Iff.rfl, fun _ => rfl⟩

theorem symm (h : SameReading lines lines') : SameReading lines' lines :=
  ⟨h.malformed.symm, fun key => (h.last key).symm⟩

theorem trans (h : SameReading lines lines') (h' : SameReading lines' lines'') :
    SameReading lines lines'' :=
  ⟨h.malformed.trans h'.malformed, fun key => (h.last key).trans (h'.last key)⟩

theorem append {front front' back back' : List (List Char)} (hfront : SameReading front front')
    (hback : SameReading back back') : SameReading (front ++ back) (front' ++ back') := by
  constructor
  · simp only [List.mem_append, or_and_right, exists_or, hfront.malformed, hback.malformed]
  · intro key
    rw [List.filterMap_append, List.filterMap_append, Schema.lastValue?_append,
      Schema.lastValue?_append, hfront.last, hback.last]

theorem of_sameLine {line line' : List Char} (h : SameLine line line') :
    SameReading [line] [line'] := by
  constructor
  · simpa using h.malformed
  · intro key
    simp only [List.filterMap_cons, h.assignment]

theorem of_idle {line : List Char} (h : Idle line) : SameReading [] [line] := by
  have hread := readLine_idle h
  constructor
  · simp [Malformed, hread]
  · simp [assignment?, hread]

end SameReading

theorem assigns_iff {key : String} {line : List Char} :
    assigns key line = true ↔ ∃ value, assignment? line = some (key, value) := by
  rw [assigns, Option.any_eq_true]
  constructor
  · rintro ⟨⟨k, value⟩, hline, hkey⟩
    obtain rfl : k = key := beq_iff_eq.1 hkey
    exact ⟨value, hline⟩
  · rintro ⟨value, hline⟩
    exact ⟨_, hline, by simp⟩

theorem not_malformed_of_assigns {key : String} {line : List Char} (h : assigns key line = true) :
    ¬Malformed line := by
  obtain ⟨value, hline⟩ := assigns_iff.1 h
  rintro ⟨text, hread⟩
  simp [assignment?, hread] at hline

/-- Of lines that all assign to one key only the last one matters. -/
theorem SameReading.of_overridden {line later : List Char} {after : List (List Char)} {key : String}
    (h : assigns key line = true) (hlater : later ∈ after) (hagain : assigns key later = true) :
    SameReading (line :: after) after := by
  obtain ⟨value, hline⟩ := assigns_iff.1 h
  obtain ⟨value', hline'⟩ := assigns_iff.1 hagain
  constructor
  · simp [not_malformed_of_assigns h]
  · intro name
    rw [List.filterMap_cons_some hline, ← List.singleton_append, Schema.lastValue?_append]
    by_cases hname : key = name
    -- a later line has the last word on this key
    · subst hname
      have hsome : Schema.lastValue? (after.filterMap assignment?) key ≠ none := by
        rw [Ne, Schema.lastValue?_eq_none_iff]
        exact fun hall => hall (key, value') (List.mem_filterMap.2 ⟨later, hlater, hline'⟩) rfl
      obtain ⟨last, hlast⟩ := Option.ne_none_iff_exists'.1 hsome
      rw [hlast]
      rfl
    · have hnone : Schema.lastValue? [(key, value)] name = none := by
        rw [Schema.lastValue?_eq_none_iff]
        simpa using hname
      rw [hnone, Option.or_none]

theorem lastValue?_eq_of_filter (lines : List (List Char)) (key : String) :
    Schema.lastValue? (lines.filterMap assignment?) key =
      Schema.lastValue? ((lines.filter (assigns key)).filterMap assignment?) key := by
  have hfilter : (lines.filterMap assignment?).filter (·.1 == key) =
      (lines.filter (assigns key)).filterMap assignment? := by
    rw [List.filter_filterMap, List.filterMap_filter]
    congr 1
    funext line
    cases hline : assignment? line <;> simp [assigns, hline, Option.filter]
  have hself : ((lines.filter (assigns key)).filterMap assignment?).filter (·.1 == key) =
      (lines.filter (assigns key)).filterMap assignment? := by
    rw [← hfilter, List.filter_filter]
    simp
  rw [Schema.lastValue?, hfilter, Schema.lastValue?, hself]

theorem SameReading.of_reorder {lines lines' : List (List Char)} (hperm : lines.Perm lines')
    (horder : ∀ key, lines.filter (assigns key) = lines'.filter (assigns key)) :
    SameReading lines lines' := by
  constructor
  · simp only [hperm.mem_iff]
  · intro key
    rw [lastValue?_eq_of_filter, horder, ← lastValue?_eq_of_filter]

theorem LinesEdit.sameReading {lines lines' : List (List Char)} (h : LinesEdit lines lines') :
    SameReading lines lines' := by
  cases h with
  | insert before after h =>
    exact (SameReading.refl before).append ((SameReading.of_idle h).append (.refl after))
  | change before after h =>
    exact (SameReading.refl before).append
      ((SameReading.of_sameLine h.sameLine).append (.refl after))
  | drop before after h hlater hagain =>
    exact (SameReading.refl before).append (.of_overridden h hlater hagain)
  | reorder hperm horder => exact .of_reorder hperm horder

/-- Any number of edits leaves what the lines say. -/
theorem sameReading_of_edits {text text' : String} (h : Relation.EqvGen Edit text text') :
    SameReading (pieces text) (pieces text') := by
  induction h with
  | rel _ _ h => exact h.sameReading
  | refl => exact .refl _
  | symm _ _ _ ih => exact ih.symm
  | trans _ _ _ _ _ ih ih' => exact ih.trans ih'

/-! ## What they resolve to -/

theorem resolve_sameOutcome (schema : Schema) {entries entries' : List Entry}
    (h : ∀ name, Schema.assigned? entries name = Schema.assigned? entries' name) :
    SameOutcome (schema.resolve entries) (schema.resolve entries') := by
  have hunknown : schema.unknown? (entries.map binding) = none ↔
      schema.unknown? (entries'.map binding) = none := by
    simp only [Schema.unknown?_eq_none_iff, ← Schema.assigned?_eq, h]
  have hargument : Schema.argument entries = Schema.argument entries' := by
    funext option
    rw [Schema.argument, h, Schema.argument]
  rw [Schema.resolve_eq, Schema.resolve_eq, hargument]
  cases hfirst : schema.unknown? (entries.map binding) with
  | none =>
    rw [hunknown.1 hfirst]
    exact .refl _
  | some key =>
    have hsome : schema.unknown? (entries'.map binding) ≠ none :=
      hunknown.not.1 (hfirst ▸ Option.some_ne_none key)
    obtain ⟨key', hfirst'⟩ := Option.ne_none_iff_exists'.1 hsome
    rw [hfirst']
    exact .error rfl

theorem SameReading.outcome {text text' : String} (h : SameReading (pieces text) (pieces text'))
    (schema : Schema) : SameOutcome (outcome schema text) (outcome schema text') := by
  rcases parse_cases text with ⟨entries, hparse, hgood, hbindings⟩ | ⟨lineNo, bad, hparse, hbad⟩
  · rcases parse_cases text' with ⟨entries', hparse', -, hbindings'⟩ | ⟨_, _, -, hbad'⟩
    · rw [Config.outcome, hparse, Config.outcome, hparse']
      apply resolve_sameOutcome
      intro name
      rw [Schema.assigned?_eq, Schema.assigned?_eq, hbindings, hbindings', h.last]
    · obtain ⟨line, hline, hmalformed⟩ := h.malformed.2 hbad'
      exact absurd hmalformed (hgood line hline)
  · rcases parse_cases text' with ⟨_, -, hgood', -⟩ | ⟨lineNo', bad', hparse', -⟩
    · obtain ⟨line, hline, hmalformed⟩ := h.malformed.1 hbad
      exact absurd hmalformed (hgood' line hline)
    · rw [Config.outcome, hparse, Config.outcome, hparse']
      exact .error rfl

/-- Texts that differ by any number of edits give the same configuration, or fail alike. -/
theorem outcome_of_edits (schema : Schema) {text text' : String}
    (h : Relation.EqvGen Edit text text') :
    SameOutcome (outcome schema text) (outcome schema text') :=
  (sameReading_of_edits h).outcome schema

/-! ## An edited configuration -/

/-- Two assignments to different keys that follow each other, exchanged. -/
theorem LinesEdit.swap (before after : List (List Char)) {line line' : List Char}
    {key key' value value' : String} (hline : assignment? line = some (key, value))
    (hline' : assignment? line' = some (key', value')) (hne : key ≠ key') :
    LinesEdit (before ++ [line, line'] ++ after) (before ++ [line', line] ++ after) := by
  refine .reorder (((List.Perm.swap line' line []).append_left before).append_right after) ?_
  intro name
  have hfilter : [line, line'].filter (assigns name) = [line', line].filter (assigns name) := by
    by_cases hname : key = name
    · have hother : ¬key' = name := fun heq => hne (hname.trans heq.symm)
      simp [List.filter_cons, assigns, hline, hline', hother]
    · simp [List.filter_cons, assigns, hline, hline', hname]
  rw [List.filter_append, List.filter_append, hfilter, ← List.filter_append, ← List.filter_append]

theorem Edit.of_lines {text text' : String} {lines lines' : List (List Char)}
    (h : LinesEdit lines lines') (hlines : pieces text = lines) (hlines' : pieces text' = lines') :
    Edit text text' := by
  rwa [Edit, hlines, hlines']

def titleSchema : Schema where
  options := [⟨"TITLE", .text, none⟩, ⟨"DEBUG", .flag, some "0"⟩]

def titleLine : List Char :=
  "title= a b ".toList

def debugLine : List Char :=
  "Debug=1".toList

/-- An overridden line and a comment are taken away, the two other lines change places, and the key
of one is put in capitals. -/
theorem titles_edited :
    Relation.EqvGen Edit "debug=0\ntitle= a b # first\nDebug=1" "DEBUG=1\ntitle= a b " := by
  have hdrop : Edit "debug=0\ntitle= a b # first\nDebug=1" "title= a b # first\nDebug=1" :=
    .of_lines (@LinesEdit.drop [] [titleLine ++ '#' :: " first".toList, debugLine] "debug=0".toList
      debugLine "DEBUG" (by decide +kernel) (by simp) (by decide +kernel))
      (by decide +kernel) (by decide +kernel)
  have hcomment : Edit "title= a b \nDebug=1" "title= a b # first\nDebug=1" :=
    .of_lines (.change [] [debugLine] (@LineEdit.comment titleLine " first".toList (by decide)))
      (by decide +kernel) (by decide +kernel)
  have hswap : Edit "title= a b \nDebug=1" "Debug=1\ntitle= a b " :=
    .of_lines (@LinesEdit.swap [] [] titleLine debugLine "TITLE" "DEBUG" "a b" "1"
      (by decide +kernel) (by decide +kernel) (by decide)) (by decide +kernel) (by decide +kernel)
  have hcase : Edit "Debug=1\ntitle= a b " "DEBUG=1\ntitle= a b " :=
    .of_lines (.change [] [titleLine]
      (@LineEdit.keyCase "Debug".toList "DEBUG".toList ['1'] (by decide +kernel)))
      (by decide +kernel) (by decide +kernel)
  exact .trans _ _ _ (.rel _ _ hdrop) (.trans _ _ _ (.symm _ _ (.rel _ _ hcomment))
    (.trans _ _ _ (.rel _ _ hswap) (.rel _ _ hcase)))

theorem titles_sameOutcome :
    Relation.EqvGen Edit "debug=0\ntitle= a b # first\nDebug=1" "DEBUG=1\ntitle= a b " ∧
      SameOutcome (outcome titleSchema "debug=0\ntitle= a b # first\nDebug=1")
        (outcome titleSchema "DEBUG=1\ntitle= a b ") ∧
      outcome titleSchema "DEBUG=1\ntitle= a b " =
        .ok ⟨[⟨"TITLE", .text, "a b"⟩, ⟨"DEBUG", .flag, "1"⟩]⟩ :=
  ⟨titles_edited, outcome_of_edits titleSchema titles_edited, by decide +kernel⟩

end Autotree.Config
