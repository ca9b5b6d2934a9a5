import Autotree.Config.Resolve
import Autotree.Proofs.Text.LetterCase
import Autotree.Proofs.Text.Lines

/-!
# What a configuration file assigns

A line is idle, assigns a value to a key, or is malformed, and which of the three it is can be
told without trimming it (`readLine_idle`, `readLine_assignment`, `readLine_malformed`).  Reading a
text fails exactly if one of its lines is malformed, and otherwise it gives the assignments of the
lines (`parse_cases`).  Resolving them asks for the first key that the schema does not know
(`resolve_eq`), and then of each name for the last value assigned to it (`assigned?_eq`).
-/

namespace Autotree

/-! ## The first and the last of a list -/

section

variable {α : Type} {p : α → Prop} {as : List α} {a b : α}

/-- An element with a property that none before it has. -/
def IsFirst (p : α → Prop) (as : List α) (a : α) : Prop :=
  ∃ before after, as = before ++ a :: after ∧ p a ∧ ∀ b ∈ before, ¬p b

/-- An element with a property that none after it has. -/
def IsLast (p : α → Prop) (as : List α) (a : α) : Prop :=
  ∃ before after, as = before ++ a :: after ∧ p a ∧ ∀ b ∈ after, ¬p b

theorem isFirst_iff_find? [DecidablePred p] : IsFirst p as a ↔ as.find? (p ·) = some a := by
  rw [List.find?_eq_some_iff_append]
  constructor
  · rintro ⟨before, after, rfl, ha, hbefore⟩
    exact ⟨decide_eq_true ha, before, after, rfl, fun b hb => by simpa using hbefore b hb⟩
  · rintro ⟨ha, before, after, rfl, hbefore⟩
    exact ⟨before, after, rfl, of_decide_eq_true ha, fun b hb => by simpa using hbefore b hb⟩

theorem isLast_iff_isFirst_reverse : IsLast p as a ↔ IsFirst p as.reverse a := by
  constructor
  · rintro ⟨before, after, rfl, ha, hafter⟩
    exact ⟨after.reverse, before.reverse, by simp, ha, by simpa using hafter⟩
  · rintro ⟨before, after, has, ha, hbefore⟩
    refine ⟨after.reverse, before.reverse, ?_, ha, by simpa using hbefore⟩
    rw [← List.reverse_reverse as, has]
    simp

theorem isLast_iff_find? [DecidablePred p] : IsLast p as a ↔ as.reverse.find? (p ·) = some a := by
  rw [isLast_iff_isFirst_reverse, isFirst_iff_find?]

theorem exists_isFirst (h : ∃ a ∈ as, p a) : ∃ a, IsFirst p as a := by
  classical
  have hsome : (as.find? (p ·)).isSome := by simpa [List.find?_isSome] using h
  obtain ⟨a, ha⟩ := Option.isSome_iff_exists.1 hsome
  exact ⟨a, isFirst_iff_find?.2 ha⟩

theorem IsFirst.unique (ha : IsFirst p as a) (hb : IsFirst p as b) : a = b := by
  classical
  rw [isFirst_iff_find?] at ha hb
  exact Option.some.inj (ha.symm.trans hb)

theorem IsFirst.mem (h : IsFirst p as a) : a ∈ as := by
  obtain ⟨before, after, rfl, -⟩ := h
  simp

theorem IsFirst.holds (h : IsFirst p as a) : p a :=
  h.choose_spec.choose_spec.2.1

end

namespace Entry

open Text

/-! ## Lines that say nothing -/

/-- A line with nothing in it but blanks, or with a `#` before anything else. -/
def Idle (line : List Char) : Prop :=
  AllBlank line ∨ (line.dropWhile isBlank).head? = some '#'

theorem idle_iff {line : List Char} :
    Idle line ↔ trimChars line = [] ∨ (trimChars line).head? = some '#' := by
  have hblank : AllBlank line ↔ trimChars line = [] := by
    rw [← List.head?_eq_none_iff, head?_trimChars, List.head?_eq_none_iff,
      List.dropWhile_eq_nil_iff]
    exact Iff.rfl
  rw [Idle, hblank, head?_trimChars]

theorem readLine_idle {line : List Char} (h : Idle line) : readLine line = .skipped := by
  rw [readLine, readTrimmed, if_pos]
  simpa [List.isEmpty_iff] using idle_iff.1 h

/-- Whether a line with a character in it that is neither a blank nor a `#` is idle can be seen in
front of that character. -/
theorem idle_append_cons {c : Char} (hblank : isBlank c = false) (hc : c ≠ '#')
    (front back : List Char) :
    Idle (front ++ c :: back) ↔ (trimChars front).head? = some '#' := by
  have hnot : ¬AllBlank (front ++ c :: back) := fun h => h.not_mem hblank (by simp)
  rw [Idle, or_iff_right hnot, dropWhile_append_cons hblank, head?_trimChars]
  cases front.dropWhile isBlank <;> simp [hc]

/-! ## Assignments -/

theorem valueChars_append_hash (front back : List Char) :
    valueChars (front ++ '#' :: back) = valueChars front := by
  induction front with
  | nil => rfl
  | cons c front ih =>
    rw [List.cons_append, valueChars, valueChars, List.takeWhile_cons, List.takeWhile_cons]
    split
    · exact congrArg (c :: ·) ih
    · rfl

theorem valueChars_of_not_mem {cs : List Char} (h : '#' ∉ cs) : valueChars cs = cs := by
  rw [valueChars, List.takeWhile_eq_self_iff]
  exact fun c hc => bne_iff_ne.2 fun heq => h (heq ▸ hc)

theorem hash_not_mem_valueChars (cs : List Char) : '#' ∉ valueChars cs :=
  fun h => absurd (List.mem_takeWhile_imp h) (by decide)

theorem valueChars_blank_append {as : List Char} (ha : AllBlank as) (cs : List Char) :
    valueChars (as ++ cs) = as ++ valueChars cs := by
  rw [valueChars, List.takeWhile_append_of_pos, valueChars]
  exact fun c hc => bne_iff_ne.2 fun heq => absurd (ha c hc) (by rw [heq]; decide)

theorem trimChars_valueChars_append_blank {bs : List Char} (hb : AllBlank bs) (cs : List Char) :
    trimChars (valueChars (cs ++ bs)) = trimChars (valueChars cs) := by
  by_cases h : '#' ∈ cs
  · obtain ⟨front, back, rfl⟩ := List.append_of_mem h
    rw [List.append_assoc, List.cons_append, valueChars_append_hash, valueChars_append_hash]
  · have hbs : '#' ∉ bs := hb.not_mem (by decide)
    rw [valueChars_of_not_mem h, valueChars_of_not_mem (by simp [h, hbs]),
      trimChars_append_blank hb]

/-- The value that a line assigns, by what stands behind its `=`. -/
def valueOf (back : List Char) : String :=
  String.ofList (trimChars (valueChars back))

/-- The key to which a line assigns, by what stands in front of its `=`. -/
def keyOf (front : List Char) : String :=
  OptionSpec.canonicalName (String.ofList front)

theorem keyOf_congr {front front' : List Char} (h : trimChars front = trimChars front') :
    keyOf front = keyOf front' := by
  simp [keyOf, OptionSpec.canonicalName, trim, h]

theorem valueOf_append_blank {bs : List Char} (hb : AllBlank bs) (back : List Char) :
    valueOf (back ++ bs) = valueOf back := by
  rw [valueOf, trimChars_valueChars_append_blank hb, valueOf]

theorem readLine_assignment {front back : List Char} (hfront : '=' ∉ front) (hback : '=' ∉ back)
    (h : ¬Idle (front ++ '=' :: back)) :
    readLine (front ++ '=' :: back) = .assignment (keyOf front) (valueOf back) := by
  rw [idle_iff] at h
  -- trimming takes blanks off the front of the key and off the back of the value only
  have hkey : '=' ∉ front.dropWhile isBlank := fun hmem => hfront (List.dropWhile_subset _ hmem)
  have hvalue : '=' ∉ back.rdropWhile isBlank :=
    fun hmem => hback ((List.rdropWhile_prefix ..).subset hmem)
  have hpadding : back.rdropWhile isBlank ++ back.rtakeWhile isBlank = back :=
    List.rdropWhile_append_rtakeWhile
  have hblank : AllBlank (back.rtakeWhile isBlank) := fun c hc => List.mem_rtakeWhile_imp hc
  rw [readLine, readTrimmed, if_neg (by simpa [List.isEmpty_iff] using h),
    trimChars_append_cons (by decide), splitOn_eq_pair hkey hvalue]
  simp only [Line.assignment.injEq]
  constructor
  · exact keyOf_congr (trimChars_dropWhile front)
  · rw [← valueOf, ← valueOf_append_blank hblank, hpadding]

/-! ## Malformed lines -/

theorem count_trimChars {c : Char} (hc : isBlank c = false) (cs : List Char) :
    (trimChars cs).count c = cs.count c := by
  obtain ⟨as, bs, ha, hb, hcs⟩ := exists_padding cs
  rw [hcs, List.count_append, List.count_append, ha.count_eq_zero hc, hb.count_eq_zero hc, ← hcs]
  omega

theorem readLine_malformed {line : List Char} (h : ¬Idle line) (hcount : line.count '=' ≠ 1) :
    readLine line = .malformed (String.ofList (trimChars line)) := by
  rw [idle_iff] at h
  rw [readLine, readTrimmed, if_neg (by simpa [List.isEmpty_iff] using h)]
  split
  · next hsplit =>
    rw [← count_trimChars (by decide)] at hcount
    exact absurd (count_of_splitOn_eq_pair hsplit) hcount
  · rfl

/-- The three kinds of lines. -/
theorem readLine_cases (line : List Char) :
    (Idle line ∧ readLine line = .skipped) ∨
      (∃ front back, line = front ++ '=' :: back ∧ '=' ∉ front ∧ '=' ∉ back ∧ ¬Idle line ∧
        readLine line = .assignment (keyOf front) (valueOf back)) ∨
      (¬Idle line ∧ line.count '=' ≠ 1 ∧
        readLine line = .malformed (String.ofList (trimChars line))) := by
  by_cases hidle : Idle line
  · exact .inl ⟨hidle, readLine_idle hidle⟩
  · by_cases hcount : line.count '=' = 1
    · obtain ⟨front, back, rfl, hfront, hback⟩ := exists_of_count_eq_one hcount
      exact .inr (.inl ⟨front, back, rfl, hfront, hback, hidle,
        readLine_assignment hfront hback hidle⟩)
    · exact .inr (.inr ⟨hidle, hcount, readLine_malformed hidle hcount⟩)

/-! ## Texts -/

def Malformed (line : List Char) : Prop :=
  ∃ text, readLine line = .malformed text

/-- The key and the value of the assignment that a line makes, if it makes one. -/
def assignment? (line : List Char) : Option (String × String) :=
  match readLine line with
  | .assignment key value => some (key, value)
  | _ => none

theorem readLine_of_assignment? {line : List Char} {key value : String}
    (h : assignment? line = some (key, value)) : readLine line = .assignment key value := by
  rw [assignment?] at h
  split at h
  · next hread =>
    rw [hread]
    cases h
    rfl
  · cases h

def binding (entry : Entry) : String × String :=
  (entry.key, entry.value)

theorem parseLines_linesOfPieces (n : Nat) {ps : List (List Char)} (hne : ps ≠ []) :
    parseLines n (linesOfPieces ps) = parseLines n ps := by
  induction ps generalizing n with
  | nil => exact absurd rfl hne
  | cons piece rest ih =>
    cases rest with
    | nil =>
      rw [linesOfPieces]
      split
      · next hempty =>
        rw [List.isEmpty_iff.1 hempty]
        rfl
      · rfl
    | cons next rest =>
      have hrest (m : Nat) := ih m (List.cons_ne_nil next rest)
      have hreturn : readLine (dropReturn piece) = readLine piece := by
        rw [readLine, trimChars_dropReturn, readLine]
      rw [linesOfPieces, parseLines, parseLines, hreturn, hrest]
      simp

theorem parse_eq (text : String) : parse text = parseLines 1 (pieces text) :=
  parseLines_linesOfPieces 1 (pieces_ne_nil text)

/-- Reading lines fails at a malformed one, and gives their assignments where there is none. -/
theorem parseLines_cases (n : Nat) (lines : List (List Char)) :
    (∃ entries, parseLines n lines = .ok entries ∧ (∀ line ∈ lines, ¬Malformed line) ∧
        entries.map binding = lines.filterMap assignment?) ∨
      (∃ lineNo text, parseLines n lines = .error (.malformedLine lineNo text) ∧
        ∃ line ∈ lines, Malformed line) := by
  induction lines generalizing n with
  | nil => exact .inl ⟨[], rfl, by simp, rfl⟩
  | cons line rest ih =>
    cases hline : readLine line with
    | malformed text =>
      exact .inr ⟨n, text, by simp [parseLines, hline], line, List.mem_cons_self, text, hline⟩
    | skipped =>
      have hgood : ¬Malformed line := by simp [Malformed, hline]
      have hnone : assignment? line = none := by simp [assignment?, hline]
      rcases ih (n + 1) with
        ⟨entries, hparse, hrest, hbindings⟩ | ⟨lineNo, text, hparse, bad, hbad, h⟩
      · refine .inl ⟨entries, by simp [parseLines, hline, hparse], ?_, ?_⟩
        · exact List.forall_mem_cons.2 ⟨hgood, hrest⟩
        · rw [hbindings, List.filterMap_cons_none hnone]
      · exact .inr ⟨lineNo, text, by simp [parseLines, hline, hparse], bad,
          List.mem_cons_of_mem _ hbad, h⟩
    | assignment key value =>
      have hgood : ¬Malformed line := by simp [Malformed, hline]
      have hsome : assignment? line = some (key, value) := by simp [assignment?, hline]
      rcases ih (n + 1) with
        ⟨entries, hparse, hrest, hbindings⟩ | ⟨lineNo, text, hparse, bad, hbad, h⟩
      · refine .inl ⟨⟨n, key, value⟩ :: entries, ?_, List.forall_mem_cons.2 ⟨hgood, hrest⟩, ?_⟩
        · simp only [parseLines, hline, hparse]
          rfl
        · rw [List.map_cons, hbindings, List.filterMap_cons_some hsome, binding]
      · refine .inr ⟨lineNo, text, ?_, bad, List.mem_cons_of_mem _ hbad, h⟩
        simp only [parseLines, hline, hparse]
        rfl

theorem parseLines_eq_ok {n : Nat} {lines : List (List Char)} {entries : List Entry}
    (h : parseLines n lines = .ok entries) :
    (∀ line ∈ lines, ¬Malformed line) ∧ entries.map binding = lines.filterMap assignment? := by
  rcases parseLines_cases n lines with ⟨entries', hparse, hgood, hbindings⟩ | ⟨_, _, hparse, -⟩
  · obtain rfl := Except.ok.inj (h.symm.trans hparse)
    exact ⟨hgood, hbindings⟩
  · cases h.symm.trans hparse

theorem exists_parseLines_eq_ok (n : Nat) {lines : List (List Char)}
    (h : ∀ line ∈ lines, ¬Malformed line) : ∃ entries, parseLines n lines = .ok entries := by
  rcases parseLines_cases n lines with ⟨entries, hparse, -⟩ | ⟨_, _, -, line, hline, hbad⟩
  · exact ⟨entries, hparse⟩
  · exact absurd hbad (h line hline)

theorem parse_cases (text : String) :
    (∃ entries, parse text = .ok entries ∧ (∀ line ∈ pieces text, ¬Malformed line) ∧
        entries.map binding = (pieces text).filterMap assignment?) ∨
      (∃ lineNo bad, parse text = .error (.malformedLine lineNo bad) ∧
        ∃ line ∈ pieces text, Malformed line) := by
  rw [parse_eq]
  exact parseLines_cases 1 (pieces text)

end Entry

namespace Schema

/-! ## Resolution -/

/-- The last value assigned to a name. -/
def lastValue? (bindings : List (String × String)) (name : String) : Option String :=
  ((bindings.filter (·.1 == name)).getLast?).map (·.2)

theorem assigned?_eq (entries : List Entry) (name : String) :
    assigned? entries name = lastValue? (entries.map Entry.binding) name := by
  rw [assigned?, lastValue?, List.filter_map, List.getLast?_map, Option.map_map,
    List.getLast?_filter]
  rfl

theorem lastValue?_append (bindings bindings' : List (String × String)) (name : String) :
    lastValue? (bindings ++ bindings') name =
      (lastValue? bindings' name).or (lastValue? bindings name) := by
  rw [lastValue?, List.filter_append, List.getLast?_append, Option.map_or, lastValue?, lastValue?]

theorem lastValue?_eq_none_iff {bindings : List (String × String)} {name : String} :
    lastValue? bindings name = none ↔ ∀ binding ∈ bindings, binding.1 ≠ name := by
  simp [lastValue?]

theorem isSome_assigned? {entries : List Entry} {name : String} :
    (assigned? entries name).isSome ↔ ∃ entry ∈ entries, entry.key = name := by
  simp [assigned?, List.find?_isSome]

/-- The first name among assignments that the schema does not know. -/
def unknown? (schema : Schema) (bindings : List (String × String)) : Option String :=
  (bindings.find? (!schema.contains ·.1)).map (·.1)

theorem resolve_eq (schema : Schema) (entries : List Entry) :
    schema.resolve entries =
      match schema.unknown? (entries.map Entry.binding) with
      | some key => .error (.unknownKey key)
      | none => Resolved.mk <$> schema.options.mapM (argument entries) := by
  rw [resolve, unknown?, List.find?_map]
  have hfind : entries.find? ((fun b => !schema.contains b.1) ∘ Entry.binding) =
      entries.find? (!schema.contains ·.key) := rfl
  rw [hfind]
  cases entries.find? (!schema.contains ·.key) <;> rfl

/-- What entries resolve to depends on the keys and values alone. -/
theorem resolve_congr (schema : Schema) {entries entries' : List Entry}
    (h : entries.map Entry.binding = entries'.map Entry.binding) :
    schema.resolve entries = schema.resolve entries' := by
  have hargument : argument entries = argument entries' := by
    funext option
    rw [argument, assigned?_eq, h, ← assigned?_eq, argument]
  rw [resolve_eq, resolve_eq, h, hargument]

theorem unknown?_eq_none_iff {schema : Schema} {bindings : List (String × String)} :
    schema.unknown? bindings = none ↔
      ∀ name, lastValue? bindings name ≠ none → schema.contains name = true := by
  simp only [unknown?, Option.map_eq_none_iff, List.find?_eq_none, Ne, lastValue?_eq_none_iff]
  constructor
  · intro h name hname
    by_contra hnot
    refine hname fun binding hbinding heq => ?_
    exact h binding hbinding (by simp [heq, hnot])
  · intro h binding hbinding
    simp [h binding.1 fun hall => hall binding hbinding rfl]

end Schema

namespace Config

/-- What a schema makes of the text of a configuration file. -/
def outcome (schema : Schema) (text : String) : Except ConfigError Resolved :=
  Entry.parse text >>= schema.resolve

end Config

end Autotree
