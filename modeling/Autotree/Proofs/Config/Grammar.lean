import Mathlib.Data.List.Forall2
import Autotree.Proofs.Config.Reading

/-!
# The grammar of a configuration file

A text is accepted exactly if each of its lines is skipped or has one `=` in it, and then it has one
entry for each line that assigns; otherwise the first line that does neither is reported
(`parsing`).  Lines are read on their own, so a text that follows another one after a line
feed is read as by itself, only with later line numbers (`parseLines_append`, `parseLines_moved`).
-/

namespace Autotree

open Text

namespace Entry

variable {line : String} {n k : Nat}

/-! ## The kinds of lines -/

/-- A blank line, or a comment. -/
def IsSkipped (line : String) : Prop :=
  trim line = "" ∨ (trim line).toList.head? = some '#'

/-- A line with one `=`, where one inside a trailing comment counts too. -/
def HasOneEquals (line : String) : Prop :=
  (trim line).toList.count '=' = 1

/-- A line that the grammar allows. -/
def IsAllowed (line : String) : Prop :=
  IsSkipped line ∨ HasOneEquals line

/-- A line that assigns a value to a key. -/
def IsAssignment (line : String) : Prop :=
  ¬IsSkipped line ∧ HasOneEquals line

instance (line : String) : Decidable (IsSkipped line) :=
  inferInstanceAs (Decidable (_ ∨ _))

instance (line : String) : Decidable (HasOneEquals line) :=
  inferInstanceAs (Decidable (_ = _))

instance (line : String) : Decidable (IsAssignment line) :=
  inferInstanceAs (Decidable (_ ∧ _))

/-- The entry that a line with a number makes: its key stands in front of the `=`, and its value
between the `=` and the first `#` behind it. -/
structure MadeBy (line : String × Nat) (entry : Entry) : Prop where
  lineNo_eq : entry.lineNo = line.2
  sides : ∃ front back, trim line.1 = front ++ "=" ++ back ∧ '=' ∉ front.toList ∧
    '=' ∉ back.toList ∧ entry.key = upper (trim front) ∧
    entry.value = trim (String.ofList (back.toList.takeWhile (· != '#')))

theorem isSkipped_iff : IsSkipped line ↔ Idle line.toList := by
  rw [idle_iff, IsSkipped, ← String.toList_inj, toList_trim]
  rfl

theorem readLine_trim (line : String) : readLine (trim line).toList = readLine line.toList := by
  rw [readLine, toList_trim, (trimmed_trimChars line.toList).trimChars_eq, readLine]

theorem isSkipped_trim (line : String) : IsSkipped (trim line) ↔ IsSkipped line := by
  rw [isSkipped_iff, isSkipped_iff, idle_iff, idle_iff, toList_trim,
    (trimmed_trimChars line.toList).trimChars_eq]

theorem madeBy_of_sides {front back : List Char} (h : (trim line).toList = front ++ '=' :: back)
    (hfront : '=' ∉ front) (hback : '=' ∉ back) (n : Nat) :
    MadeBy (line, n) ⟨n, keyOf front, valueOf back⟩ := by
  refine ⟨rfl, String.ofList front, String.ofList back, ?_, by simpa, by simpa, rfl, ?_⟩
  · rw [← String.toList_inj, h]
    simp
  · simp only [valueOf, valueChars, trim, String.toList_ofList]

/-- Reading a line, by its kind. -/
theorem readLine_kinds (line : String) :
    (IsSkipped line ∧ readLine line.toList = .skipped) ∨
      (IsAssignment line ∧ ∃ key value, readLine line.toList = .assignment key value ∧
        ∀ n, MadeBy (line, n) ⟨n, key, value⟩) ∨
      (¬IsAllowed line ∧ readLine line.toList = .malformed (trim line)) := by
  rw [← readLine_trim]
  rcases readLine_cases (trim line).toList with
    ⟨hidle, hread⟩ | ⟨front, back, hsides, hfront, hback, hidle, hread⟩ | ⟨hidle, hcount, hread⟩
  all_goals rw [← isSkipped_iff, isSkipped_trim] at hidle
  · exact .inl ⟨hidle, hread⟩
  · have hone : HasOneEquals line := by
      rw [HasOneEquals, hsides, List.count_append, List.count_cons_self,
        List.count_eq_zero_of_not_mem hfront, List.count_eq_zero_of_not_mem hback]
    exact .inr (.inl ⟨⟨hidle, hone⟩, _, _, hread, madeBy_of_sides hsides hfront hback⟩)
  · refine .inr (.inr ⟨not_or.2 ⟨hidle, hcount⟩, ?_⟩)
    rw [hread, toList_trim, (trimmed_trimChars line.toList).trimChars_eq, ← toList_trim,
      String.ofList_toList]

/-! ## Lines with their numbers -/

/-- What reading lines comes to, the first of which has number `n`. -/
inductive Parsing (n : Nat) (lines : List String) : Except ConfigError (List Entry) → Prop where
  | accepted {entries : List Entry} (h : ∀ line ∈ lines, IsAllowed line)
    (hentries : List.Forall₂ MadeBy ((lines.zipIdx n).filter (IsAssignment ·.1)) entries) :
    Parsing n lines (.ok entries)
  | refused {line : String × Nat} (h : IsFirst (¬IsAllowed ·.1) (lines.zipIdx n) line) :
    Parsing n lines (.error (.malformedLine line.2 (trim line.1)))

theorem IsAssignment.isAllowed (h : IsAssignment line) : IsAllowed line :=
  .inr h.2

/-- An allowed line in front, which makes an entry or none. -/
theorem Parsing.cons {lines : List String} {r : Except ConfigError (List Entry)}
    {made : List Entry} (hallowed : IsAllowed line)
    (hmade : List.Forall₂ MadeBy ([(line, n)].filter (IsAssignment ·.1)) made)
    (h : Parsing (n + 1) lines r) : Parsing n (line :: lines) (r.map (made ++ ·)) := by
  cases h with
  | accepted hlines hentries =>
    refine .accepted (List.forall_mem_cons.2 ⟨hallowed, hlines⟩) ?_
    rw [List.zipIdx_cons, ← List.singleton_append, List.filter_append]
    exact List.rel_append hmade hentries
  | refused h =>
    obtain ⟨before, after, hlines, hbad, hbefore⟩ := h
    refine .refused ⟨(line, n) :: before, after, ?_, hbad, ?_⟩
    · rw [List.zipIdx_cons, hlines, List.cons_append]
    · exact List.forall_mem_cons.2 ⟨not_not.2 hallowed, hbefore⟩

theorem parsing (n : Nat) (lines : List String) :
    Parsing n lines (parseLines n (lines.map String.toList)) := by
  induction lines generalizing n with
  | nil => exact .accepted (List.forall_mem_nil _) .nil
  | cons line lines ih =>
    rw [List.map_cons, parseLines]
    rcases readLine_kinds line with ⟨hskipped, hread⟩ | ⟨hassign, key, value, hread, hmade⟩ |
      ⟨hnot, hread⟩
    · have hnone : ¬IsAssignment line := fun h => h.1 hskipped
      have hmade : List.Forall₂ MadeBy ([(line, n)].filter (IsAssignment ·.1)) [] := by simp [hnone]
      have hcons := (ih (n + 1)).cons (.inl hskipped) hmade
      rw [hread]
      cases h : parseLines (n + 1) (lines.map String.toList) <;> rwa [h] at hcons
    · have hmade :
          List.Forall₂ MadeBy ([(line, n)].filter (IsAssignment ·.1)) [⟨n, key, value⟩] := by
        simpa [hassign] using hmade n
      have hcons := (ih (n + 1)).cons hassign.isAllowed hmade
      rw [hread]
      exact hcons
    · rw [hread]
      have hfirst : IsFirst (¬IsAllowed ·.1) ((line :: lines).zipIdx n) (line, n) :=
        ⟨[], lines.zipIdx (n + 1), List.zipIdx_cons, hnot, List.forall_mem_nil _⟩
      exact .refused hfirst

/-- The numbers of entries increase. -/
theorem pairwise_lineNo {lines : List (String × Nat)} {entries : List Entry}
    (hlines : (lines.map (·.2)).Pairwise (· < ·)) (h : List.Forall₂ MadeBy lines entries) :
    entries.Pairwise (·.lineNo < ·.lineNo) := by
  have hnumbers : entries.map (·.lineNo) = lines.map (·.2) := by
    induction h with
    | nil => rfl
    | cons h _ ih =>
      rw [List.map_cons] at hlines
      rw [List.map_cons, List.map_cons, h.lineNo_eq, ih hlines.of_cons]
  exact List.pairwise_map.1 (hnumbers ▸ hlines)

/-! ## One text after another -/

/-- An entry `k` lines further down. -/
def moved (k : Nat) (entry : Entry) : Entry :=
  { entry with lineNo := entry.lineNo + k }

end Entry

/-- The error for a line that stands `k` lines further down. -/
def ConfigError.moved (k : Nat) : ConfigError → ConfigError
  | .malformedLine lineNo line => .malformedLine (lineNo + k) line
  | e => e

namespace Entry

/-- What a text is read as when it begins `k` lines further down. -/
def movedResult (k : Nat) (r : Except ConfigError (List Entry)) : Except ConfigError (List Entry) :=
  (r.map (·.map (moved k))).mapError (.moved k)

theorem parseLines_moved (n k : Nat) (lines : List (List Char)) :
    parseLines (n + k) lines = movedResult k (parseLines n lines) := by
  induction lines generalizing n with
  | nil => rfl
  | cons line lines ih =>
    have hnext : parseLines (n + k + 1) lines = movedResult k (parseLines (n + 1) lines) := by
      rw [← ih, Nat.add_right_comm]
    rw [parseLines, parseLines]
    cases readLine line with
    | skipped => exact hnext
    | malformed text => rfl
    | assignment key value =>
      simp only [hnext]
      cases parseLines (n + 1) lines <;> rfl

theorem parseLines_append (n : Nat) (lines more : List (List Char)) :
    parseLines n (lines ++ more) = parseLines n lines >>= fun entries =>
      (parseLines (n + lines.length) more).map (entries ++ ·) := by
  induction lines generalizing n with
  | nil => cases h : parseLines n more <;> simp [parseLines, h] <;> rfl
  | cons line lines ih =>
    have hlength : n + 1 + lines.length = n + (line :: lines).length := by
      rw [List.length_cons]
      omega
    rw [List.cons_append, parseLines, parseLines, ih, hlength]
    cases readLine line with
    | skipped => rfl
    | malformed text => rfl
    | assignment key value =>
      cases parseLines (n + 1) lines with
      | error e => rfl
      | ok entries => cases parseLines (n + (line :: lines).length) more <;> rfl

/-- A text after another one and a line feed is read as by itself, further down. -/
theorem parse_append (text more : String) :
    parse (text ++ "\n" ++ more) = parse text >>= fun entries =>
      (movedResult (1 + text.toList.count '\n') (parse more)).map (entries ++ ·) := by
  rw [parse_eq, parse_eq, parse_eq, pieces_append, parseLines_append, length_pieces,
    parseLines_moved]

/-- A text is accepted exactly if every line is allowed, and then the lines that assign make one
entry each, in order and under their numbers.  Otherwise the first line that is not allowed is
reported, with its number and trimmed.  A text behind another one is read as by itself, with the
line numbers that it has there, and an error in the first one comes first. -/
theorem parse_by_lines (text : String) :
    ((∃ entries, parse text = .ok entries) ↔ ∀ line ∈ lines text, IsAllowed line) ∧
    (∀ entries, parse text = .ok entries →
      List.Forall₂ MadeBy (((lines text).zipIdx 1).filter (IsAssignment ·.1)) entries ∧
        entries.Pairwise (·.lineNo < ·.lineNo)) ∧
    (∀ e, parse text = .error e ↔
      ∃ line, IsFirst (¬IsAllowed ·.1) ((lines text).zipIdx 1) line ∧
        e = .malformedLine line.2 (trim line.1)) ∧
    ∀ more, parse (text ++ "\n" ++ more) = parse text >>= fun entries =>
      (movedResult (1 + text.toList.count '\n') (parse more)).map (entries ++ ·) := by
  have hparsing := parsing 1 (lines text)
  rw [← charLines_eq] at hparsing
  change Parsing 1 (lines text) (parse text) at hparsing
  refine ⟨?_, ?_, ?_, parse_append text⟩
  all_goals generalize parse text = r at hparsing
  · cases hparsing with
    | accepted h hentries => exact ⟨fun _ => h, fun _ => ⟨_, rfl⟩⟩
    | refused h =>
      exact ⟨nofun, fun hall => absurd (hall _ (List.fst_mem_of_mem_zipIdx h.mem)) h.holds⟩
  · rintro entries rfl
    cases hparsing with
    | accepted h hentries =>
      refine ⟨hentries, pairwise_lineNo (.sublist (List.filter_sublist.map _) ?_) hentries⟩
      rw [List.zipIdx_map_snd]
      exact List.pairwise_lt_range' 1
  · intro e
    cases hparsing with
    | accepted h hentries =>
      refine ⟨nofun, ?_⟩
      rintro ⟨line, hfirst, -⟩
      exact absurd (h _ (List.fst_mem_of_mem_zipIdx hfirst.mem)) hfirst.holds
    | @refused line h =>
      constructor
      · rintro ⟨⟩
        exact ⟨line, h, rfl⟩
      · rintro ⟨other, hother, rfl⟩
        rw [h.unique hother]

end Entry

end Autotree
