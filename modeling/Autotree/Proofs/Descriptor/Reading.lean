import Mathlib.Data.List.Basic
import Autotree.Text.Blank

/-!
# Reading assignments

How make takes a text of assignments apart: a line that ends in a backslash goes
on with the next one, the first ` = ` of a line ends the variable's name, and the
value is a list of words between blanks that stand outside single quotes.

Each of the three steps is a function of its own.  What a piece of text
contributes to a step does not depend on what follows the piece, and the
predicates below (`Spells`, `Passes`, `Reads`) state this for one piece, so that
the reading of a text is put together from that of its pieces.
-/

namespace Autotree.Descriptor

/-- An assignment to a variable. -/
structure Assignment where
  name : String
  words : List String
deriving DecidableEq, Repr

/-- A text by lines, each continued over the line ends that follow a backslash. -/
def logicalLines : List Char → List (List Char)
  | [] => [[]]
  | '\\' :: '\n' :: rest => (logicalLines rest).modifyHead (' ' :: ·)
  | '\n' :: rest => [] :: logicalLines rest
  | c :: rest => (logicalLines rest).modifyHead (c :: ·)

/-- A character between two words. -/
def isGap (c : Char) : Bool :=
  c == ' ' || c == '\t'

theorem isGap_eq_false_iff {c : Char} : isGap c = false ↔ c ≠ ' ' ∧ c ≠ '\t' := by
  simp [isGap]

/-- What stands between the gaps of a value, the gaps inside single quotes apart. -/
def pieces : Bool → List Char → List (List Char)
  | _, [] => [[]]
  | quoted, c :: rest =>
    if isGap c && !quoted then [] :: pieces quoted rest
    else (pieces (quoted != (c == '\'')) rest).modifyHead (c :: ·)

/-- The words of a value, with their quotes. -/
def valueWords (value : List Char) : List (List Char) :=
  (pieces false value).filter (· ≠ [])

/-- A line before and after its first ` = `. -/
def splitAssignment : List Char → Option (List Char × List Char)
  | [] => none
  | ' ' :: '=' :: ' ' :: rest => some ([], rest)
  | c :: rest => (splitAssignment rest).map fun (name, value) => (c :: name, value)

/-- The assignment that a line makes. -/
def readLine (line : List Char) : Option Assignment :=
  (splitAssignment line).map fun (name, value) =>
    ⟨String.ofList name, (valueWords value).map String.ofList⟩

/-- The assignments of a text, unless a line that is not blank makes none. -/
def read (text : String) : Option (List Assignment) :=
  ((logicalLines text.toList).filter (·.any (!isGap ·))).mapM readLine

/-! ## Lines -/

/-- Characters that add `line` to the line they stand on. -/
def Spells (cs line : List Char) : Prop :=
  ∀ rest, logicalLines (cs ++ rest) = (logicalLines rest).modifyHead (line ++ ·)

/-- Characters that neither end nor continue a line. -/
def Smooth (cs : List Char) : Prop :=
  ∀ c ∈ cs, c ≠ '\\' ∧ c ≠ '\n'

instance (cs : List Char) : Decidable (Smooth cs) :=
  List.decidableBAll (fun c => c ≠ '\\' ∧ c ≠ '\n') cs

theorem Smooth.append {as bs : List Char} (ha : Smooth as) (hb : Smooth bs) : Smooth (as ++ bs) :=
  fun c hc => (List.mem_append.1 hc).elim (ha c) (hb c)

theorem Spells.append {as bs line more : List Char} (has : Spells as line) (hbs : Spells bs more) :
    Spells (as ++ bs) (line ++ more) := by
  intro rest
  rw [List.append_assoc, has, hbs, List.modifyHead_modifyHead]
  congr 1
  funext next
  simp

theorem Spells.of_smooth {cs : List Char} (h : Smooth cs) : Spells cs cs := by
  intro rest
  induction cs with
  | nil => exact (List.modifyHead_id ▸ rfl)
  | cons c cs ih =>
    obtain ⟨⟨hslash, hline⟩, hcs⟩ := List.forall_mem_cons.1 h
    rw [List.cons_append, logicalLines, ih hcs, List.modifyHead_modifyHead]
    · rfl
    · intro more hc
      exact absurd hc hslash
    · exact hline

theorem spells_continuation : Spells ['\\', '\n', '\t'] [' ', '\t'] := by
  intro rest
  simp only [List.cons_append, List.nil_append]
  rw [logicalLines, ← List.singleton_append, Spells.of_smooth (by simp [Smooth]),
    List.modifyHead_modifyHead]
  rfl

/-- A line end closes the line that was spelled before it. -/
theorem Spells.line {cs line : List Char} (h : Spells cs line) (rest : List Char) :
    logicalLines (cs ++ '\n' :: rest) = line :: logicalLines rest := by
  simp [h ('\n' :: rest), logicalLines]

/-! ## Words -/

/-- Characters that a reader in state `q` takes into the current word, and that
leave it in state `r`. -/
def Passes (q : Bool) (cs : List Char) (r : Bool) : Prop :=
  ∀ rest, pieces q (cs ++ rest) = (pieces r rest).modifyHead (cs ++ ·)

theorem Passes.append {q r u : Bool} {as bs : List Char} (has : Passes q as r)
    (hbs : Passes r bs u) : Passes q (as ++ bs) u := by
  intro rest
  rw [List.append_assoc, has, hbs, List.modifyHead_modifyHead]
  congr 1
  funext next
  simp

theorem passes_nil (q : Bool) : Passes q [] q :=
  fun _ => List.modifyHead_id ▸ rfl

theorem passes_quote (q : Bool) : Passes q ['\''] !q := by
  intro rest
  cases q <;> rfl

theorem passes_quoted {cs : List Char} (h : '\'' ∉ cs) : Passes true cs true := by
  induction cs with
  | nil => exact passes_nil true
  | cons c cs ih =>
    obtain ⟨hc, hcs⟩ := List.ne_and_not_mem_of_not_mem_cons h
    have one : Passes true [c] true := by
      intro rest
      have hquote : (c == '\'') = false := by simpa using hc.symm
      simp [pieces, hquote]
    exact one.append (ih hcs)

theorem passes_open {cs : List Char} (h : ∀ c ∈ cs, isGap c = false ∧ c ≠ '\'') :
    Passes false cs false := by
  induction cs with
  | nil => exact passes_nil false
  | cons c cs ih =>
    obtain ⟨⟨hgap, hquote⟩, hcs⟩ := List.forall_mem_cons.1 h
    have one : Passes false [c] false := by
      intro rest
      have hclosed : (c == '\'') = false := by simpa using hquote
      simp [pieces, hgap, hclosed]
    exact one.append (ih hcs)

theorem valueWords_gap {c : Char} (h : isGap c = true) (rest : List Char) :
    valueWords (c :: rest) = valueWords rest := by
  simp [valueWords, pieces, h]

/-- A text that is one word of a value, wherever it stands. -/
structure IsWord (text : String) : Prop where
  ne_nil : text.toList ≠ []
  passes : Passes false text.toList false
  smooth : Smooth text.toList

theorem IsWord.valueWords_eq {text : String} (h : IsWord text) :
    valueWords text.toList = [text.toList] := by
  have hall := h.passes []
  rw [List.append_nil] at hall
  simp [valueWords, hall, pieces, h.ne_nil]

theorem IsWord.valueWords_append {text : String} (h : IsWord text) {c : Char}
    (hc : isGap c = true) (rest : List Char) :
    valueWords (text.toList ++ c :: rest) = text.toList :: valueWords rest := by
  simp [valueWords, h.passes (c :: rest), pieces, hc, h.ne_nil]

/-! ## Values -/

/-- A text that, as a value, is the list `words`. -/
def IsValue (text : String) (words : List String) : Prop :=
  ∃ line, Spells text.toList line ∧ valueWords line = words.map String.toList

theorem isValue_empty : IsValue "" [] :=
  ⟨[], Spells.of_smooth (by simp [Smooth]), rfl⟩

theorem IsWord.isValue {text : String} (h : IsWord text) : IsValue text [text] :=
  ⟨text.toList, Spells.of_smooth h.smooth, h.valueWords_eq⟩

theorem IsValue.cons {word text : String} {words : List String} (hword : IsWord word)
    (h : IsValue text words) : IsValue (word ++ " " ++ text) (word :: words) := by
  obtain ⟨line, hspells, hwords⟩ := h
  refine ⟨word.toList ++ [' '] ++ line, ?_, ?_⟩
  · simp only [String.toList_append]
    exact ((Spells.of_smooth hword.smooth).append (Spells.of_smooth (by decide))).append hspells
  · rw [List.append_assoc, List.singleton_append, hword.valueWords_append rfl, hwords,
      List.map_cons]

theorem IsValue.continued {text : String} {words : List String} (h : IsValue text words) :
    IsValue ("\\\n\t" ++ text) words := by
  obtain ⟨line, hspells, hwords⟩ := h
  refine ⟨[' ', '\t'] ++ line, ?_, ?_⟩
  · rw [String.toList_append]
    exact spells_continuation.append hspells
  · simp only [List.cons_append, List.nil_append]
    rw [valueWords_gap rfl, valueWords_gap rfl, hwords]

theorem isValue_intercalate {words : List String} (h : ∀ word ∈ words, IsWord word) :
    IsValue (" ".intercalate words) words := by
  induction words with
  | nil => exact isValue_empty
  | cons word rest ih =>
    obtain ⟨hword, hrest⟩ := List.forall_mem_cons.1 h
    cases rest with
    | nil => simpa using hword.isValue
    | cons next rest =>
      rw [String.intercalate_cons_cons]
      exact IsValue.cons hword (ih hrest)

/-! ## Assignments -/

/-- A text of whole lines that make the given assignments. -/
def Reads (text : String) (assignments : List Assignment) : Prop :=
  ∀ rest, read (text ++ rest) = (read rest).map (assignments ++ ·)

theorem Reads.append {a b : String} {as bs : List Assignment} (ha : Reads a as) (hb : Reads b bs) :
    Reads (a ++ b) (as ++ bs) := by
  intro rest
  rw [String.append_assoc, ha, hb, Option.map_map]
  congr 1
  funext more
  simp

theorem reads_empty : Reads "" [] := by
  intro rest
  simp

theorem reads_join {ι : Type} {text : ι → String} {line : ι → Assignment} {items : List ι}
    (h : ∀ item ∈ items, Reads (text item) [line item]) :
    Reads (String.join (items.map text)) (items.map line) := by
  induction items with
  | nil => exact reads_empty
  | cons item items ih =>
    obtain ⟨hitem, hitems⟩ := List.forall_mem_cons.1 h
    rw [List.map_cons, String.join_cons]
    exact hitem.append (ih hitems)

theorem Reads.read_eq {text : String} {assignments : List Assignment}
    (h : Reads text assignments) : read text = some assignments := by
  have hend := h ""
  rw [String.append_empty] at hend
  rw [hend, show read "" = some [] from rfl, Option.map_some, List.append_nil]

theorem reads_lineEnd : Reads "\n" [] := by
  intro rest
  simp [read, String.toList_append, logicalLines]

/-- The characters of a variable's name. -/
def IsName (name : String) : Prop :=
  ∀ c ∈ name.toList, isGap c = false ∧ c ≠ '\\' ∧ c ≠ '\n'

instance (name : String) : Decidable (IsName name) :=
  List.decidableBAll (fun c => isGap c = false ∧ c ≠ '\\' ∧ c ≠ '\n') name.toList

theorem splitAssignment_append {name : List Char} (h : ∀ c ∈ name, isGap c = false)
    (value : List Char) :
    splitAssignment (name ++ " = ".toList ++ value) = some (name, value) := by
  induction name with
  | nil => rfl
  | cons c name ih =>
    obtain ⟨hc, hname⟩ := List.forall_mem_cons.1 h
    have hspace : c ≠ ' ' := by
      rintro rfl
      exact absurd hc (by decide)
    rw [List.cons_append, List.cons_append, splitAssignment, ih hname]
    · rfl
    · intro rest hblank
      exact absurd hblank hspace

/-- The part of a line in front of the value of a variable. -/
def IsHead (head name : String) : Prop :=
  head = name ++ " = " ∧ IsName name

instance (head name : String) : Decidable (IsHead head name) :=
  inferInstanceAs (Decidable (_ ∧ _))

theorem IsHead.reads {head name text : String} {words : List String} (h : IsHead head name)
    (hvalue : IsValue text words) : Reads (head ++ text ++ "\n") [⟨name, words⟩] := by
  intro rest
  obtain ⟨rfl, hname⟩ := h
  obtain ⟨line, hspells, hwords⟩ := hvalue
  have hsmooth : Smooth name.toList := fun c hc => (hname c hc).2
  have hhead : Spells (name ++ " = ").toList (name.toList ++ " = ".toList) := by
    rw [String.toList_append]
    exact (Spells.of_smooth hsmooth).append (Spells.of_smooth (by decide))
  have hlines : logicalLines (name ++ " = " ++ text ++ "\n" ++ rest).toList =
      (name.toList ++ " = ".toList ++ line) :: logicalLines rest.toList := by
    have hline := (hhead.append hspells).line rest.toList
    simpa using hline
  have hkept : (name.toList ++ " = ".toList ++ line).any (!isGap ·) = true := by
    simp [isGap]
  have hread : readLine (name.toList ++ " = ".toList ++ line) = some ⟨name, words⟩ := by
    have hgap : ∀ c ∈ name.toList, isGap c = false := fun c hc => (hname c hc).1
    rw [readLine, splitAssignment_append hgap]
    simp [hwords, Function.comp_def]
  simp only [read, hlines, List.filter_cons, hkept, if_true, List.mapM_cons, hread]
  cases List.mapM readLine _ <;> rfl

section

variable {before head name text : String} {words : List String} {assignments : List Assignment}
  (hbefore : Reads before assignments) (hhead : IsHead head name) (hvalue : IsValue text words)

include hbefore hhead hvalue

/-- One more line after a text that is read. -/
theorem Reads.line :
    Reads (before ++ head ++ text ++ "\n") (assignments ++ [⟨name, words⟩]) := by
  have hlines := hbefore.append (hhead.reads hvalue)
  rwa [← String.append_assoc, ← String.append_assoc] at hlines

/-- One more line with a blank line behind it. -/
theorem Reads.paragraph :
    Reads (before ++ head ++ text ++ "\n\n") (assignments ++ [⟨name, words⟩]) := by
  have hlines := (hbefore.line hhead hvalue).append reads_lineEnd
  rwa [List.append_nil, String.append_assoc, show "\n" ++ "\n" = "\n\n" by decide] at hlines

end

end Autotree.Descriptor
