import Mathlib.Data.List.Forall2
import Autotree.Process.Script.Reader

/-!
# Words that a shell reads back

A word may be spelled in many ways.  `Spells` relates what is written to what it stands for, where
plain characters stand for themselves and single quotes keep everything between them.  The reader
agrees with it (`word?_of_spells`), and so a line of such options with blanks between them is read
as what they stand for, one by one (`words?_intercalate`).
-/

namespace Autotree.Script

variable {c : Char} {source text rest : List Char} {fuel : Nat}

/-! ## What a line stands for -/

/-- What a word without parameters stands for, with its quotes removed. -/
def Word.literal? (w : Word) : Option String :=
  match w.fragments with
  | [] => some ""
  | [.text t] => some t
  | _ => none

/-- What a token stands for, if it is a word without parameters. -/
def Token.literal? : Token → Option String
  | .word w => w.literal?
  | _ => none

/-- The words of a line that is nothing but words without parameters. -/
def words? (line : String) : Option (List String) :=
  (tokens? (line.toList.length + 1) line.toList).bind (·.mapM Token.literal?)

theorem literal?_addText {fragments : List Fragment} {q q' : Bool} {t u : String}
    (h : Word.literal? ⟨fragments, q⟩ = some t) :
    Word.literal? ⟨addText u fragments, q'⟩ = some (u ++ t) := by
  match fragments, h with
  | [], h =>
    obtain rfl := Option.some.inj h
    simp [Word.literal?, addText]
  | [.text _], h =>
    obtain rfl := Option.some.inj h
    rfl

/-! ## Spelling a word -/

/-- The characters that a shell does not take as they are. -/
def specials : List Char :=
  [' ', '\t', '\n', '|', '&', ';', '<', '>', '(', ')', '$', '\x60', '\\', '"', '\'']

/-- A character that stands for itself. -/
def IsPlain (c : Char) : Prop :=
  c ∉ specials

instance (c : Char) : Decidable (IsPlain c) :=
  inferInstanceAs (Decidable (_ ∉ _))

/-- What is written for a text. -/
inductive Spells : List Char → List Char → Prop where
  | nil : Spells [] []
  | plain {c : Char} {source text : List Char} (hc : IsPlain c) (h : Spells source text) :
    Spells (c :: source) (c :: text)
  | quoted {inner source text : List Char} (hinner : '\'' ∉ inner) (h : Spells source text) :
    Spells ('\'' :: (inner ++ '\'' :: source)) (inner ++ text)

theorem Spells.plain_append {cs : List Char} (hcs : ∀ c ∈ cs, IsPlain c) (h : Spells source text) :
    Spells (cs ++ source) (cs ++ text) := by
  induction cs with
  | nil => exact h
  | cons c cs ih =>
    obtain ⟨hc, hcs⟩ := List.forall_mem_cons.1 hcs
    exact .plain hc (ih hcs)

theorem spells_self (h : ∀ c ∈ text, IsPlain c) : Spells text text := by
  simpa using Spells.plain_append h .nil

/-! ## Reading a word -/

/-- The end of a line, or a character that ends a word. -/
def Ends (rest : List Char) : Prop :=
  ∀ c ∈ rest.head?, endsWord c = true

theorem endsWord_eq_false (hc : IsPlain c) : endsWord c = false := by
  simp [IsPlain, specials] at hc
  simp [endsWord, hc]

theorem word?_of_ends (h : Ends rest) : word? (fuel + 1) rest = some (⟨[], false⟩, rest) := by
  cases rest with
  | nil => rfl
  | cons c rest =>
    unfold word?
    rw [if_pos (h c rfl)]

theorem word?_plain (hc : IsPlain c) (rest : List Char) :
    word? (fuel + 1) (c :: rest) = (word? fuel rest).map fun (w, rest) =>
      (⟨addText c.toString w.fragments, w.quoted⟩, rest) := by
  have hends := endsWord_eq_false hc
  simp [IsPlain, specials] at hc
  conv => lhs; unfold word?
  simp [hends, hc]

theorem word?_quoted {inner : List Char} (hinner : '\'' ∉ inner) (rest : List Char) :
    word? (fuel + 1) ('\'' :: (inner ++ '\'' :: rest)) = (word? fuel rest).map fun (w, rest) =>
      (⟨addText (String.ofList inner) w.fragments, true⟩, rest) := by
  have hin : ∀ c ∈ inner, (c != '\'') = true := fun c hc => bne_iff_ne.2 fun h => hinner (h ▸ hc)
  have htake : (inner ++ '\'' :: rest).takeWhile (· != '\'') = inner := by
    rw [List.takeWhile_append_of_pos hin]
    simp
  have hdrop : (inner ++ '\'' :: rest).dropWhile (· != '\'') = '\'' :: rest := by
    rw [List.dropWhile_append_of_pos hin]
    simp
  conv => lhs; unfold word?
  simp only [htake, hdrop]
  rfl

/-- A spelled word is read as what it stands for. -/
theorem word?_of_spells (h : Spells source text) (hrest : Ends rest)
    (hfuel : source.length < fuel) :
    ∃ w, word? fuel (source ++ rest) = some (w, rest) ∧
      w.literal? = some (String.ofList text) := by
  induction h generalizing fuel with
  | nil =>
    obtain ⟨fuel, rfl⟩ := Nat.exists_eq_add_of_lt hfuel
    exact ⟨⟨[], false⟩, word?_of_ends hrest, rfl⟩
  | @plain c source text hc h ih =>
    obtain ⟨fuel, rfl⟩ := Nat.exists_eq_add_of_lt hfuel
    have henough : source.length < source.length + 1 + fuel := by omega
    obtain ⟨w, hw, hliteral⟩ := ih henough
    refine ⟨⟨addText c.toString w.fragments, w.quoted⟩, ?_, ?_⟩
    · rw [List.cons_append, word?_plain hc, List.length_cons, hw, Option.map_some]
    · rw [literal?_addText hliteral, String.ofList_cons]
      rfl
  | @quoted inner source text hinner h ih =>
    obtain ⟨fuel, rfl⟩ := Nat.exists_eq_add_of_lt hfuel
    have henough : source.length < ('\'' :: (inner ++ '\'' :: source)).length + fuel := by
      simp only [List.length_cons, List.length_append]
      omega
    obtain ⟨w, hw, hliteral⟩ := ih henough
    refine ⟨⟨addText (String.ofList inner) w.fragments, true⟩, ?_, ?_⟩
    · rw [List.cons_append, List.append_assoc, List.cons_append, word?_quoted hinner, hw,
        Option.map_some]
    · rw [literal?_addText hliteral, String.ofList_append]

/-! ## Reading a line -/

/-- A line is read as words that stand for these texts. -/
def Reads (fuel : Nat) (line : List Char) (texts : List String) : Prop :=
  ∃ ts, tokens? fuel line = some ts ∧ ts.mapM Token.literal? = some texts

/-- A word that begins with a dash and is spelled for a text. -/
structure SpellsOption (word text : String) : Prop where
  head?_eq : word.toList.head? = some '-'
  spells : Spells word.toList text.toList

variable {texts : List String}

theorem Reads.blank (h : Reads fuel rest texts) : Reads (fuel + 1) (' ' :: rest) texts := by
  obtain ⟨ts, hts, hliteral⟩ := h
  refine ⟨ts, ?_, hliteral⟩
  unfold tokens?
  exact hts

theorem tokens?_dash (fuel : Nat) (rest : List Char) :
    tokens? (fuel + 1) ('-' :: rest) =
      (word? (rest.length + 2) ('-' :: rest)).bind fun (w, rest) =>
        (tokens? fuel rest).map (.word w :: ·) := by
  conv => lhs; unfold tokens?
  rfl

theorem SpellsOption.exists_eq {word text : String} (h : SpellsOption word text) :
    ∃ source, word.toList = '-' :: source :=
  List.head?_eq_some_iff.1 h.head?_eq

theorem Reads.word {word text : String} (h : Reads fuel rest texts)
    (hword : SpellsOption word text) (hrest : Ends rest) :
    Reads (fuel + 1) (word.toList ++ rest) (text :: texts) := by
  obtain ⟨ts, hts, hliterals⟩ := h
  obtain ⟨source, hsource⟩ := hword.exists_eq
  have henough : word.toList.length < (source ++ rest).length + 2 := by
    simp only [hsource, List.length_cons, List.length_append]
    omega
  obtain ⟨w, hw, hliteral⟩ := word?_of_spells hword.spells hrest henough
  rw [hsource, List.cons_append] at hw ⊢
  refine ⟨.word w :: ts, ?_, ?_⟩
  · simp only [tokens?_dash, hw, Option.bind_some, hts, Option.map_some]
  · simp [Token.literal?, hliteral, hliterals]

/-- Words with single blanks between them are read one by one. -/
theorem reads_intercalate {words : List String} (h : List.Forall₂ SpellsOption words texts)
    (hfuel : (" ".intercalate words).toList.length < fuel) :
    Reads fuel (" ".intercalate words).toList texts := by
  induction h generalizing fuel with
  | nil =>
    obtain ⟨fuel, rfl⟩ := Nat.exists_eq_add_of_lt hfuel
    exact ⟨[], rfl, rfl⟩
  | @cons word text words texts hword hwords ih =>
    obtain ⟨source, hsource⟩ := hword.exists_eq
    cases hwords with
    | nil =>
      obtain ⟨fuel, rfl⟩ : ∃ n, fuel = n + 2 := Nat.exists_eq_add_of_le' (by
        simp only [String.intercalate_singleton, hsource, List.length_cons] at hfuel
        omega)
      have hend : Ends [] := nofun
      have hnil : Reads (fuel + 1) [] [] := ⟨[], rfl, rfl⟩
      simpa using hnil.word hword hend
    | @cons next _ words _ hnext hwords =>
      have hline : (" ".intercalate (word :: next :: words)).toList =
          word.toList ++ ' ' :: (" ".intercalate (next :: words)).toList := by
        simp [String.intercalate_cons_cons]
      rw [hline] at hfuel ⊢
      obtain ⟨fuel, rfl⟩ : ∃ n, fuel = n + 2 := Nat.exists_eq_add_of_le' (by
        simp only [hsource, List.length_append, List.length_cons] at hfuel
        omega)
      have henough : (" ".intercalate (next :: words)).toList.length < fuel := by
        simp only [hsource, List.length_append, List.length_cons] at hfuel
        omega
      have hend : Ends (' ' :: (" ".intercalate (next :: words)).toList) := by
        simp [Ends, endsWord]
      exact (ih henough).blank.word hword hend

/-- A line of such words is read as what they stand for. -/
theorem words?_intercalate {words : List String} (h : List.Forall₂ SpellsOption words texts) :
    words? (" ".intercalate words) = some texts := by
  obtain ⟨ts, hts, hliterals⟩ := reads_intercalate h (Nat.lt_succ_self _)
  rw [words?, hts, Option.bind_some, hliterals]

end Autotree.Script
