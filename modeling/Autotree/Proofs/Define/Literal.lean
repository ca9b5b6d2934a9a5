import Autotree.Proofs.Define.Flags

/-!
# String defines as literals of the C language

The token of a string define puts a value between double quotes, and values with quote characters
are refused.  That makes the token a string literal of the C language, but not for every value: a
backslash takes the character behind it away, the closing quote perhaps, and a literal ends on the
line on which it began.  `close?_eq_none_iff` says for which values the literal is left open, and
`close?_eq_self_iff` which values it denotes.
-/

namespace Autotree

/-- A string literal within a text. -/
structure CString where
  /-- What stands in front of the opening quote. -/
  before : String
  /-- The characters that the literal denotes. -/
  contents : String
  /-- What stands behind the closing quote. -/
  after : String
deriving DecidableEq, Repr

namespace CString

/-- What was read, with a character in front of it. -/
def prepend (c : Char) : List Char × List Char → List Char × List Char
  | (contents, after) => (c :: contents, after)

/-- Reads a string literal from behind its opening quote on: the characters that it denotes, and
what stands behind its closing quote.  A backslash escapes the next character, and no line ends
inside of a literal. -/
def close? (escape : Char → Char) : List Char → Option (List Char × List Char)
  | [] => none
  | c :: rest =>
    if c = '"' then some ([], rest)
    else if c = '\n' then none
    else if c = '\\' then
      match rest with
      | [] => none
      | e :: rest => if e = '\n' then none else (close? escape rest).map (prepend (escape e))
    else (close? escape rest).map (prepend c)

/-- The first string literal in a text, if it has one and that is closed. -/
def first? (escape : Char → Char) (text : String) : Option CString :=
  let front := text.toList.takeWhile (· != '"')
  (close? escape (text.toList.drop (front.length + 1))).map fun (contents, after) =>
    ⟨String.ofList front, String.ofList contents, String.ofList after⟩

/-- The number of backslashes at the end of a text. -/
def trailing (cs : List Char) : Nat :=
  (cs.reverse.takeWhile (· == '\\')).length

variable {escape : Char → Char} {c : Char} {cs contents after : List Char}

/-! ## Reading up to the closing quote -/

theorem close?_quote (rest : List Char) : close? escape ('"' :: rest) = some ([], rest) := by
  rw [close?.eq_def]
  rfl

theorem close?_break (rest : List Char) : close? escape ('\n' :: rest) = none := by
  rw [close?.eq_def]
  rfl

theorem close?_backslash (rest : List Char) :
    close? escape ('\\' :: c :: rest) =
      if c = '\n' then none else (close? escape rest).map (prepend (escape c)) := by
  rw [close?.eq_def]
  rfl

theorem close?_plain (hquote : c ≠ '"') (hbreak : c ≠ '\n') (hslash : c ≠ '\\') (rest : List Char) :
    close? escape (c :: rest) = (close? escape rest).map (prepend c) := by
  rw [close?.eq_def]
  simp [hquote, hbreak, hslash]

/-- What a literal denotes has at most as many characters as its text, and fewer where the text has
a backslash. -/
theorem length_of_close? (h : close? escape cs = some (contents, after)) :
    contents.length + 1 + after.length ≤ cs.length ∧
      (contents.length + 1 + after.length = cs.length → '\\' ∉ contents ∧ '\n' ∉ contents) := by
  fun_induction close? escape cs generalizing contents with
  | case1 => cases h
  | case2 rest =>
    cases h
    simp
    omega
  | case3 => cases h
  | case4 => cases h
  | case5 => cases h
  | case6 e rest _ _ _ ih =>
    obtain ⟨⟨inner, _⟩, hinner, heq⟩ := Option.map_eq_some_iff.1 h
    cases heq
    have hle := (ih hinner).1
    simp only [List.length_cons]
    omega
  | case7 c rest _ hbreak hslash ih =>
    obtain ⟨⟨inner, _⟩, hinner, heq⟩ := Option.map_eq_some_iff.1 h
    cases heq
    obtain ⟨hle, hplain⟩ := ih hinner
    simp only [List.length_cons, List.mem_cons, not_or]
    refine ⟨by omega, fun hlength => ?_⟩
    obtain ⟨hslashes, hbreaks⟩ := hplain (by omega)
    exact ⟨⟨Ne.symm hslash, hslashes⟩, ⟨Ne.symm hbreak, hbreaks⟩⟩

theorem close?_append_quote (hquote : '"' ∉ cs) (hslash : '\\' ∉ cs) (hbreak : '\n' ∉ cs) :
    close? escape (cs ++ ['"']) = some (cs, []) := by
  induction cs with
  | nil => exact close?_quote []
  | cons c cs ih =>
    simp only [List.mem_cons, not_or] at hquote hslash hbreak
    rw [List.cons_append, close?_plain (Ne.symm hquote.1) (Ne.symm hbreak.1) (Ne.symm hslash.1),
      ih hquote.2 hslash.2 hbreak.2]
    rfl

/-- A text between quotes denotes itself exactly if it has neither a backslash nor a line break. -/
theorem close?_eq_self_iff (hquote : '"' ∉ cs) :
    close? escape (cs ++ ['"']) = some (cs, []) ↔ '\\' ∉ cs ∧ '\n' ∉ cs := by
  constructor
  · intro h
    exact (length_of_close? h).2 (by simp)
  · rintro ⟨hslash, hbreak⟩
    exact close?_append_quote hquote hslash hbreak

/-! ## Where a literal is closed -/

theorem trailing_append (ds cs : List Char) :
    trailing (ds ++ cs) = trailing cs + if trailing cs = cs.length then trailing ds else 0 := by
  have hlength : (cs.reverse.takeWhile (· == '\\')).length = cs.reverse.length ↔
      trailing cs = cs.length := by
    rw [List.length_reverse, trailing]
  rw [trailing, List.reverse_append, List.takeWhile_append]
  by_cases hall : trailing cs = cs.length
  · rw [if_pos hall, if_pos (hlength.2 hall), List.length_append, List.length_reverse, hall,
      trailing]
  · rw [if_neg hall, if_neg (hlength.not.2 hall)]
    rfl

theorem trailing_cons (hc : c ≠ '\\') (cs : List Char) : trailing (c :: cs) = trailing cs := by
  have hnone : trailing [c] = 0 := by simpa [trailing] using hc
  rw [← List.singleton_append, trailing_append, hnone, ite_self, Nat.add_zero]

theorem trailing_backslash (c : Char) (cs : List Char) :
    trailing ('\\' :: c :: cs) % 2 = trailing cs % 2 := by
  have heven : trailing ['\\', c] % 2 = 0 := by
    by_cases hc : c = '\\' <;> simp [trailing, hc]
  change trailing (['\\', c] ++ cs) % 2 = _
  rw [trailing_append]
  split <;> omega

/-- A literal with these characters is left open exactly if it has a line break, or an odd number of
backslashes at its end. -/
theorem close?_eq_none_iff (hquote : '"' ∉ cs) :
    close? escape (cs ++ ['"']) = none ↔ '\n' ∈ cs ∨ trailing cs % 2 = 1 := by
  fun_induction close? escape cs with
  | case1 => simp [close?_quote, trailing]
  | case2 => simp at hquote
  | case3 => simp [close?_break]
  | case4 => simp [close?_backslash, close?, trailing]
  | case5 => simp [close?_backslash]
  | case6 e rest hbreak _ _ ih =>
    simp only [List.mem_cons, not_or] at hquote
    rw [List.cons_append, List.cons_append, close?_backslash, if_neg hbreak,
      Option.map_eq_none_iff, trailing_backslash]
    simpa [Ne.symm hbreak] using ih hquote.2.2
  | case7 c rest hc hbreak hslash ih =>
    simp only [List.mem_cons, not_or] at hquote
    rw [List.cons_append, close?_plain hc hbreak hslash, Option.map_eq_none_iff,
      trailing_cons hslash]
    simpa [Ne.symm hbreak] using ih hquote.2

/-- What stands behind a literal stands behind a quote. -/
theorem exists_quote_of_close? (h : close? escape cs = some (contents, after)) :
    ∃ front, cs = front ++ '"' :: after := by
  fun_induction close? escape cs generalizing contents with
  | case1 => cases h
  | case2 rest =>
    cases h
    exact ⟨[], rfl⟩
  | case3 => cases h
  | case4 => cases h
  | case5 => cases h
  | case6 e rest _ _ _ ih =>
    obtain ⟨⟨inner, _⟩, hinner, heq⟩ := Option.map_eq_some_iff.1 h
    cases heq
    obtain ⟨front, rfl⟩ := ih hinner
    exact ⟨'\\' :: e :: front, rfl⟩
  | case7 c rest _ _ _ ih =>
    obtain ⟨⟨inner, _⟩, hinner, heq⟩ := Option.map_eq_some_iff.1 h
    cases heq
    obtain ⟨front, rfl⟩ := ih hinner
    exact ⟨c :: front, rfl⟩

theorem after_eq_nil (hquote : '"' ∉ cs)
    (h : close? escape (cs ++ ['"']) = some (contents, after)) : after = [] := by
  obtain ⟨front, hfront⟩ := exists_quote_of_close? h
  rcases List.eq_nil_or_concat after with rfl | ⟨init, last, rfl⟩
  · rfl
  · rw [List.concat_eq_append, ← List.cons_append, ← List.append_assoc] at hfront
    have hcs : cs = front ++ '"' :: init := (List.append_inj' hfront rfl).1
    exact absurd (hcs ▸ List.mem_append_right _ List.mem_cons_self) hquote

/-! ## Literals in a text -/

theorem first?_append {before : String} (hbefore : '"' ∉ before.toList) (body : List Char) :
    first? escape (before ++ "\"" ++ String.ofList body) =
      (close? escape body).map fun read =>
        ⟨before, String.ofList read.1, String.ofList read.2⟩ := by
  have hlist : (before ++ "\"" ++ String.ofList body).toList = before.toList ++ '"' :: body := by
    simp
  have hfront : (before.toList ++ '"' :: body).takeWhile (· != '"') = before.toList := by
    have hall : ∀ c ∈ before.toList, (c != '"') = true := by
      intro c hc
      exact bne_iff_ne.2 (ne_of_mem_of_not_mem hc hbefore)
    rw [List.takeWhile_append_of_pos hall]
    simp
  have hbody : (before.toList ++ '"' :: body).drop (before.toList.length + 1) = body := by
    rw [List.append_cons]
    simp
  simp only [first?, hlist, hfront, hbody, String.ofList_toList]

end CString

namespace Define

open CString

theorem first?_str (escape : Char → Char) {name : String} (hname : IsIdentifier name)
    (value : String) :
    first? escape (str name value).token = (close? escape (value.toList ++ ['"'])).map fun read =>
      ⟨name ++ "=", String.ofList read.1, String.ofList read.2⟩ := by
  have hbefore : '"' ∉ (name ++ "=").toList := by
    have hquote : '"' ∉ name.toList := fun hmem => absurd (hname.isPlain _ hmem) (by decide)
    simpa using hquote
  have htoken : (str name value).token =
      name ++ "=" ++ "\"" ++ String.ofList (value.toList ++ ['"']) := by
    rw [← String.toList_inj]
    simp [token]
  rw [htoken, first?_append hbefore]

/-- The literal in the token of a string define stands behind the name and an `=`.  It is left open
exactly if the value has a line break, or an odd number of backslashes at its end; otherwise the
last character of the token closes it.  It denotes the value exactly if this has neither a line
break nor a backslash. -/
theorem literal_of_token {arg : Argument} {d : Define} (hname : IsIdentifier arg.name)
    (hkind : arg.kind = .text) (h : ofArgument arg = .ok (some d)) (escape : Char → Char) :
    (first? escape d.token = none ↔
      '\n' ∈ arg.value.toList ∨ trailing arg.value.toList % 2 = 1) ∧
    (∀ literal, first? escape d.token = some literal →
      literal.before = arg.name ++ "=" ∧ literal.after = "") ∧
    (first? escape d.token = some ⟨arg.name ++ "=", arg.value, ""⟩ ↔
      '\\' ∉ arg.value.toList ∧ '\n' ∉ arg.value.toList) := by
  obtain ⟨name, kind, value⟩ := arg
  obtain rfl : kind = .text := hkind
  have hverdict := verdict ⟨name, .text, value⟩
  rw [h] at hverdict
  obtain ⟨hquote, rfl⟩ : '"' ∉ value.toList ∧ d = .str name value := by
    cases hverdict with
    | define hyields =>
      cases hyields with
      | text hquotes => exact ⟨hquotes.1, rfl⟩
    | set hset => cases hset.1
  rw [first?_str escape hname]
  refine ⟨?_, ?_, ?_⟩
  · rw [Option.map_eq_none_iff, close?_eq_none_iff hquote]
  · intro literal hliteral
    obtain ⟨⟨contents, after⟩, hread, rfl⟩ := Option.map_eq_some_iff.1 hliteral
    obtain rfl := after_eq_nil hquote hread
    exact ⟨rfl, rfl⟩
  · have hself : close? escape (value.toList ++ ['"']) = some (value.toList, []) ↔
        '\\' ∉ value.toList ∧ '\n' ∉ value.toList := close?_eq_self_iff hquote
    rw [← hself, Option.map_eq_some_iff]
    constructor
    · rintro ⟨⟨contents, after⟩, hread, heq⟩
      obtain rfl := after_eq_nil hquote hread
      have hcontents : String.ofList contents = value := congrArg CString.contents heq
      rw [hread, ← hcontents, String.toList_ofList]
    · intro hread
      exact ⟨_, hread, by simp⟩

theorem greeting_denoted :
    ofArgument ⟨"GREETING", .text, "a  $HOME; # b"⟩ = .ok (some (.str "GREETING" "a  $HOME; # b")) ∧
      ∀ escape, first? escape (str "GREETING" "a  $HOME; # b").token =
        some ⟨"GREETING" ++ "=", "a  $HOME; # b", ""⟩ := by
  have hdefine : ofArgument ⟨"GREETING", .text, "a  $HOME; # b"⟩ =
      .ok (some (.str "GREETING" "a  $HOME; # b")) := by decide +kernel
  have hname : IsIdentifier "GREETING" := by decide
  refine ⟨hdefine, fun escape => ?_⟩
  obtain ⟨-, -, hdenotes⟩ := literal_of_token hname rfl hdefine escape
  exact hdenotes.2 ⟨by decide, by decide⟩

/-- A value that ends in a backslash is accepted, and escapes the closing quote of its literal. -/
theorem backslash_leaves_literal_open :
    Config.outcome ⟨[⟨"NAME", .text, none⟩], by decide⟩ "NAME=C:\\" >>= synthesize [] =
        .ok [.str "NAME" "C:\\"] ∧
      IsIdentifier "NAME" ∧ ∀ escape, first? escape (str "NAME" "C:\\").token = none := by
  have hname : IsIdentifier "NAME" := by decide
  refine ⟨by decide +kernel, hname, fun escape => ?_⟩
  rw [first?_str escape hname, Option.map_eq_none_iff, close?_eq_none_iff (by decide)]
  decide

end Define

end Autotree
