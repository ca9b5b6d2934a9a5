import Autotree.Proofs.Config.Fallback

/-!
# The normal form of a configuration file

A text that can be read has a normal form: one line for each of its entries, without comments and
blanks, in file order.  Reading gives the same keys and values again, because the entries of a text
are such that their own lines carry them (`IsNormal`): trimming, cutting off comments and putting
letters in uppercase leave nothing that reading a line would change or take for something else.
-/

namespace Autotree

open Text

namespace Entry

variable {entry : Entry} {entries : List Entry} {text : String}

/-- The line that assigns the value of an entry to its key. -/
def line (entry : Entry) : String :=
  entry.key ++ "=" ++ entry.value

/-- A text with one line for each entry. -/
def write (entries : List Entry) : String :=
  String.join ((entries.map line).map (· ++ "\n"))

/-- The normal form of a text. -/
def normalForm (text : String) : Except ConfigError String :=
  (parse text).map write

/-- An entry that its own line carries. -/
structure IsNormal (entry : Entry) : Prop where
  key : LineName entry.key
  canonical : OptionSpec.canonicalName entry.key = entry.key
  value : Writable entry.value

/-! ## What a text assigns -/

/-- The characters that give a line its shape are in no key that is not already in the line. -/
theorem lineName_keyOf {front : List Char} (hequals : '=' ∉ front) (hbreak : '\n' ∉ front)
    (hcomment : (trimChars front).head? ≠ some '#') : LineName (keyOf front) := by
  have hmem {c : Char} (hc : c.toNat < 65) (h : c ∈ (keyOf front).toList) : c ∈ front := by
    have htrim := mem_of_mem_upper h hc
    rw [toList_trim, String.toList_ofList] at htrim
    exact mem_of_mem_trimChars htrim
  constructor
  · intro h
    have hhead := head?_of_head?_upper h (by decide)
    rw [toList_trim, String.toList_ofList] at hhead
    exact hcomment hhead
  · exact fun h => hequals (hmem (by decide) h)
  · exact fun h => hbreak (hmem (by decide) h)

theorem isNormal_of_readLine {line : List Char} {key value : String} (hbreak : '\n' ∉ line)
    (h : readLine line = .assignment key value) (n : Nat) : IsNormal ⟨n, key, value⟩ := by
  have hvalue := writable_of_readLine hbreak h
  rcases readLine_cases line with ⟨-, hread⟩ | ⟨front, back, rfl, hfront, -, hidle, hread⟩ |
    ⟨-, -, hread⟩
  · cases hread.symm.trans h
  · obtain ⟨rfl, -⟩ := Line.assignment.inj (hread.symm.trans h)
    rw [idle_append_cons (by decide) (by decide)] at hidle
    have hbreak : '\n' ∉ front := fun hmem => hbreak (List.mem_append_left _ hmem)
    exact ⟨lineName_keyOf hfront hbreak hidle, OptionSpec.canonicalName_canonicalName _, hvalue⟩
  · cases hread.symm.trans h

/-- Every entry of a text is one that its own line carries. -/
theorem isNormal_of_parse (h : parse text = .ok entries) : ∀ entry ∈ entries, IsNormal entry := by
  rw [parse_eq] at h
  intro entry hentry
  have hmem : entry.binding ∈ (pieces text).filterMap assignment? :=
    (parseLines_eq_ok h).2 ▸ List.mem_map_of_mem hentry
  obtain ⟨line, hline, hassign⟩ := List.mem_filterMap.1 hmem
  exact isNormal_of_readLine (not_mem_of_mem_splitOn hline) (readLine_of_assignment? hassign) _

/-! ## Reading it again -/

theorem toList_line (entry : Entry) :
    entry.line.toList = entry.key.toList ++ '=' :: entry.value.toList := by
  simp [line]

theorem IsNormal.readLine_line (h : IsNormal entry) :
    readLine entry.line.toList = .assignment entry.key entry.value := by
  rw [toList_line, readLine_name h.key h.canonical h.value.noEquals, valueOf_of_writable h.value]

/-- The line of an entry ends in its value, or in the `=` where the value is empty. -/
theorem IsNormal.whole_line (h : IsNormal entry) : Whole entry.line := by
  rw [Whole, toList_line]
  constructor
  · simp [h.key.noBreak, h.value.noBreak]
  · intro hreturn
    cases hlast : entry.value.toList.getLast? with
    | none =>
      rw [List.getLast?_eq_none_iff] at hlast
      simp [hlast] at hreturn
    | some c =>
      have hblank := h.value.trimmed.last c hlast
      rw [List.getLast?_append, List.getLast?_cons, hlast] at hreturn
      obtain rfl : c = '\r' := by simpa using hreturn
      exact absurd hblank (by decide)

/-- The lines of entries are read as the same keys and values, under the numbers of the lines. -/
theorem parseLines_lines (n : Nat) (h : ∀ entry ∈ entries, IsNormal entry) :
    ∃ entries', parseLines n ((entries.map line).map String.toList) = .ok entries' ∧
      entries'.map binding = entries.map binding ∧
      entries'.map (·.lineNo) = List.range' n entries.length := by
  induction entries generalizing n with
  | nil => exact ⟨[], rfl, rfl, rfl⟩
  | cons entry entries ih =>
    obtain ⟨hentry, hentries⟩ := List.forall_mem_cons.1 h
    obtain ⟨entries', hparse, hbindings, hnumbers⟩ := ih (n + 1) hentries
    refine ⟨⟨n, entry.key, entry.value⟩ :: entries', ?_, ?_, ?_⟩
    · rw [List.map_cons, List.map_cons, parseLines, hentry.readLine_line]
      simp only [hparse]
      rfl
    · rw [List.map_cons, List.map_cons, hbindings]
      rfl
    · rw [List.map_cons, hnumbers, List.length_cons, List.range'_succ]

/-- What is written depends on the keys and values alone. -/
theorem write_congr {entries' : List Entry} (h : entries'.map binding = entries.map binding) :
    write entries' = write entries := by
  have hline : line = (fun b => b.1 ++ "=" ++ b.2) ∘ binding := rfl
  have hlines : entries'.map line = entries.map line := by
    rw [hline, ← List.map_map, h, List.map_map]
  rw [write, hlines, write]

/-- A text that can be read has a normal form, of one line for each entry, which is its own normal
form.  A text of these lines, whether the last one ends in a line feed or not, is read as the same
keys and values in the same order, numbered from one, and gives the same configuration under every
schema. -/
theorem normalForm_of_parse (h : parse text = .ok entries) :
    (∃ written, normalForm text = .ok written ∧ lines written = entries.map line ∧
        normalForm written = .ok written) ∧
      ∀ written, lines written = entries.map line →
        (∃ entries', parse written = .ok entries' ∧
            entries'.map binding = entries.map binding ∧
            entries'.map (·.lineNo) = List.range' 1 entries.length) ∧
          ∀ schema, Config.outcome schema written = Config.outcome schema text := by
  have hnormal := isNormal_of_parse h
  have hread : ∀ written, lines written = entries.map line → ∃ entries',
      parse written = .ok entries' ∧ entries'.map binding = entries.map binding ∧
        entries'.map (·.lineNo) = List.range' 1 entries.length := by
    intro written hlines
    rw [parse, charLines_eq, hlines]
    exact parseLines_lines 1 hnormal
  constructor
  · have hlines : lines (write entries) = entries.map line :=
      lines_join (List.forall_mem_map.2 fun entry hentry => (hnormal entry hentry).whole_line)
    obtain ⟨entries', hparse, hbindings, -⟩ := hread _ hlines
    refine ⟨write entries, by rw [normalForm, h]; rfl, hlines, ?_⟩
    rw [normalForm, hparse, ← write_congr hbindings]
    rfl
  · intro written hlines
    obtain ⟨entries', hparse, hbindings, hnumbers⟩ := hread written hlines
    refine ⟨⟨entries', hparse, hbindings, hnumbers⟩, fun schema => ?_⟩
    rw [Config.outcome, Config.outcome, hparse, h]
    exact schema.resolve_congr hbindings

/-- Comments, a `#` inside a key, an empty key with an empty value, a carriage return inside a
value, and a letter that becomes two in uppercase. -/
def roughText : String :=
  "# flags\r\n\n  a #b = x # note\r\n\t=\n straße=u\rv\r"

theorem normalForm_roughText :
    parse roughText = .ok [⟨3, "A #B", "x"⟩, ⟨4, "", ""⟩, ⟨5, "STRASSE", "u\rv"⟩] ∧
      normalForm roughText = .ok "A #B=x\n=\nSTRASSE=u\rv\n" ∧
      normalForm "A #B=x\n=\nSTRASSE=u\rv\n" = .ok "A #B=x\n=\nSTRASSE=u\rv\n" ∧
      ∀ schema, Config.outcome schema "A #B=x\r\n=\nSTRASSE=u\rv" =
        Config.outcome schema roughText := by
  have hparse : parse roughText =
      .ok [⟨3, "A #B", "x"⟩, ⟨4, "", ""⟩, ⟨5, "STRASSE", "u\rv"⟩] := by decide +kernel
  have hlines : lines "A #B=x\r\n=\nSTRASSE=u\rv" = ["A #B=x", "=", "STRASSE=u\rv"] := by
    decide +kernel
  obtain ⟨⟨written, hwritten, -, hself⟩, hsame⟩ := normalForm_of_parse hparse
  have hform : normalForm roughText = .ok "A #B=x\n=\nSTRASSE=u\rv\n" := by
    rw [normalForm, hparse]
    decide +kernel
  obtain rfl := Except.ok.inj (hwritten.symm.trans hform)
  exact ⟨hparse, hform, hself, (hsame _ hlines).2⟩

end Entry

end Autotree
