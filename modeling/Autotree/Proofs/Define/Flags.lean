import Autotree.Proofs.Define.Synthesis
import Autotree.Proofs.Process.Words

/-!
# Compiler flags through a shell

The flag of a define is quoted so that the shell which runs the compiler hands over the define as
the user sees it.  This rests on a check made elsewhere: a string literal has no quote character
(`isSafe_of_ofArgument`).  What a single flag keeps, a line of flags keeps, so no value can reach
into the words behind it.
-/

namespace Autotree

open Script

namespace Define

/-! ## Texts that need no quotes -/

/-- An identifier of the C language. -/
def IsIdentifier (name : String) : Prop :=
  name ≠ "" ∧ name.toList.all isNameChar = true ∧ name.toList.head?.any Char.isDigit = false

/-- A word without a character that a shell does not take as it is. -/
def IsBareWord (text : String) : Prop :=
  text ≠ "" ∧ text.toList.all (IsPlain ·) = true

instance (name : String) : Decidable (IsIdentifier name) :=
  inferInstanceAs (Decidable (_ ∧ _))

instance (text : String) : Decidable (IsBareWord text) :=
  inferInstanceAs (Decidable (_ ∧ _))

theorem isPlain_of_isNameChar {c : Char} (h : isNameChar c = true) : IsPlain c := by
  have hspecials : specials.all (!isNameChar ·) = true := by decide
  intro hc
  simpa [h] using List.all_eq_true.1 hspecials c hc

theorem IsBareWord.isPlain {text : String} (h : IsBareWord text) :
    ∀ c ∈ text.toList, IsPlain c := by
  simpa using h.2

theorem IsIdentifier.isPlain {name : String} (h : IsIdentifier name) :
    ∀ c ∈ name.toList, IsPlain c :=
  fun c hc => isPlain_of_isNameChar (List.all_eq_true.1 h.2.1 c hc)

theorem isPlain_of_digit? {c : Char} {n : Nat} (h : Number.digit? 10 c = some n) : IsPlain c := by
  have hspecials : specials.all (Number.digit? 10 · == none) = true := by decide
  intro hc
  simpa [h] using List.all_eq_true.1 hspecials c hc

theorem isPlain_of_natural? {cs : List Char} {n : Nat} (h : Number.natural? 10 cs = some n) :
    ∀ c ∈ cs, IsPlain c := by
  have hfold : ∀ (cs : List Char) (m : Nat), cs.foldlM (fun n c =>
      (Number.digit? 10 c).map (10 * n + ·)) m = some n → ∀ c ∈ cs, IsPlain c := by
    intro cs
    induction cs with
    | nil => exact fun _ _ => nofun
    | cons c cs ih =>
      intro m h
      rw [List.foldlM_cons] at h
      obtain ⟨m', hm', hrest⟩ := Option.bind_eq_some_iff.1 h
      obtain ⟨digit, hdigit, -⟩ := Option.map_eq_some_iff.1 hm'
      exact List.forall_mem_cons.2 ⟨isPlain_of_digit? hdigit, ih m' hrest⟩
  cases cs with
  | nil => nofun
  | cons c cs => exact hfold (c :: cs) 0 h

theorem isPlain_of_decimal? {value : String} {n : Int} (h : Number.decimal? value = some n) :
    ∀ c ∈ value.toList, IsPlain c := by
  obtain ⟨m, hm, -⟩ := Option.bind_eq_some_iff.1 h
  unfold Number.signed? at hm
  split at hm
  all_goals obtain ⟨k, hk, -⟩ := Option.map_eq_some_iff.1 hm
  · next heq => exact heq ▸ List.forall_mem_cons.2 ⟨by decide, isPlain_of_natural? hk⟩
  · next heq => exact heq ▸ List.forall_mem_cons.2 ⟨by decide, isPlain_of_natural? hk⟩
  · exact isPlain_of_natural? hk

/-! ## Flags -/

/-- What stands in a flag outside of quotes is plain, and what stands inside has no quote. -/
def IsSafe : Define → Prop
  | symbol name => ∀ c ∈ name.toList, IsPlain c
  | value name v => (∀ c ∈ name.toList, IsPlain c) ∧ ∀ c ∈ v.toList, IsPlain c
  | str name v => (∀ c ∈ name.toList, IsPlain c) ∧ '\'' ∉ v.toList
  | literal text => ∀ c ∈ text.toList, IsPlain c

variable {d : Define}

theorem spellsOption_self {text : String} (h : ∀ c ∈ text.toList, IsPlain c) :
    SpellsOption ("-D" ++ text) ("-D" ++ text) := by
  refine ⟨by simp, spells_self ?_⟩
  simpa using ⟨by decide, by decide, h⟩

theorem spellsOption_flag (h : d.IsSafe) : SpellsOption d.flag ("-D" ++ d.token) := by
  cases d with
  | symbol name => exact spellsOption_self h
  | literal text => exact spellsOption_self h
  | value name v =>
    refine spellsOption_self fun c hc => ?_
    simp only [token, String.toList_append, List.mem_append] at hc
    rcases hc with (hc | hc) | hc
    · exact h.1 c hc
    · obtain rfl : c = '=' := by simpa using hc
      decide
    · exact h.2 c hc
  | str name v =>
    have hfront : ∀ c ∈ '-' :: 'D' :: (name.toList ++ ['=']), IsPlain c := by
      simpa [or_imp, forall_and] using ⟨by decide, by decide, h.1, by decide⟩
    have hinner : '\'' ∉ '"' :: (v.toList ++ ['"']) := by simpa using h.2
    refine ⟨by simp [flag], ?_⟩
    have hspells := (Spells.quoted hinner .nil).plain_append hfront
    simpa [flag, token] using hspells

/-! ## The defines of a configuration -/

theorem isSafe_of_ofArgument {arg : Argument} (hname : IsIdentifier arg.name)
    (hmap : ∀ map, arg.kind = .integer (some map) → ∀ pair ∈ map, IsBareWord pair.2)
    (h : ofArgument arg = .ok (some d)) : d.IsSafe := by
  have hplain := hname.isPlain
  unfold ofArgument at h
  split at h
  · split at h
    · next set _ => cases set <;> cases h; exact hplain
    · cases h
  · split at h
    · cases h
    · next hquote =>
      obtain rfl := Option.some.inj (Except.ok.inj h)
      refine ⟨hplain, fun hmem => hquote ?_⟩
      exact List.any_eq_true.2 ⟨_, hmem, rfl⟩
  · next map hkind =>
    split at h
    · next text hlookup =>
      obtain rfl := Option.some.inj (Except.ok.inj h)
      obtain ⟨before, after, hpair, -⟩ := List.lookup_eq_some_iff.1 hlookup
      exact (hmap map hkind (arg.value, text) (by simp [hpair])).isPlain
    · cases h
  · split at h
    · next hdecimal =>
      obtain ⟨n, hn⟩ := Option.isSome_iff_exists.1 hdecimal
      obtain rfl := Option.some.inj (Except.ok.inj h)
      exact ⟨hplain, isPlain_of_decimal? hn⟩
    · cases h

/-- What holds of the initial symbols and of the define of every argument holds of all defines. -/
theorem forall_mem_synthesize {P : Define → Prop} {initial : List String} {resolved : Resolved}
    {defines : List Define} (hinitial : ∀ name ∈ initial, P (.symbol name))
    (hargs : ∀ arg ∈ resolved.arguments, ∀ d, ofArgument arg = .ok (some d) → P d)
    (h : synthesize initial resolved = .ok defines) : ∀ d ∈ defines, P d := by
  intro d hd
  rcases exists_of_mem_synthesize h hd with ⟨name, hname, rfl⟩ | ⟨arg, harg, hdefine⟩
  · exact hinitial name hname
  · exact hargs arg harg d hdefine

/-- A shell that reads the flags of a configuration reads each define as the user sees it, whatever
the values of its strings are. -/
theorem words_of_flags {schema : Schema} {entries : List Entry} {resolved : Resolved}
    {initial : List String} {defines : List Define}
    (hnames : ∀ option ∈ schema.options, IsIdentifier option.name)
    (hliterals : ∀ option ∈ schema.options, ∀ map, option.kind = .integer (some map) →
      ∀ pair ∈ map, IsBareWord pair.2)
    (hinitial : ∀ name ∈ initial, IsBareWord name)
    (hresolved : schema.resolve entries = .ok resolved)
    (hdefines : synthesize initial resolved = .ok defines) :
    words? (" ".intercalate (defines.map flag)) = some (defines.map ("-D" ++ ·.token)) := by
  have hsafe : ∀ d ∈ defines, d.IsSafe := by
    refine forall_mem_synthesize (fun name hname => (hinitial name hname).isPlain) ?_ hdefines
    intro arg harg d hd
    obtain ⟨option, hoption, hname, hkind⟩ := Schema.option_of_argument hresolved harg
    exact isSafe_of_ofArgument (hname ▸ hnames option hoption)
      (hkind ▸ hliterals option hoption) hd
  refine words?_intercalate (List.forall₂_map_left_iff.2 (List.forall₂_map_right_iff.2 ?_))
  exact List.forall₂_same.2 fun d hd => spellsOption_flag (hsafe d hd)

/-- Options whose strings a shell would take apart outside of quotes. -/
def quotedSchema : Schema where
  options := [
    ⟨"GREETING", .text, none⟩,
    ⟨"EMPTY", .text, some ""⟩,
    ⟨"LEVEL", .integer (some [("low", "LEVEL=1"), ("high", "LEVEL=2")]), none⟩,
    ⟨"OFFSET", .integer none, some "-12"⟩,
    ⟨"DEBUG", .flag, some "true"⟩]

def quotedEntries : List Entry :=
  [⟨3, "LEVEL", "high"⟩, ⟨4, "GREETING", "a  $HOME\\; # b"⟩]

theorem words_of_quotedSchema : ∃ resolved defines,
    quotedSchema.resolve quotedEntries = .ok resolved ∧
    synthesize ["GNU_SOURCE"] resolved = .ok defines ∧
    words? (" ".intercalate (defines.map flag)) = some ["-DGNU_SOURCE",
      "-DGREETING=\"a  $HOME\\; # b\"", "-DEMPTY=\"\"", "-DLEVEL=2", "-DOFFSET=-12",
      "-DDEBUG"] := by
  have hliterals : ∀ option ∈ quotedSchema.options, ∀ map, option.kind = .integer (some map) →
      ∀ pair ∈ map, IsBareWord pair.2 := by
    simp only [quotedSchema, List.forall_mem_cons]
    refine ⟨nofun, nofun, ?_, nofun, nofun, nofun⟩
    rintro map ⟨⟩
    decide
  have hinitial : ∀ name ∈ ["GNU_SOURCE"], IsBareWord name := by decide
  have hnames : ∀ option ∈ quotedSchema.options, IsIdentifier option.name := by decide
  have hresolved := Eq.refl (quotedSchema.resolve quotedEntries)
  exact ⟨_, _, rfl, rfl, words_of_flags hnames hliterals hinitial hresolved rfl⟩

end Define

end Autotree
