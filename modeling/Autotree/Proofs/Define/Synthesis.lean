import Autotree.Define
import Autotree.Proofs.Config.Resolution

/-!
# The defines of a configuration

Synthesis asks every argument for its define and then adds the defines to the initial symbols, one
after the other (`synthesize_eq`).  So it fails as the first argument does whose value is refused,
whatever the initial symbols are, and these decide only which symbols of flags are added: a flag
that is set adds its name unless that is the token of something before it (`Adds`).
-/

namespace Autotree

/-! ## Integers and letter case -/

namespace Number

theorem toLower_of_not_ascii {c : Char} (h : ¬c.toNat < 128) : c.toLower = c := by
  have hnot : ¬(c.val ≥ 'A'.val ∧ c.val ≤ 'Z'.val) := by
    rintro ⟨-, hle⟩
    have : c.toNat ≤ 90 := hle
    omega
  exact dif_neg hnot

theorem toLower_ascii :
    ∀ n < 128, let c := Char.ofNat n
      digit? 10 c.toLower = digit? 10 c ∧ (c.toLower = '-' ↔ c = '-') ∧
        (c.toLower = '+' ↔ c = '+') := by
  decide +kernel

/-- The case of a letter matters to no digit and to no sign. -/
theorem toLower_indifferent (c : Char) :
    digit? 10 c.toLower = digit? 10 c ∧ (c.toLower = '-' ↔ c = '-') ∧
      (c.toLower = '+' ↔ c = '+') := by
  by_cases hascii : c.toNat < 128
  · have h := toLower_ascii c.toNat hascii
    rwa [Char.ofNat_toNat] at h
  · rw [toLower_of_not_ascii hascii]
    exact ⟨rfl, Iff.rfl, Iff.rfl⟩

theorem natural?_map_toLower (cs : List Char) :
    natural? 10 (cs.map Char.toLower) = natural? 10 cs := by
  cases cs with
  | nil => rfl
  | cons c cs =>
    change ((c :: cs).map Char.toLower).foldlM (fun n c => (digit? 10 c).map (10 * n + ·)) 0 = _
    simp only [List.foldlM_map, toLower_indifferent]
    rfl

theorem signed?_of_unsigned {c : Char} {cs : List Char} (hminus : c ≠ '-') (hplus : c ≠ '+') :
    signed? (c :: cs) = (natural? 10 (c :: cs)).map Int.ofNat := by
  unfold signed?
  split
  · next heq => exact absurd (List.cons.inj heq).1 hminus
  · next heq => exact absurd (List.cons.inj heq).1 hplus
  · rfl

theorem signed?_map_toLower (cs : List Char) : signed? (cs.map Char.toLower) = signed? cs := by
  cases cs with
  | nil => rfl
  | cons c cs =>
    obtain ⟨-, hminus, hplus⟩ := toLower_indifferent c
    by_cases hc : c = '-'
    · rw [hc, List.map_cons, show '-'.toLower = '-' from rfl, signed?, signed?,
        natural?_map_toLower]
    · by_cases hc' : c = '+'
      · rw [hc', List.map_cons, show '+'.toLower = '+' from rfl, signed?, signed?,
          natural?_map_toLower]
      · rw [List.map_cons, signed?_of_unsigned (hminus.not.2 hc) (hplus.not.2 hc'), ← List.map_cons,
          natural?_map_toLower, signed?_of_unsigned hc hc']

/-- A text denotes the same integer in lowercase. -/
theorem decimal?_lowerAscii (text : String) : decimal? (Text.lowerAscii text) = decimal? text := by
  rw [decimal?, Text.lowerAscii, String.toList_ofList, signed?_map_toLower, decimal?]

end Number

namespace Define

open Number

/-! ## The value of a flag -/

/-- A value that sets a flag. -/
def Sets (value : String) : Prop :=
  Text.lowerAscii value = "true" ∨ ∃ n, decimal? value = some n ∧ n ≠ 0

/-- A value that leaves a flag unset. -/
def Unsets (value : String) : Prop :=
  Text.lowerAscii value = "false" ∨ decimal? value = some 0

theorem decimal?_eq_none_of_word {value word : String} (h : Text.lowerAscii value = word)
    (hword : decimal? word = none) : decimal? value = none := by
  rw [← decimal?_lowerAscii, h, hword]

theorem sets_iff {value : String} : Sets value ↔ flagValue? value = some true := by
  simp only [Sets, flagValue?]
  split
  · next htrue => simp [htrue]
  · next htrue =>
    split
    · next hfalse => simp [hfalse, decimal?_eq_none_of_word hfalse (by decide)]
    · simp [htrue, decimal?_lowerAscii]

theorem unsets_iff {value : String} : Unsets value ↔ flagValue? value = some false := by
  simp only [Unsets, flagValue?]
  split
  · next htrue => simp [htrue, decimal?_eq_none_of_word htrue (by decide)]
  · split
    · next hfalse => simp [hfalse]
    · next hfalse => simp [hfalse, decimal?_lowerAscii]

/-! ## One argument -/

/-- A flag that is set. -/
def IsSet (arg : Argument) : Prop :=
  arg.kind = .flag ∧ Sets arg.value

/-- A flag that is not set. -/
def IsUnset (arg : Argument) : Prop :=
  arg.kind = .flag ∧ Unsets arg.value

/-- The define of an argument that is no flag. -/
inductive Yields : Argument → Define → Prop where
  | text {name value : String} (h : '"' ∉ value.toList ∧ '\'' ∉ value.toList) :
    Yields ⟨name, .text, value⟩ (.str name value)
  | mapped {name value literal : String} {map : List (String × String)}
    (h : map.lookup value = some literal) :
    Yields ⟨name, .integer (some map), value⟩ (.literal literal)
  | integer {name value : String} {n : Int} (h : decimal? value = some n) :
    Yields ⟨name, .integer none, value⟩ (.value name value)

/-- The error for an argument with a value that is invalid for its kind. -/
inductive Refused : Argument → ConfigError → Prop where
  | flag {name value : String} (hset : ¬Sets value) (hunset : ¬Unsets value) :
    Refused ⟨name, .flag, value⟩ (.invalidValue name value "an integer or true/false")
  | text {name value : String} (h : '"' ∈ value.toList ∨ '\'' ∈ value.toList) :
    Refused ⟨name, .text, value⟩ (.invalidValue name value "a string without quote characters")
  | unmapped {name value : String} {map : List (String × String)} (h : map.lookup value = none) :
    Refused ⟨name, .integer (some map), value⟩ (.unmappedValue name value)
  | integer {name value : String} (h : decimal? value = none) :
    Refused ⟨name, .integer none, value⟩ (.invalidValue name value "an integer")

/-- An argument with a value that is invalid for its kind. -/
def IsInvalid (arg : Argument) : Prop :=
  ∃ e, Refused arg e

/-- What an argument comes to. -/
inductive Verdict (arg : Argument) : Except ConfigError (Option Define) → Prop where
  | refused {e : ConfigError} (h : Refused arg e) : Verdict arg (.error e)
  | define {d : Define} (h : Yields arg d) : Verdict arg (.ok (some d))
  | set (h : IsSet arg) : Verdict arg (.ok (some (.symbol arg.name)))
  | unset (h : IsUnset arg) : Verdict arg (.ok none)

theorem hasQuote_iff {value : String} :
    hasQuote value = true ↔ '"' ∈ value.toList ∨ '\'' ∈ value.toList := by
  simp only [hasQuote, List.any_eq_true, Bool.or_eq_true, beq_iff_eq, and_or_left, exists_or,
    exists_eq_right]

theorem verdict (arg : Argument) : Verdict arg (ofArgument arg) := by
  obtain ⟨name, kind, value⟩ := arg
  unfold ofArgument
  cases kind with
  | flag =>
    cases hvalue : flagValue? value with
    | none => exact .refused (.flag (by simp [sets_iff, hvalue]) (by simp [unsets_iff, hvalue]))
    | some set =>
      cases set with
      | true => exact .set ⟨rfl, sets_iff.2 hvalue⟩
      | false => exact .unset ⟨rfl, unsets_iff.2 hvalue⟩
  | text =>
    by_cases hquote : hasQuote value = true
    · simp only [if_pos hquote]
      exact .refused (.text (hasQuote_iff.1 hquote))
    · simp only [if_neg hquote]
      exact .define (.text (not_or.1 (hasQuote_iff.not.1 hquote)))
  | integer map? =>
    cases map? with
    | some map =>
      cases hlookup : map.lookup value with
      | none =>
        simp only [hlookup]
        exact .refused (.unmapped hlookup)
      | some literal =>
        simp only [hlookup]
        exact .define (.mapped hlookup)
    | none =>
      cases hdecimal : decimal? value with
      | none => exact .refused (.integer hdecimal)
      | some n => exact .define (.integer hdecimal)

theorem refused_iff {arg : Argument} {e : ConfigError} :
    Refused arg e ↔ ofArgument arg = .error e := by
  constructor
  · intro h
    cases h with
    | @flag name value hset hunset =>
      rw [sets_iff] at hset
      rw [unsets_iff] at hunset
      unfold ofArgument
      cases hvalue : flagValue? value with
      | none => rfl
      | some set =>
        cases set with
        | true => exact absurd hvalue hset
        | false => exact absurd hvalue hunset
    | text h => simp only [ofArgument, if_pos (hasQuote_iff.2 h)]
    | unmapped h => simp only [ofArgument, h]
    | integer h => simp [ofArgument, h]
  · intro h
    have hverdict := verdict arg
    rw [h] at hverdict
    cases hverdict
    assumption

theorem ofArgument_of_yields {arg : Argument} {d : Define} (h : Yields arg d) :
    ofArgument arg = .ok (some d) := by
  cases h with
  | text h => simp only [ofArgument, if_neg (hasQuote_iff.not.2 (not_or.2 h))]
  | mapped h => simp only [ofArgument, h]
  | integer h => simp [ofArgument, h]

theorem ofArgument_of_isSet {arg : Argument} (h : IsSet arg) :
    ofArgument arg = .ok (some (.symbol arg.name)) := by
  simp [ofArgument, h.1, sets_iff.1 h.2]

theorem Yields.kind_ne {arg : Argument} {d : Define} (h : Yields arg d) : arg.kind ≠ .flag := by
  cases h <;> nofun

theorem IsUnset.not_isSet {arg : Argument} (h : IsUnset arg) : ¬IsSet arg := by
  intro hset
  have hvalue := (unsets_iff.1 h.2).symm.trans (sets_iff.1 hset.2)
  cases hvalue

/-! ## All arguments -/

/-- The defines that arguments add, one after the other, to those before them. -/
inductive Adds : List Define → List Argument → List Define → Prop where
  | done {before : List Define} : Adds before [] []
  | define {before added : List Define} {arg : Argument} {args : List Argument} {d : Define}
    (h : Yields arg d) (hrest : Adds (before ++ [d]) args added) :
    Adds before (arg :: args) (d :: added)
  | unset {before added : List Define} {arg : Argument} {args : List Argument} (h : IsUnset arg)
    (hrest : Adds before args added) : Adds before (arg :: args) added
  | known {before added : List Define} {arg : Argument} {args : List Argument} (h : IsSet arg)
    (hknown : ∃ d ∈ before, d.token = arg.name) (hrest : Adds before args added) :
    Adds before (arg :: args) added
  | symbol {before added : List Define} {arg : Argument} {args : List Argument} (h : IsSet arg)
    (hnew : ∀ d ∈ before, d.token ≠ arg.name)
    (hrest : Adds (before ++ [.symbol arg.name]) args added) :
    Adds before (arg :: args) (.symbol arg.name :: added)

/-- A define that is no bare symbol. -/
def HasValue : Define → Bool
  | symbol _ => false
  | _ => true

section

variable {before added defines : List Define} {args : List Argument} {arg : Argument} {d : Define}
  {initial : List String} {resolved : Resolved}

/-- Defines with further ones, each unless it is a symbol that is already a token. -/
def addAll (before : List Define) (more : List (Option Define)) : List Define :=
  (more.filterMap id).foldl add before

@[simp] theorem addAll_none (before : List Define) (more : List (Option Define)) :
    addAll before (none :: more) = addAll before more := rfl

@[simp] theorem addAll_some (before : List Define) (d : Define) (more : List (Option Define)) :
    addAll before (some d :: more) = addAll (add before d) more := rfl

/-- Whether the initial symbols are those or others matters only once every argument has its
define. -/
theorem synthesize_eq (initial : List String) (resolved : Resolved) :
    synthesize initial resolved =
      (resolved.arguments.mapM ofArgument).map (addAll (initial.map symbol)) := by
  obtain ⟨args⟩ := resolved
  unfold synthesize
  generalize initial.map symbol = start
  induction args generalizing start with
  | nil => rfl
  | cons arg args ih =>
    rw [List.foldlM_cons, List.mapM_cons]
    cases harg : ofArgument arg with
    | error e => rfl
    | ok define? =>
      cases define? with
      | none =>
        refine (ih start).trans ?_
        cases args.mapM ofArgument <;> rfl
      | some d =>
        refine (ih (add start d)).trans ?_
        cases args.mapM ofArgument <;> rfl

theorem add_of_yields (h : Yields arg d) (before : List Define) : add before d = before ++ [d] := by
  cases h <;> rfl

theorem add_symbol_of_known {name : String} (h : ∃ d ∈ before, d.token = name) :
    add before (.symbol name) = before := by
  have hany : before.any (·.token == name) = true := by simpa using h
  rw [add, if_pos hany]

theorem add_symbol_of_new {name : String} (h : ∀ d ∈ before, d.token ≠ name) :
    add before (.symbol name) = before ++ [.symbol name] := by
  have hany : ¬before.any (·.token == name) = true := by simpa using h
  rw [add, if_neg hany]

/-- What the defines of arguments add, by what each argument comes to. -/
theorem adds_addAll {more : List (Option Define)}
    (h : List.Forall₂ (fun arg define? => ofArgument arg = .ok define?) args more)
    (before : List Define) :
    ∃ added, addAll before more = before ++ added ∧ Adds before args added := by
  induction h generalizing before with
  | nil => exact ⟨[], (List.append_nil _).symm, .done⟩
  | @cons arg define? args more harg _ ih =>
    have hverdict := verdict arg
    rw [harg] at hverdict
    cases hverdict with
    | @define d hyields =>
      obtain ⟨added, hadded, hadds⟩ := ih (before ++ [d])
      refine ⟨d :: added, ?_, .define hyields hadds⟩
      rw [addAll_some, add_of_yields hyields, hadded, List.append_assoc, List.singleton_append]
    | unset hunset =>
      obtain ⟨added, hadded, hadds⟩ := ih before
      exact ⟨added, (addAll_none before more).trans hadded, .unset hunset hadds⟩
    | set hset =>
      by_cases hknown : ∃ d ∈ before, d.token = arg.name
      · obtain ⟨added, hadded, hadds⟩ := ih before
        refine ⟨added, ?_, .known hset hknown hadds⟩
        rw [addAll_some, add_symbol_of_known hknown, hadded]
      · have hnew : ∀ d ∈ before, d.token ≠ arg.name := fun d hd heq => hknown ⟨d, hd, heq⟩
        obtain ⟨added, hadded, hadds⟩ := ih (before ++ [.symbol arg.name])
        refine ⟨.symbol arg.name :: added, ?_, .symbol hset hnew hadds⟩
        rw [addAll_some, add_symbol_of_new hnew, hadded, List.append_assoc, List.singleton_append]

/-- What is defined besides the initial symbols. -/
theorem adds_of_synthesize (h : synthesize initial resolved = .ok defines) :
    ∃ added, defines = initial.map symbol ++ added ∧
      Adds (initial.map symbol) resolved.arguments added := by
  rw [synthesize_eq] at h
  rcases mapM_cases ofArgument resolved.arguments with ⟨more, hmap, hall⟩ | ⟨_, _, -, -, hmap⟩
  · obtain ⟨added, hadded, hadds⟩ := adds_addAll hall (initial.map symbol)
    rw [hmap] at h
    exact ⟨added, (Except.ok.inj h).symm.trans hadded, hadds⟩
  · rw [hmap] at h
    cases h

/-! ## Tokens -/

/-- A flag that is set finds its name among the tokens, or adds it. -/
theorem Adds.exists_token (h : Adds before args added) (harg : arg ∈ args) (hset : IsSet arg) :
    ∃ d ∈ before ++ added, d.token = arg.name := by
  induction h with
  | done => cases harg
  | define hyields _ ih =>
    rcases List.mem_cons.1 harg with rfl | harg
    · exact absurd hset.1 hyields.kind_ne
    · simpa only [List.append_assoc, List.singleton_append] using ih harg
  | unset hunset _ ih =>
    rcases List.mem_cons.1 harg with rfl | harg
    · exact absurd hset hunset.not_isSet
    · exact ih harg
  | known _ hknown _ ih =>
    rcases List.mem_cons.1 harg with rfl | harg
    · obtain ⟨d, hd, htoken⟩ := hknown
      exact ⟨d, List.mem_append_left _ hd, htoken⟩
    · exact ih harg
  | symbol _ _ _ ih =>
    rcases List.mem_cons.1 harg with rfl | harg
    · exact ⟨.symbol arg.name, by simp, rfl⟩
    · simpa only [List.append_assoc, List.singleton_append] using ih harg

/-- Everything that is added is the define of an argument. -/
theorem Adds.origin (h : Adds before args added) (hd : d ∈ added) :
    ∃ arg ∈ args, ofArgument arg = .ok (some d) := by
  have hlater {arg' : Argument} {args : List Argument}
      (h : ∃ arg ∈ args, ofArgument arg = .ok (some d)) :
      ∃ arg ∈ arg' :: args, ofArgument arg = .ok (some d) := by
    obtain ⟨arg, harg, hdefine⟩ := h
    exact ⟨arg, List.mem_cons_of_mem _ harg, hdefine⟩
  induction h with
  | done => cases hd
  | @define _ _ arg _ _ hyields _ ih =>
    rcases List.mem_cons.1 hd with rfl | hd
    · exact ⟨arg, List.mem_cons_self, ofArgument_of_yields hyields⟩
    · exact hlater (ih hd)
  | unset _ _ ih => exact hlater (ih hd)
  | known _ _ _ ih => exact hlater (ih hd)
  | @symbol _ _ arg _ hset _ _ ih =>
    rcases List.mem_cons.1 hd with rfl | hd
    · exact ⟨arg, List.mem_cons_self, ofArgument_of_isSet hset⟩
    · exact hlater (ih hd)

/-- A define is an initial symbol, or that of an argument. -/
theorem exists_of_mem_synthesize (h : synthesize initial resolved = .ok defines)
    (hd : d ∈ defines) :
    (∃ name ∈ initial, d = .symbol name) ∨
      ∃ arg ∈ resolved.arguments, ofArgument arg = .ok (some d) := by
  obtain ⟨added, rfl, hadds⟩ := adds_of_synthesize h
  rcases List.mem_append.1 hd with hd | hd
  · obtain ⟨name, hname, rfl⟩ := List.mem_map.1 hd
    exact .inl ⟨name, hname, rfl⟩
  · exact .inr (hadds.origin hd)

/-! ## Defines with a value -/

theorem filter_add (before : List Define) (d : Define) :
    (add before d).filter HasValue = before.filter HasValue ++ [d].filter HasValue := by
  cases d <;> simp only [add]
  case symbol name =>
    split <;> simp [HasValue]
  all_goals rw [List.filter_append]

/-- Which defines with a value there are does not depend on what there was before. -/
theorem filter_addAll (before : List Define) (more : List (Option Define)) :
    (addAll before more).filter HasValue =
      before.filter HasValue ++ (more.filterMap id).filter HasValue := by
  induction more generalizing before with
  | nil => simp [addAll]
  | cons define? more ih =>
    cases define? with
    | none => exact ih before
    | some d =>
      rw [addAll_some, ih, filter_add, List.append_assoc, ← List.filter_append]
      rfl

theorem filter_symbols (initial : List String) : (initial.map symbol).filter HasValue = [] := by
  simp [HasValue]

theorem filter_of_synthesize (h : synthesize initial resolved = .ok defines)
    (initial' : List String) :
    ∃ defines', synthesize initial' resolved = .ok defines' ∧
      defines'.filter HasValue = defines.filter HasValue := by
  rw [synthesize_eq] at h
  rw [synthesize_eq]
  cases hmap : resolved.arguments.mapM ofArgument with
  | error e =>
    rw [hmap] at h
    cases h
  | ok more =>
    rw [hmap] at h
    refine ⟨addAll (initial'.map symbol) more, rfl, ?_⟩
    rw [← Except.ok.inj h, filter_addAll, filter_addAll, filter_symbols, filter_symbols]

/-! ## The whole configuration -/

theorem synthesize_eq_error {e : ConfigError} :
    synthesize initial resolved = .error e ↔
      ∃ arg, IsFirst IsInvalid resolved.arguments arg ∧ Refused arg e := by
  have hinvalid : IsInvalid = fun arg => ∃ e, ofArgument arg = .error e := by
    funext arg
    simp only [IsInvalid, refused_iff]
  rw [synthesize_eq, hinvalid]
  rcases mapM_cases ofArgument resolved.arguments with
    ⟨more, hmap, hall⟩ | ⟨arg, e', hfirst, he', hmap⟩
  · rw [hmap]
    refine ⟨nofun, ?_⟩
    rintro ⟨arg, hfirst, -⟩
    obtain ⟨e, he⟩ := hfirst.holds
    obtain ⟨define?, -, hok⟩ := exists_of_forall₂ hall hfirst.mem
    cases he.symm.trans hok
  · rw [hmap]
    constructor
    · rintro ⟨⟩
      exact ⟨arg, hfirst, refused_iff.2 he'⟩
    · rintro ⟨other, hother, hrefused⟩
      rw [← hfirst.unique hother, refused_iff] at hrefused
      rw [← Except.error.inj (he'.symm.trans hrefused)]
      rfl

/-- Synthesis of a resolved configuration fails exactly if the value of some argument is invalid for
its kind, and then as the first such argument does, whatever the initial symbols are.  Otherwise it
keeps the initial symbols and adds to them in schema order.  So the name of a flag that is set is a
token; that of a flag that is not set is one only as an initial symbol or as the token of another
option; and the defines with a value are the same for all initial symbols. -/
theorem synthesize_outcome {schema : Schema} {entries : List Entry}
    (hresolved : schema.resolve entries = .ok resolved) (initial : List String) :
    List.Forall₂ (Schema.Fills entries) schema.options resolved.arguments ∧
    ((∃ e, synthesize initial resolved = .error e) ↔ ∃ arg ∈ resolved.arguments, IsInvalid arg) ∧
    (∀ e, synthesize initial resolved = .error e ↔
      ∃ arg, IsFirst IsInvalid resolved.arguments arg ∧ Refused arg e) ∧
    ∀ defines, synthesize initial resolved = .ok defines →
      (∃ added, defines = initial.map symbol ++ added ∧
        Adds (initial.map symbol) resolved.arguments added) ∧
      (∀ arg ∈ resolved.arguments, IsSet arg → ∃ d ∈ defines, d.token = arg.name) ∧
      (∀ arg ∈ resolved.arguments, IsUnset arg → ∀ d ∈ defines, d.token = arg.name →
        arg.name ∈ initial ∨ ∃ other ∈ resolved.arguments, other.name ≠ arg.name ∧ Yields other d) ∧
      ∀ initial', ∃ defines', synthesize initial' resolved = .ok defines' ∧
        defines'.filter HasValue = defines.filter HasValue := by
  refine ⟨(Schema.settles_of_resolve hresolved).arguments, ?_, fun e => synthesize_eq_error, ?_⟩
  · constructor
    · rintro ⟨e, he⟩
      obtain ⟨arg, hfirst, -⟩ := synthesize_eq_error.1 he
      exact ⟨arg, hfirst.mem, hfirst.holds⟩
    · intro hinvalid
      obtain ⟨arg, hfirst⟩ := exists_isFirst hinvalid
      obtain ⟨e, he⟩ := hfirst.holds
      exact ⟨e, synthesize_eq_error.2 ⟨arg, hfirst, he⟩⟩
  · intro defines hdefines
    obtain ⟨added, hadded, hadds⟩ := adds_of_synthesize hdefines
    refine ⟨⟨added, hadded, hadds⟩, ?_, ?_, filter_of_synthesize hdefines⟩
    · intro arg harg hset
      exact hadded ▸ hadds.exists_token harg hset
    · intro arg harg hunset d hd htoken
      rcases exists_of_mem_synthesize hdefines hd with ⟨name, hname, rfl⟩ | ⟨other, hother, hdefine⟩
      · exact .inl (htoken ▸ hname)
      · have hsame (hname : other.name = arg.name) : IsUnset other :=
          Schema.argument_eq_of_name_eq hresolved hother harg hname ▸ hunset
        have hverdict := verdict other
        rw [hdefine] at hverdict
        cases hverdict with
        | define hyields =>
          exact .inr ⟨other, hother, fun hname => hyields.kind_ne (hsame hname).1, hyields⟩
        | set hset => exact absurd hset (hsame htoken).not_isSet

/-- A set flag with the name of a literal and an unset one with the name of an initial symbol. -/
def mixedSchema : Schema where
  options := [
    ⟨"MODE", .integer (some [("slow", "QUIET"), ("fast", "TRACE")]), none⟩,
    ⟨"TRACE", .flag, some "0"⟩,
    ⟨"QUIET", .flag, none⟩,
    ⟨"NAME", .text, some "a b"⟩,
    ⟨"DEBUG", .flag, none⟩,
    ⟨"LEVEL", .integer none, none⟩]

def mixedEntries : List Entry :=
  [⟨1, "MODE", "fast"⟩, ⟨2, "TRACE", "True"⟩, ⟨3, "QUIET", "-0"⟩, ⟨4, "DEBUG", "007"⟩,
    ⟨6, "LEVEL", "+2"⟩]

theorem synthesize_mixedSchema : ∃ resolved, mixedSchema.resolve mixedEntries = .ok resolved ∧
    synthesize ["QUIET", "QUIET"] resolved = .ok [.symbol "QUIET", .symbol "QUIET",
      .literal "TRACE", .str "NAME" "a b", .symbol "DEBUG", .value "LEVEL" "+2"] ∧
    ∀ initial, ∃ defines, synthesize initial resolved = .ok defines ∧
      defines.filter HasValue = [.literal "TRACE", .str "NAME" "a b", .value "LEVEL" "+2"] := by
  have hresolved := Eq.refl (mixedSchema.resolve mixedEntries)
  exact ⟨_, rfl, rfl, ((synthesize_outcome hresolved ["QUIET", "QUIET"]).2.2.2 _ rfl).2.2.2⟩

end

end Define

end Autotree
