import Autotree.Config.Declaration
import Autotree.Proofs.Config.Resolution

/-!
# What declarations make of a schema

A declaration converts to an option, whose name, kind, fallback and value map its own parts
determine (`Declares`), or it is refused for the first of four reasons (`Refused`); `spec_cases`
says that converting takes one of the two ways.  The literals of a value map are collected one
after the other, and what has been collected so far carries the induction (`Collects.add`).

A list of declarations is converted before the names are compared.  So a declaration that does
not convert decides the error although a name repeats before it, and a repeated name is reported
only where every declaration converts (`ofDeclarations_outcome`).
-/

namespace Autotree

section

variable {α : Type} {p : α → Prop} {as : List α} {a b : α}

theorem isLast_append_singleton :
    IsLast p (as ++ [a]) b ↔ (p a ∧ a = b) ∨ (¬p a ∧ IsLast p as b) := by
  classical
  rw [isLast_iff_find?, isLast_iff_find?, List.reverse_append, List.reverse_singleton,
    List.singleton_append, List.find?_cons]
  by_cases ha : p a <;> simp [ha]

end

namespace Declaration

/-! ## Scalars -/

/-- The text that a scalar has in a configuration file. -/
inductive ScalarText : Toml.Value → String → Prop where
  | string {s : String} : ScalarText (.string s) s
  | integer {n : Int} : ScalarText (.integer n) (toString n)
  | yes : ScalarText (.boolean true) "1"
  | no : ScalarText (.boolean false) "0"

/-- A string, an integer or a boolean. -/
def IsScalar (v : Toml.Value) : Prop :=
  ∃ text, ScalarText v text

variable {d : Declaration} {e : ConfigError} {key name text : String} {v : Toml.Value}
  {option : OptionSpec} {entry : String × Toml.Value} {before raw : List (String × Toml.Value)}
  {map : List (String × String)}

theorem scalar_of_scalarText (h : ScalarText v text) : scalar key v = .ok text := by
  cases h <;> rfl

theorem ScalarText.unique {text' : String} (h : ScalarText v text) (h' : ScalarText v text') :
    text = text' := by
  cases h <;> cases h' <;> rfl

/-- The error for a value that is no scalar, in the declaration of an option. -/
def notScalar (name : String) (v : Toml.Value) : ConfigError :=
  .invalidValue name v.text "a string, integer or boolean"

theorem scalar_of_not_isScalar (h : ¬IsScalar v) : scalar key v = .error (notScalar key v) := by
  cases v with
  | string s => exact absurd ⟨_, .string⟩ h
  | integer n => exact absurd ⟨_, .integer⟩ h
  | boolean b =>
    cases b
    · exact absurd ⟨_, .no⟩ h
    · exact absurd ⟨_, .yes⟩ h
  | _ => rfl

/-! ## Value maps -/

/-- A value map with the literals of a declaration: under a trimmed key, and under no other, it has
the literal of the last key that trims to it. -/
structure Collects (raw : List (String × Toml.Value)) (map : List (String × String)) : Prop where
  scalars : ∀ entry ∈ raw, IsScalar entry.2
  keys_nodup : (map.map Prod.fst).Nodup
  lookup_iff : ∀ key literal, map.lookup key = some literal ↔
    ∃ entry, IsLast (fun entry => Text.trim entry.1 = key) raw entry ∧ ScalarText entry.2 literal

theorem lookup_addLiteral (map : List (String × String)) (key literal key' : String) :
    (addLiteral map key literal).lookup key' =
      if key = key' then some literal else map.lookup key' := by
  unfold addLiteral
  induction map with
  | nil =>
    rw [List.filter_nil, List.nil_append, List.lookup_cons]
    by_cases hkey : key = key'
    · simp [hkey]
    · simp [hkey, beq_eq_false_iff_ne.2 (Ne.symm hkey)]
  | cons entry map ih =>
    obtain ⟨k, text⟩ := entry
    by_cases hk : k = key
    · subst hk
      rw [List.filter_cons_of_neg (by simp), ih, List.lookup_cons]
      split
      · rfl
      · next hne => simp [beq_eq_false_iff_ne.2 (Ne.symm hne)]
    · rw [List.filter_cons_of_pos (by simpa using hk), List.cons_append, List.lookup_cons,
        List.lookup_cons, ih]
      split
      · next heq =>
        obtain rfl := eq_of_beq heq
        rw [if_neg (Ne.symm hk)]
      · rfl

theorem keys_addLiteral (h : (map.map Prod.fst).Nodup) (key literal : String) :
    ((addLiteral map key literal).map Prod.fst).Nodup := by
  have hsub : ((map.filter (·.1 != key)).map Prod.fst).Nodup :=
    h.sublist (List.filter_sublist.map _)
  rw [addLiteral, List.map_append, List.nodup_append]
  refine ⟨hsub, List.nodup_singleton _, ?_⟩
  simp

theorem collects_nil : Collects [] [] where
  scalars := List.forall_mem_nil _
  keys_nodup := List.nodup_nil
  lookup_iff key literal := by simp [IsLast]

/-- One more literal replaces that of an earlier key which trims to the same. -/
theorem Collects.add (h : Collects before map) (hv : ScalarText v text) (key : String) :
    Collects (before ++ [(key, v)]) (addLiteral map (Text.trim key) text) where
  scalars := by
    rw [List.forall_mem_append, List.forall_mem_singleton]
    exact ⟨h.scalars, text, hv⟩
  keys_nodup := keys_addLiteral h.keys_nodup _ _
  lookup_iff key' literal := by
    rw [lookup_addLiteral]
    simp only [isLast_append_singleton]
    by_cases hkey : Text.trim key = key'
    · rw [if_pos hkey, Option.some_inj]
      constructor
      · rintro rfl
        exact ⟨_, .inl ⟨hkey, rfl⟩, hv⟩
      · rintro ⟨entry, ⟨-, rfl⟩ | ⟨hne, -⟩, hliteral⟩
        · exact hv.unique hliteral
        · exact absurd hkey hne
    · rw [if_neg hkey, h.lookup_iff]
      simp [hkey]

/-- The step of collecting literals. -/
def collect (name : String) (map : List (String × String)) (entry : String × Toml.Value) :
    Except ConfigError (List (String × String)) :=
  (scalar name entry.2).map (addLiteral map (Text.trim entry.1))

theorem literals_eq (name : String) (raw : List (String × Toml.Value)) :
    literals name raw = raw.foldlM (collect name) [] := rfl

theorem Collects.foldlM (h : Collects before map) (name : String)
    (hscalars : ∀ entry ∈ raw, IsScalar entry.2) :
    ∃ map', raw.foldlM (collect name) map = .ok map' ∧ Collects (before ++ raw) map' := by
  induction raw generalizing before map with
  | nil => exact ⟨map, rfl, by rwa [List.append_nil]⟩
  | cons entry raw ih =>
    obtain ⟨key, v⟩ := entry
    obtain ⟨⟨text, hv⟩, hraw⟩ := List.forall_mem_cons.1 hscalars
    obtain ⟨map', hmap', hcollects⟩ := ih (h.add hv key) hraw
    refine ⟨map', ?_, ?_⟩
    · rw [List.foldlM_cons, collect, scalar_of_scalarText hv]
      exact hmap'
    · rwa [List.append_assoc] at hcollects

theorem literals_of_scalars (name : String) (hscalars : ∀ entry ∈ raw, IsScalar entry.2) :
    ∃ map, literals name raw = .ok map ∧ Collects raw map :=
  collects_nil.foldlM name hscalars

/-- Collecting literals stops at the first value that is no scalar. -/
theorem literals_of_isFirst (name : String)
    (h : IsFirst (fun entry : String × Toml.Value => ¬IsScalar entry.2) raw entry) :
    literals name raw = .error (notScalar name entry.2) := by
  obtain ⟨before, after, rfl, hentry, hbefore⟩ := h
  have hscalars : ∀ entry ∈ before, IsScalar entry.2 := fun entry hmem =>
    not_not.1 (hbefore entry hmem)
  obtain ⟨map, hmap, -⟩ := literals_of_scalars name hscalars
  rw [literals_eq] at hmap ⊢
  rw [List.foldlM_append, hmap]
  change (entry :: after).foldlM (collect name) map = _
  rw [List.foldlM_cons, collect, scalar_of_not_isScalar hentry]
  rfl

/-! ## One declaration -/

/-- The name of the option that is declared: trimmed and in uppercase. -/
def optionName (d : Declaration) : String :=
  OptionSpec.canonicalName d.name

/-- The word for the kind of the option, trimmed and in lowercase. -/
def word (d : Declaration) : String :=
  Text.lowerAscii (Text.trim d.type)

/-- The kind that a declaration gives its option, with the value map of an integer. -/
inductive HasKind (d : Declaration) : OptionKind → Prop where
  | flag (hword : d.word = "bool") (hmap : d.map = none) : HasKind d .flag
  | text (hword : d.word = "str") (hmap : d.map = none) : HasKind d .text
  | integer (hword : d.word = "int") (hmap : d.map = none) : HasKind d (.integer none)
  | mapped {raw : List (String × Toml.Value)} {map : List (String × String)}
    (hword : d.word = "int") (hmap : d.map = some raw) (hcollects : Collects raw map) :
    HasKind d (.integer (some map))

/-- The option that a declaration declares. -/
structure Declares (d : Declaration) (option : OptionSpec) : Prop where
  name_eq : option.name = d.optionName
  kind : HasKind d option.kind
  fallback : Option.Rel ScalarText d.fallback option.fallback

/-- A declaration that declares an option. -/
def Converts (d : Declaration) : Prop :=
  ∃ option, Declares d option

/-- The value map of a declaration, if it has one, has scalars only. -/
def MapsScalars (d : Declaration) : Prop :=
  ∀ raw, d.map = some raw → ∀ entry ∈ raw, IsScalar entry.2

/-- The word for the kind of the option is none that is known. -/
def OfNoKind (d : Declaration) : Prop :=
  d.word ≠ "bool" ∧ d.word ≠ "str" ∧ d.word ≠ "int"

/-- A value map stands where none may be. -/
def MapsInVain (d : Declaration) : Prop :=
  (d.word = "bool" ∨ d.word = "str") ∧ d.map ≠ none

/-- The error for a declaration that declares no option.  Each reason stands behind those before it:
a bad literal of the map, a word for no kind, a map where none may be, a bad fallback. -/
inductive Refused (d : Declaration) : ConfigError → Prop where
  | badLiteral {raw : List (String × Toml.Value)} {entry : String × Toml.Value}
    (hmap : d.map = some raw)
    (hfirst : IsFirst (fun entry : String × Toml.Value => ¬IsScalar entry.2) raw entry) :
    Refused d (notScalar d.optionName entry.2)
  | unsupportedType (hscalars : d.MapsScalars) (hword : d.OfNoKind) :
    Refused d (.unsupportedType d.optionName d.type)
  | mapNotAllowed (hscalars : d.MapsScalars) (hmap : d.MapsInVain) :
    Refused d (.mapNotAllowed d.optionName)
  | badFallback {kind : OptionKind} {v : Toml.Value} (hkind : HasKind d kind)
    (hfallback : d.fallback = some v) (hv : ¬IsScalar v) :
    Refused d (notScalar d.optionName v)

variable {kind' : OptionKind} {map? : Option (List (String × String))}

theorem HasKind.mapsScalars (h : HasKind d kind') : d.MapsScalars := by
  intro raw hraw
  cases h with
  | flag _ hmap => cases hmap.symm.trans hraw
  | text _ hmap => cases hmap.symm.trans hraw
  | integer _ hmap => cases hmap.symm.trans hraw
  | mapped _ hmap hcollects =>
    obtain rfl := Option.some.inj (hmap.symm.trans hraw)
    exact hcollects.scalars

theorem HasKind.not_ofNoKind (h : HasKind d kind') : ¬d.OfNoKind := by
  rintro ⟨hbool, hstr, hint⟩
  cases h with
  | flag hword => exact hbool hword
  | text hword => exact hstr hword
  | integer hword => exact hint hword
  | mapped hword => exact hint hword

theorem HasKind.not_mapsInVain (h : HasKind d kind') : ¬d.MapsInVain := by
  rintro ⟨hword, hmap⟩
  cases h with
  | flag _ hnone => exact hmap hnone
  | text _ hnone => exact hmap hnone
  | integer _ hnone => exact hmap hnone
  | mapped hint => simp [hint] at hword

theorem OfNoKind.not_mapsInVain (h : d.OfNoKind) : ¬d.MapsInVain := by
  rintro ⟨hbool | hstr, -⟩
  · exact h.1 hbool
  · exact h.2.1 hstr

theorem Refused.not_converts (h : Refused d e) : ¬d.Converts := by
  rintro ⟨⟨name, kind', fallback⟩, -, hkind, hrel⟩
  cases h with
  | badLiteral hmap hfirst => exact hfirst.holds (hkind.mapsScalars _ hmap _ hfirst.mem)
  | unsupportedType _ hword => exact hkind.not_ofNoKind hword
  | mapNotAllowed _ hmap => exact hkind.not_mapsInVain hmap
  | badFallback _ hfallback hv =>
    rw [hfallback] at hrel
    cases hrel with
    | some htext => exact hv ⟨_, htext⟩

/-! ## Converting a declaration -/

/-- Converting goes through the map, the kind and the fallback, in this order. -/
theorem spec_eq (d : Declaration) :
    d.spec = (d.map.mapM (literals d.optionName)).bind fun map? =>
      (kind d.optionName d.type map?).bind fun kind =>
        (d.fallback.mapM (scalar d.optionName)).map (OptionSpec.mk d.optionName kind) := rfl

theorem map_of_mapsScalars (h : d.MapsScalars) (name : String) :
    ∃ map?, d.map.mapM (literals name) = .ok map? ∧ Option.Rel Collects d.map map? := by
  cases hmap : d.map with
  | none => exact ⟨none, rfl, .none⟩
  | some raw =>
    obtain ⟨map, hliterals, hcollects⟩ := literals_of_scalars name (h raw hmap)
    exact ⟨some map, by rw [Option.mapM_some, hliterals]; rfl, .some hcollects⟩

theorem map_of_isFirst (hmap : d.map = some raw)
    (hfirst : IsFirst (fun entry : String × Toml.Value => ¬IsScalar entry.2) raw entry) :
    d.map.mapM (literals name) = .error (notScalar name entry.2) := by
  rw [hmap, Option.mapM_some, literals_of_isFirst name hfirst]
  rfl

theorem ofWord?_cases (word : String) :
    (word = "bool" ∧ OptionKind.ofWord? word = some .flag) ∨
    (word = "str" ∧ OptionKind.ofWord? word = some .text) ∨
    (word = "int" ∧ OptionKind.ofWord? word = some (.integer none)) ∨
    (word ≠ "bool" ∧ word ≠ "str" ∧ word ≠ "int") ∧ OptionKind.ofWord? word = none := by
  unfold OptionKind.ofWord?
  by_cases hbool : word = "bool"
  · simp [hbool]
  · by_cases hstr : word = "str"
    · simp [hstr]
    · by_cases hint : word = "int" <;> simp [hbool, hstr, hint]

/-- The three outcomes for the kind exclude each other. -/
theorem kind_cases (hmap : Option.Rel Collects d.map map?) :
    (∃ kind', kind d.optionName d.type map? = .ok kind' ∧ HasKind d kind') ∨
    (kind d.optionName d.type map? = .error (.unsupportedType d.optionName d.type) ∧
      d.OfNoKind) ∨
    (kind d.optionName d.type map? = .error (.mapNotAllowed d.optionName) ∧ d.MapsInVain) := by
  unfold kind
  generalize hraw : d.map = raw? at hmap
  obtain ⟨hword, hkind⟩ | ⟨hword, hkind⟩ | ⟨hword, hkind⟩ | ⟨hword, hkind⟩ := ofWord?_cases d.word
  all_goals
    rw [word] at hkind
    rw [hkind]
  · cases hmap with
    | none => exact .inl ⟨_, rfl, .flag hword hraw⟩
    | some => exact .inr (.inr ⟨rfl, .inl hword, by simp [hraw]⟩)
  · cases hmap with
    | none => exact .inl ⟨_, rfl, .text hword hraw⟩
    | some => exact .inr (.inr ⟨rfl, .inr hword, by simp [hraw]⟩)
  · cases hmap with
    | none => exact .inl ⟨_, rfl, .integer hword hraw⟩
    | some hcollects => exact .inl ⟨_, rfl, .mapped hword hraw hcollects⟩
  · exact .inr (.inl ⟨rfl, hword⟩)

theorem fallback_of_not_isScalar (hfallback : d.fallback = some v) (hv : ¬IsScalar v) :
    d.fallback.mapM (scalar name) = .error (notScalar name v) := by
  rw [hfallback, Option.mapM_some, scalar_of_not_isScalar hv]
  rfl

theorem fallback_cases (d : Declaration) (name : String) :
    (∃ fallback, d.fallback.mapM (scalar name) = .ok fallback ∧
        Option.Rel ScalarText d.fallback fallback) ∨
      ∃ v, d.fallback = some v ∧ ¬IsScalar v := by
  cases d.fallback with
  | none => exact .inl ⟨none, rfl, .none⟩
  | some v =>
    by_cases hv : IsScalar v
    · obtain ⟨text, htext⟩ := hv
      exact .inl ⟨some text, by rw [Option.mapM_some, scalar_of_scalarText htext]; rfl, .some htext⟩
    · exact .inr ⟨v, rfl, hv⟩

/-- A declaration that is refused fails with the error for the first reason. -/
theorem spec_of_refused (h : d.Refused e) : d.spec = .error e := by
  rw [spec_eq]
  cases h with
  | badLiteral hmap hfirst => rw [map_of_isFirst hmap hfirst]; rfl
  | unsupportedType hscalars hword =>
    obtain ⟨map?, hmap?, hcollects⟩ := map_of_mapsScalars hscalars d.optionName
    rw [hmap?]
    obtain ⟨_, -, hkind⟩ | ⟨hkind, -⟩ | ⟨-, hvain⟩ := kind_cases hcollects
    · exact absurd hword hkind.not_ofNoKind
    · simp only [Except.bind, hkind]
    · exact absurd hvain hword.not_mapsInVain
  | mapNotAllowed hscalars hvain =>
    obtain ⟨map?, hmap?, hcollects⟩ := map_of_mapsScalars hscalars d.optionName
    rw [hmap?]
    obtain ⟨_, -, hkind⟩ | ⟨-, hword⟩ | ⟨hkind, -⟩ := kind_cases hcollects
    · exact absurd hvain hkind.not_mapsInVain
    · exact absurd hvain hword.not_mapsInVain
    · simp only [Except.bind, hkind]
  | badFallback hkind hfallback hv =>
    obtain ⟨map?, hmap?, hcollects⟩ := map_of_mapsScalars hkind.mapsScalars d.optionName
    rw [hmap?, fallback_of_not_isScalar hfallback hv]
    obtain ⟨_, hkind', -⟩ | ⟨-, hword⟩ | ⟨-, hvain⟩ := kind_cases hcollects
    · simp only [Except.bind, hkind', Except.map]
    · exact absurd hword hkind.not_ofNoKind
    · exact absurd hvain hkind.not_mapsInVain

/-- A declaration either gives the option that it declares or is refused. -/
theorem spec_cases (d : Declaration) :
    (∃ option, d.spec = .ok option ∧ d.Declares option) ∨ ∃ e, d.Refused e := by
  by_cases hscalars : d.MapsScalars
  · obtain ⟨map?, hmap?, hcollects⟩ := map_of_mapsScalars hscalars d.optionName
    obtain ⟨kind', hkind, hhas⟩ | ⟨-, hword⟩ | ⟨-, hvain⟩ := kind_cases hcollects
    · obtain ⟨fallback, hfallback, hrel⟩ | ⟨v, hfallback, hv⟩ := fallback_cases d d.optionName
      · refine .inl ⟨⟨d.optionName, kind', fallback⟩, ?_, rfl, hhas, hrel⟩
        rw [spec_eq, hmap?, hfallback]
        simp only [Except.bind, hkind, Except.map]
      · exact .inr ⟨_, .badFallback hhas hfallback hv⟩
    · exact .inr ⟨_, .unsupportedType hscalars hword⟩
    · exact .inr ⟨_, .mapNotAllowed hscalars hvain⟩
  · simp only [MapsScalars, not_forall] at hscalars
    obtain ⟨raw, hmap, entry, hmem, hentry⟩ := hscalars
    obtain ⟨first, hfirst⟩ := exists_isFirst
      (p := fun entry : String × Toml.Value => ¬IsScalar entry.2) ⟨entry, hmem, hentry⟩
    exact .inr ⟨_, .badLiteral hmap hfirst⟩

theorem spec_eq_error_iff : d.spec = .error e ↔ d.Refused e := by
  refine ⟨fun h => ?_, spec_of_refused⟩
  obtain ⟨option, hok, -⟩ | ⟨e', hrefused⟩ := spec_cases d
  · cases hok.symm.trans h
  · obtain rfl := Except.error.inj ((spec_of_refused hrefused).symm.trans h)
    exact hrefused

theorem Refused.unique {e' : ConfigError} (h : d.Refused e) (h' : d.Refused e') : e = e' :=
  Except.error.inj ((spec_of_refused h).symm.trans (spec_of_refused h'))

theorem declares_of_spec (h : d.spec = .ok option) : d.Declares option := by
  obtain ⟨option', hok, hdeclares⟩ | ⟨e, hrefused⟩ := spec_cases d
  · obtain rfl := Except.ok.inj (hok.symm.trans h)
    exact hdeclares
  · cases (spec_of_refused hrefused).symm.trans h

theorem not_converts_iff : ¬d.Converts ↔ ∃ e, d.Refused e := by
  refine ⟨fun h => ?_, fun ⟨_, hrefused⟩ => hrefused.not_converts⟩
  obtain ⟨option, -, hdeclares⟩ | hrefused := spec_cases d
  · exact absurd ⟨option, hdeclares⟩ h
  · exact hrefused

end Declaration

/-! ## All declarations -/

namespace Schema

variable {names seen : List String} {name : String} {options : List OptionSpec} {schema : Schema}
  {e : ConfigError}

/-- The first name that occurs before its place. -/
def RepeatsFirst (names : List String) (name : String) : Prop :=
  ∃ before after, names = before ++ name :: after ∧ name ∈ before ∧ before.Nodup

theorem RepeatsFirst.not_nodup (h : RepeatsFirst names name) : ¬names.Nodup := by
  obtain ⟨before, after, rfl, hmem, -⟩ := h
  rw [List.nodup_append]
  rintro ⟨-, -, hdisjoint⟩
  exact hdisjoint name hmem name List.mem_cons_self rfl

/-- The names before the first that repeats are new, and they are those that have been seen. -/
theorem firstRepeated?_eq_some_iff :
    firstRepeated? seen names = some name ↔
      ∃ before after, names = before ++ name :: after ∧ (name ∈ before ∨ name ∈ seen) ∧
        before.Nodup ∧ ∀ other ∈ before, other ∉ seen := by
  induction names generalizing seen with
  | nil => simp [firstRepeated?]
  | cons first rest ih =>
    rw [firstRepeated?]
    split
    · next hseen =>
      rw [Option.some_inj]
      constructor
      · rintro rfl
        exact ⟨[], rest, rfl, .inr hseen, List.nodup_nil, List.forall_mem_nil _⟩
      · rintro ⟨_ | ⟨other, before⟩, after, hnames, -, -, hbefore⟩
        · exact (List.cons.inj hnames).1
        · obtain ⟨rfl, -⟩ := List.cons.inj hnames
          exact absurd hseen (hbefore first List.mem_cons_self)
    · next hnew =>
      rw [ih]
      constructor
      · rintro ⟨before, after, rfl, hname, hnodup, hbefore⟩
        simp only [List.mem_cons, not_or] at hname hbefore
        refine ⟨first :: before, after, rfl, ?_, ?_, ?_⟩
        · rw [List.mem_cons]
          tauto
        · exact List.nodup_cons.2 ⟨fun hmem => (hbefore first hmem).1 rfl, hnodup⟩
        · exact List.forall_mem_cons.2 ⟨hnew, fun other hmem => (hbefore other hmem).2⟩
      · rintro ⟨_ | ⟨other, before⟩, after, hnames, hname, hnodup, hbefore⟩
        · obtain ⟨rfl, -⟩ := List.cons.inj hnames
          exact absurd (hname.resolve_left (List.not_mem_nil)) hnew
        · obtain ⟨rfl, rfl⟩ := List.cons.inj hnames
          obtain ⟨hfirst, hnodup⟩ := List.nodup_cons.1 hnodup
          simp only [List.mem_cons, not_or] at hname hbefore ⊢
          refine ⟨before, after, rfl, by tauto, hnodup, fun other hmem => ⟨?_, ?_⟩⟩
          · rintro rfl
            exact hfirst hmem
          · exact hbefore other (.inr hmem)

theorem firstRepeated?_nil_eq_some_iff :
    firstRepeated? [] names = some name ↔ RepeatsFirst names name := by
  rw [firstRepeated?_eq_some_iff]
  simp [RepeatsFirst]

theorem ofList_eq_error_iff :
    ofList options = .error e ↔
      ∃ name, e = .duplicateOption name ∧ RepeatsFirst (options.map (·.name)) name := by
  unfold ofList
  split
  · next hnone =>
    simp only [reduceCtorEq, false_iff, not_exists, not_and]
    rintro name -
    rw [← firstRepeated?_nil_eq_some_iff, hnone]
    nofun
  · next name hname =>
    rw [Except.error.injEq]
    constructor
    · rintro rfl
      exact ⟨name, rfl, firstRepeated?_nil_eq_some_iff.1 hname⟩
    · rintro ⟨name', rfl, hrepeats⟩
      rw [← firstRepeated?_nil_eq_some_iff, hname] at hrepeats
      rw [Option.some.inj hrepeats]

theorem options_of_ofList (h : ofList options = .ok schema) : schema.options = options := by
  unfold ofList at h
  split at h
  · rw [← Except.ok.inj h]
  · cases h

theorem exists_ofList_iff :
    (∃ schema, ofList options = .ok schema) ↔ (options.map (·.name)).Nodup := by
  constructor
  · rintro ⟨schema, hschema⟩
    rw [← options_of_ofList hschema]
    exact schema.names_nodup
  · intro hnodup
    cases hlist : ofList options with
    | ok schema => exact ⟨schema, rfl⟩
    | error e =>
      obtain ⟨name, -, hrepeats⟩ := ofList_eq_error_iff.1 hlist
      exact absurd hnodup hrepeats.not_nodup

theorem get?_eq_some_iff {option : OptionSpec} :
    schema.get? name = some option ↔ option ∈ schema.options ∧ option.name = name := by
  constructor
  · intro h
    exact ⟨List.mem_of_find?_eq_some h, by simpa using List.find?_some h⟩
  · rintro ⟨hmem, rfl⟩
    cases hget : schema.get? option.name with
    | none =>
      have hnone := List.find?_eq_none.1 hget option hmem
      simp at hnone
    | some option' =>
      have hname : option'.name = option.name := by simpa using List.find?_some hget
      rw [eq_of_name_eq (List.mem_of_find?_eq_some hget) hmem hname]

theorem get?_eq_none_iff : schema.get? name = none ↔ name ∉ schema.options.map (·.name) := by
  simp [get?]

theorem map_name_of_declares {ds : List Declaration}
    (h : List.Forall₂ Declaration.Declares ds options) :
    options.map (·.name) = ds.map Declaration.optionName := by
  induction h with
  | nil => rfl
  | cons hdeclares _ ih => rw [List.map_cons, List.map_cons, hdeclares.name_eq, ih]

/-- Converting all declarations comes before comparing their names. -/
theorem ofDeclarations_cases (ds : List Declaration) :
    (∃ options, ofDeclarations ds = ofList options ∧
        List.Forall₂ Declaration.Declares ds options) ∨
      ∃ d e, IsFirst (fun d => ¬d.Converts) ds d ∧ d.Refused e ∧ ofDeclarations ds = .error e := by
  unfold ofDeclarations
  obtain ⟨options, hoptions, hall⟩ | ⟨d, e, hfirst, he, hfail⟩ := mapM_cases Declaration.spec ds
  · refine .inl ⟨options, by rw [hoptions]; rfl, hall.imp fun _ _ => Declaration.declares_of_spec⟩
  · simp only [Declaration.spec_eq_error_iff, ← Declaration.not_converts_iff] at hfirst he
    exact .inr ⟨d, e, hfirst, he, by rw [hfail]; rfl⟩

theorem converts_of_declares {ds : List Declaration}
    (h : List.Forall₂ Declaration.Declares ds options) : ∀ d ∈ ds, d.Converts := by
  intro d hd
  obtain ⟨option, -, hdeclares⟩ := exists_of_forall₂ h hd
  exact ⟨option, hdeclares⟩

/-- Declarations make a schema exactly if every one of them converts and no name repeats.  The
schema has the options in the order of their declarations, each under its name and under no other.
Without a schema, the error is that of the first declaration that does not convert, wherever a name
repeats, and only if there is none that of the first name which repeats. -/
theorem ofDeclarations_outcome (ds : List Declaration) :
    ((∃ schema, ofDeclarations ds = .ok schema) ↔
      (∀ d ∈ ds, d.Converts) ∧ (ds.map Declaration.optionName).Nodup) ∧
    (∀ schema, ofDeclarations ds = .ok schema →
      List.Forall₂ Declaration.Declares ds schema.options ∧ schema.size = ds.length ∧
      (∀ name option,
        schema.get? name = some option ↔ option ∈ schema.options ∧ option.name = name) ∧
      ∀ name, schema.get? name = none ↔ name ∉ ds.map Declaration.optionName) ∧
    ∀ e, ofDeclarations ds = .error e ↔
      (∃ d, IsFirst (fun d => ¬d.Converts) ds d ∧ d.Refused e) ∨
      ((∀ d ∈ ds, d.Converts) ∧
        ∃ name, e = .duplicateOption name ∧
          RepeatsFirst (ds.map Declaration.optionName) name) := by
  obtain ⟨options, hlist, hall⟩ | ⟨d, e, hfirst, hrefused, hfail⟩ := ofDeclarations_cases ds
  · have hconverts := converts_of_declares hall
    have hnames := map_name_of_declares hall
    rw [hlist, ← hnames]
    refine ⟨?_, fun schema hschema => ?_, fun e => ?_⟩
    · rw [exists_ofList_iff]
      exact (and_iff_right hconverts).symm
    · obtain rfl := options_of_ofList hschema
      exact ⟨hall, hall.length_eq.symm, fun _ _ => get?_eq_some_iff, fun _ => get?_eq_none_iff⟩
    · rw [ofList_eq_error_iff]
      constructor
      · exact fun hrepeats => .inr ⟨hconverts, hrepeats⟩
      · rintro (⟨d, hfirst, -⟩ | ⟨-, hrepeats⟩)
        · exact absurd (hconverts d hfirst.mem) hfirst.holds
        · exact hrepeats
  · have hbad : ¬∀ d ∈ ds, d.Converts := fun hconverts => hfirst.holds (hconverts d hfirst.mem)
    rw [hfail]
    refine ⟨?_, nofun, fun e' => ?_⟩
    · simp [hbad]
    · rw [Except.error.injEq]
      constructor
      · rintro rfl
        exact .inl ⟨d, hfirst, hrefused⟩
      · rintro (⟨d', hfirst', hrefused'⟩ | ⟨hconverts, -⟩)
        · obtain rfl := hfirst.unique hfirst'
          exact hrefused.unique hrefused'
        · exact absurd hconverts hbad

/-- An option whose map has two keys that trim to the same, and another option. -/
def leveledDeclarations : List Declaration :=
  [⟨"level ", "int", some (.integer 2),
      some [(" 1", .string "-O0"), ("1", .string "-O1"), ("2", .string "-O2")]⟩,
    ⟨"name", "str", none, none⟩]

theorem leveled_declared :
    ∃ schema, ofDeclarations leveledDeclarations = .ok schema ∧
      List.Forall₂ Declaration.Declares leveledDeclarations schema.options ∧
      schema.get? "LEVEL" =
        some ⟨"LEVEL", .integer (some [("1", "-O1"), ("2", "-O2")]), some "2"⟩ := by
  let schema : Schema := ⟨[⟨"LEVEL", .integer (some [("1", "-O1"), ("2", "-O2")]), some "2"⟩,
    ⟨"NAME", .text, none⟩], by decide⟩
  have hschema : ofDeclarations leveledDeclarations = .ok schema := by decide +kernel
  obtain ⟨-, hok, -⟩ := ofDeclarations_outcome leveledDeclarations
  obtain ⟨hdeclares, -, hget, -⟩ := hok schema hschema
  exact ⟨schema, hschema, hdeclares, (hget _ _).2 ⟨List.mem_cons_self, rfl⟩⟩

end Schema

end Autotree
