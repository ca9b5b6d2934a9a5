import Mathlib.Data.List.Forall2
import Mathlib.Data.List.Nodup
import Autotree.Proofs.Config.Reading

/-!
# The outcomes of resolution

Resolving entries against a schema has one of three outcomes (`Resolution`).  The first key that the
schema does not declare is refused; where there is none, so is the first option that has neither an
entry nor a fallback; otherwise every option has a value.  `resolution` says that resolving takes
one of the three ways, and as their conditions exclude each other it takes the one whose condition
holds.
-/

namespace Autotree

section Except

variable {ε α β : Type} {f g : α → Except ε β} {as : List α} {bs : List β}

theorem mapM_congr_of_mem (h : ∀ a ∈ as, f a = g a) : as.mapM f = as.mapM g := by
  induction as with
  | nil => rfl
  | cons a as ih =>
    obtain ⟨ha, has⟩ := List.forall_mem_cons.1 h
    rw [List.mapM_cons, List.mapM_cons, ha, ih has]

/-- Mapping a list either maps every element or ends with the error of the first that fails. -/
theorem mapM_cases (f : α → Except ε β) (as : List α) :
    (∃ bs, as.mapM f = .ok bs ∧ List.Forall₂ (fun a b => f a = .ok b) as bs) ∨
      ∃ a e, IsFirst (fun a => ∃ e, f a = .error e) as a ∧ f a = .error e ∧
        as.mapM f = .error e := by
  induction as with
  | nil => exact .inl ⟨[], rfl, .nil⟩
  | cons a as ih =>
    rw [List.mapM_cons]
    cases ha : f a with
    | error e => exact .inr ⟨a, e, ⟨[], as, rfl, ⟨e, ha⟩, by simp⟩, ha, rfl⟩
    | ok b =>
      rcases ih with ⟨bs, hbs, hall⟩ | ⟨c, e, ⟨before, after, has, hc, hbefore⟩, he, hfail⟩
      · exact .inl ⟨b :: bs, by rw [hbs]; rfl, .cons ha hall⟩
      · refine .inr ⟨c, e, ⟨a :: before, after, by rw [has]; rfl, hc, ?_⟩, he, by rw [hfail]; rfl⟩
        exact List.forall_mem_cons.2 ⟨by simp [ha], hbefore⟩

theorem forall₂_of_mapM (h : as.mapM f = .ok bs) :
    List.Forall₂ (fun a b => f a = .ok b) as bs := by
  rcases mapM_cases f as with ⟨cs, hcs, hall⟩ | ⟨_, _, -, -, hfail⟩
  · obtain rfl := Except.ok.inj (h.symm.trans hcs)
    exact hall
  · cases h.symm.trans hfail

theorem eq_of_mapM_eq_ok (hf : as.mapM f = .ok bs) (hg : as.mapM g = .ok bs) :
    ∀ a ∈ as, f a = g a := by
  have hall := forall₂_of_mapM hf
  have hall' := forall₂_of_mapM hg
  clear hf hg
  induction hall with
  | nil => exact List.forall_mem_nil _
  | cons ha _ ih =>
    obtain ⟨ha', hrest⟩ := List.forall₂_cons.1 hall'
    exact List.forall_mem_cons.2 ⟨ha.trans ha'.symm, ih hrest⟩

theorem exists_of_forall₂ {R : α → β → Prop} (h : List.Forall₂ R as bs) {a : α}
    (ha : a ∈ as) : ∃ b ∈ bs, R a b := by
  induction h with
  | nil => cases ha
  | cons hab _ ih =>
    rcases List.mem_cons.1 ha with rfl | ha
    · exact ⟨_, List.mem_cons_self, hab⟩
    · obtain ⟨b, hb, hab⟩ := ih ha
      exact ⟨b, List.mem_cons_of_mem _ hb, hab⟩

end Except

namespace Schema

variable {schema : Schema} {entries : List Entry} {option : OptionSpec} {resolved : Resolved}
  {name value : String}

/-- The schema has an option of this name. -/
def Declares (schema : Schema) (name : String) : Prop :=
  ∃ option ∈ schema.options, option.name = name

/-- The value of an option: that of the last entry for it, or else its fallback. -/
inductive Takes (entries : List Entry) (option : OptionSpec) : String → Prop where
  | assigned {entry : Entry} (h : IsLast (·.key = option.name) entries entry) :
    Takes entries option entry.value
  | fallback {value : String} (hunset : ∀ entry ∈ entries, entry.key ≠ option.name)
    (h : option.fallback = some value) : Takes entries option value

/-- An option with neither an entry nor a fallback. -/
def Lacks (entries : List Entry) (option : OptionSpec) : Prop :=
  (∀ entry ∈ entries, entry.key ≠ option.name) ∧ option.fallback = none

theorem contains_iff : schema.contains name = true ↔ schema.Declares name := by
  simp [contains, get?, List.find?_isSome, Declares]

theorem eq_of_name_eq {option' : OptionSpec} (h : option ∈ schema.options)
    (h' : option' ∈ schema.options) (hname : option.name = option'.name) : option = option' :=
  List.inj_on_of_nodup_map schema.names_nodup h h' hname

/-! ## One option -/

theorem assigned?_cases (entries : List Entry) (name : String) :
    (∃ entry, IsLast (·.key = name) entries entry ∧ assigned? entries name = some entry.value) ∨
      (∀ entry ∈ entries, entry.key ≠ name) ∧ assigned? entries name = none := by
  have hfind : assigned? entries name = (entries.reverse.find? (·.key = name)).map (·.value) := rfl
  cases hlast : entries.reverse.find? (·.key = name) with
  | some entry => exact .inl ⟨entry, isLast_iff_find?.2 hlast, by rw [hfind, hlast]; rfl⟩
  | none => exact .inr ⟨by simpa using hlast, by rw [hfind, hlast]; rfl⟩

theorem argument_cases (entries : List Entry) (option : OptionSpec) :
    (∃ value, Takes entries option value ∧
        argument entries option = .ok ⟨option.name, option.kind, value⟩) ∨
      Lacks entries option ∧ argument entries option = .error (.missingValue option.name) := by
  rw [argument]
  rcases assigned?_cases entries option.name with ⟨entry, hlast, hassigned⟩ | ⟨hunset, hassigned⟩
  · exact .inl ⟨entry.value, .assigned hlast, by rw [hassigned]⟩
  · cases hfallback : option.fallback with
    | some value => exact .inl ⟨value, .fallback hunset hfallback, by rw [hassigned]⟩
    | none => exact .inr ⟨⟨hunset, hfallback⟩, by rw [hassigned]⟩

/-- An option that takes a value does not lack one. -/
theorem Takes.not_lacks (h : Takes entries option value) : ¬Lacks entries option := by
  rintro ⟨hunset, hfallback⟩
  cases h with
  | assigned hlast =>
    obtain ⟨before, after, rfl, hkey, -⟩ := hlast
    exact hunset _ (by simp) hkey
  | fallback _ h => rw [hfallback] at h; cases h

theorem lacks_iff : Lacks entries option ↔ ∃ e, argument entries option = .error e := by
  rcases argument_cases entries option with ⟨value, htakes, hok⟩ | ⟨hlacks, herror⟩
  · simp [hok, htakes.not_lacks]
  · exact iff_of_true hlacks ⟨_, herror⟩

/-! ## The whole schema -/

/-- An argument with the name and the kind of an option, and the value that the option takes. -/
structure Fills (entries : List Entry) (option : OptionSpec) (argument : Argument) : Prop where
  name_eq : argument.name = option.name
  kind_eq : argument.kind = option.kind
  takes : Takes entries option argument.value

theorem fills_of_argument {arg : Argument} (h : argument entries option = .ok arg) :
    Fills entries option arg := by
  rcases argument_cases entries option with ⟨value, htakes, hok⟩ | ⟨-, herror⟩
  · obtain rfl := Except.ok.inj (h.symm.trans hok)
    exact ⟨rfl, rfl, htakes⟩
  · cases h.symm.trans herror

/-- A configuration that gives every option its value, in schema order. -/
structure Settles (schema : Schema) (entries : List Entry) (resolved : Resolved) : Prop where
  arguments : List.Forall₂ (Fills entries) schema.options resolved.arguments
  value_of_argument : ∀ argument ∈ resolved.arguments,
    resolved.value? argument.name = some argument.value
  value_of_undeclared : ∀ name, ¬schema.Declares name → resolved.value? name = none

/-- What resolving comes to. -/
inductive Resolution (schema : Schema) (entries : List Entry) : Except ConfigError Resolved → Prop
    where
  | unknownKey {entry : Entry} (h : IsFirst (¬schema.Declares ·.key) entries entry) :
    Resolution schema entries (.error (.unknownKey entry.key))
  | missingValue {option : OptionSpec} (hkeys : ∀ entry ∈ entries, schema.Declares entry.key)
    (h : IsFirst (Lacks entries) schema.options option) :
    Resolution schema entries (.error (.missingValue option.name))
  | settled {resolved : Resolved} (hkeys : ∀ entry ∈ entries, schema.Declares entry.key)
    (h : ∀ option ∈ schema.options, ¬Lacks entries option)
    (hresolved : schema.Settles entries resolved) : Resolution schema entries (.ok resolved)

theorem map_name_eq {options : List OptionSpec} {arguments : List Argument}
    (h : List.Forall₂ (Fills entries) options arguments) :
    arguments.map (·.name) = options.map (·.name) := by
  induction h with
  | nil => rfl
  | cons h _ ih => rw [List.map_cons, List.map_cons, h.name_eq, ih]

/-- Arguments that fill the options settle the configuration: as no two options have the same name,
a name leads to the argument that bears it. -/
theorem settles_of_fills (h : List.Forall₂ (Fills entries) schema.options resolved.arguments) :
    schema.Settles entries resolved := by
  have hnames := map_name_eq h
  refine ⟨h, ?_, ?_⟩
  · intro argument hargument
    have hsome : (resolved.arguments.find? (·.name == argument.name)).isSome :=
      List.find?_isSome.2 ⟨argument, hargument, beq_self_eq_true _⟩
    obtain ⟨found, hfound⟩ := Option.isSome_iff_exists.1 hsome
    have hname : found.name = argument.name := by simpa using List.find?_some hfound
    have hnodup : (resolved.arguments.map (·.name)).Nodup := hnames ▸ schema.names_nodup
    have hsame : found = argument :=
      List.inj_on_of_nodup_map hnodup (List.mem_of_find?_eq_some hfound) hargument hname
    rw [Resolved.value?, hfound, hsame, Option.map_some]
  · intro name hname
    rw [Resolved.value?, Option.map_eq_none_iff, List.find?_eq_none]
    intro argument hargument heq
    have hmem : argument.name ∈ schema.options.map (·.name) :=
      hnames ▸ List.mem_map_of_mem hargument
    obtain ⟨option, hoption, hsame⟩ := List.mem_map.1 hmem
    exact hname ⟨option, hoption, hsame.trans (beq_iff_eq.1 heq)⟩

theorem resolution (schema : Schema) (entries : List Entry) :
    schema.Resolution entries (schema.resolve entries) := by
  rw [resolve]
  cases hunknown : entries.find? (!schema.contains ·.key) with
  | some entry =>
    classical
    refine .unknownKey (isFirst_iff_find?.2 (hunknown ▸ ?_))
    congr 1
    funext e
    simp [← contains_iff]
  | none =>
    have hkeys : ∀ entry ∈ entries, schema.Declares entry.key := by
      simpa [List.find?_eq_none, contains_iff] using hunknown
    rcases mapM_cases (argument entries) schema.options with
      ⟨arguments, hmap, hall⟩ | ⟨option, e, hfirst, he, hmap⟩
    · have hfills : List.Forall₂ (Fills entries) schema.options arguments :=
        hall.imp fun _ _ => fills_of_argument
      simp only [hmap]
      refine .settled hkeys ?_ (settles_of_fills hfills)
      intro option hoption hlacks
      obtain ⟨arg, -, hfill⟩ := exists_of_forall₂ hfills hoption
      exact hfill.takes.not_lacks hlacks
    · simp only [← lacks_iff] at hfirst
      rcases argument_cases entries option with ⟨value, htakes, -⟩ | ⟨-, herror⟩
      · exact absurd hfirst.holds htakes.not_lacks
      · obtain rfl := Except.error.inj (he.symm.trans herror)
        simp only [hmap]
        exact .missingValue hkeys hfirst

theorem settles_of_resolve (h : schema.resolve entries = .ok resolved) :
    schema.Settles entries resolved := by
  have hresolution := schema.resolution entries
  rw [h] at hresolution
  cases hresolution with
  | settled _ _ hresolved => exact hresolved

/-- An argument has the name and the kind of an option. -/
theorem option_of_argument {argument : Argument} (h : schema.resolve entries = .ok resolved)
    (hargument : argument ∈ resolved.arguments) :
    ∃ option ∈ schema.options, argument.name = option.name ∧ argument.kind = option.kind := by
  have hflip := List.Forall₂.flip (R := flip (Fills entries)) (settles_of_resolve h).arguments
  obtain ⟨option, hoption, hfills⟩ := exists_of_forall₂ hflip hargument
  exact ⟨option, hoption, hfills.name_eq, hfills.kind_eq⟩

/-- As no two options have the same name, a name belongs to one argument only. -/
theorem argument_eq_of_name_eq {argument other : Argument}
    (h : schema.resolve entries = .ok resolved) (hargument : argument ∈ resolved.arguments)
    (hother : other ∈ resolved.arguments)
    (hname : argument.name = other.name) : argument = other := by
  have hnodup : (resolved.arguments.map (·.name)).Nodup :=
    map_name_eq (settles_of_resolve h).arguments ▸ schema.names_nodup
  exact List.inj_on_of_nodup_map hnodup hargument hother hname

/-- Resolving succeeds exactly if every key is declared and every option without a fallback has an
entry.  It then gives one argument for each option, in schema order, with the value of the last
entry or the fallback, and a name leads to its argument.  Otherwise it names the first key that is
not declared, whatever else is wrong, or else the first option without a value. -/
theorem resolve_outcome (schema : Schema) (entries : List Entry) :
    ((∃ resolved, schema.resolve entries = .ok resolved) ↔
      (∀ entry ∈ entries, schema.Declares entry.key) ∧
        ∀ option ∈ schema.options, option.fallback = none →
          ∃ entry ∈ entries, entry.key = option.name) ∧
    (∀ resolved, schema.resolve entries = .ok resolved → schema.Settles entries resolved) ∧
    ∀ e, schema.resolve entries = .error e ↔
      (∃ entry, IsFirst (¬schema.Declares ·.key) entries entry ∧ e = .unknownKey entry.key) ∨
        (∀ entry ∈ entries, schema.Declares entry.key) ∧
          ∃ option, IsFirst (Lacks entries) schema.options option ∧
            e = .missingValue option.name := by
  have hresolution := schema.resolution entries
  generalize schema.resolve entries = r at hresolution
  cases hresolution with
  | @unknownKey entry h =>
    have hnot : ¬∀ entry ∈ entries, schema.Declares entry.key := fun hall => h.holds (hall _ h.mem)
    refine ⟨by simp [hnot], nofun, fun e => ⟨?_, ?_⟩⟩
    · rintro ⟨⟩
      exact .inl ⟨entry, h, rfl⟩
    · rintro (⟨other, hother, rfl⟩ | ⟨hall, -⟩)
      · rw [h.unique hother]
      · exact absurd hall hnot
  | @missingValue option hkeys h =>
    refine ⟨⟨nofun, ?_⟩, nofun, fun e => ⟨?_, ?_⟩⟩
    · rintro ⟨-, hall⟩
      obtain ⟨hunset, hfallback⟩ := h.holds
      obtain ⟨entry, hentry, hkey⟩ := hall option h.mem hfallback
      exact absurd hkey (hunset entry hentry)
    · rintro ⟨⟩
      exact .inr ⟨hkeys, option, h, rfl⟩
    · rintro (⟨other, hother, -⟩ | ⟨-, other, hother, rfl⟩)
      · exact absurd (hkeys _ hother.mem) hother.holds
      · rw [h.unique hother]
  | @settled resolved hkeys h hresolved =>
    refine ⟨⟨fun _ => ⟨hkeys, ?_⟩, fun _ => ⟨resolved, rfl⟩⟩, ?_, fun e => ⟨nofun, ?_⟩⟩
    · intro option hoption hfallback
      by_contra hnone
      exact h option hoption ⟨fun entry hentry hkey => hnone ⟨entry, hentry, hkey⟩, hfallback⟩
    · rintro _ ⟨⟩
      exact hresolved
    · rintro (⟨other, hother, -⟩ | ⟨-, other, hother, -⟩)
      · exact absurd (hkeys _ hother.mem) hother.holds
      · exact absurd hother.holds (h other hother.mem)

end Schema

end Autotree
