import Mathlib.Data.List.Nodup
import Autotree.Proofs.Descriptor.Makefile
import Autotree.Proofs.Descriptor.SourceList

/-!
# The variables that list sources

A makefile assigns one list of sources to the program and one to each library.  The names of
these variables are canonical: a character that automake does not take becomes an underscore.  So
targets of different names may come to the same variable, and each list is assigned once exactly
if the canonical names of the targets do not meet (`targetVariables_assigned`).

What a text assigns is read here off its lines as make takes them, and of every text: a part with
a line break in it adds lines of its own (`strays`), and these may be assignments too.  A part that
ends in a backslash takes the next line into its own.  The only next line that lists sources is the
one behind the name of the program.
-/

namespace Autotree.Descriptor

/-! ## Lists of sources in a text -/

/-- Whether a variable is one that lists sources, by its name. -/
def listsSources (name : List Char) : Bool :=
  "_SOURCES".toList.isSuffixOf name

/-- The variable to which a line assigns a list of sources, if it assigns one. -/
def sourceVariable? (line : List Char) : Option String :=
  let name := line.takeWhile isNameChar
  if listsSources name && " = ".toList.isPrefixOf (line.dropWhile isNameChar) then
    some (String.ofList name)
  else none

/-- The variables to which the lines of a text assign lists of sources, in order. -/
def sourceVariables (text : String) : List String :=
  (logicalLines text.toList).filterMap sourceVariable?

/-- Those that the lines after the first one of a text add. -/
def strays (text : String) : List String :=
  (logicalLines text.toList).tail.filterMap sourceVariable?

theorem exists_logicalLines (cs : List Char) :
    ∃ line lines, logicalLines cs = line :: lines := by
  fun_induction logicalLines cs with
  | case1 => exact ⟨[], [], rfl⟩
  | case3 rest ih => exact ⟨[], _, rfl⟩
  | case2 rest ih | case4 c rest _ _ ih =>
    obtain ⟨line, lines, heq⟩ := ih
    rw [heq]
    exact ⟨_, lines, rfl⟩

theorem logicalLines_cons {c : Char} {cs : List Char} (hc : c ≠ '\n')
    (hcs : c = '\\' → cs.head? ≠ some '\n') :
    logicalLines (c :: cs) = (logicalLines cs).modifyHead (c :: ·) := by
  rw [logicalLines]
  · rintro rest rfl rfl
    exact hcs rfl rfl
  · exact hc

theorem isContinued_of_cons {c : Char} {cs : List Char} (h : isContinued (c :: cs) = false) :
    isContinued cs = false := by
  cases cs with
  | nil => rfl
  | cons d cs => simpa [isContinued, List.getLast?_cons_cons] using h

/-- A line end finishes the lines in front of it, unless it is taken for a continuation. -/
theorem logicalLines_append_line {cs : List Char} (h : isContinued cs = false) (rest : List Char) :
    logicalLines (cs ++ '\n' :: rest) = logicalLines cs ++ logicalLines rest := by
  fun_induction logicalLines cs with
  | case1 => rfl
  | case2 more ih =>
    obtain ⟨line, lines, hmore⟩ := exists_logicalLines more
    rw [List.cons_append, List.cons_append, logicalLines,
      ih (isContinued_of_cons (isContinued_of_cons h)), hmore]
    rfl
  | case3 more ih =>
    rw [List.cons_append, logicalLines, ih (isContinued_of_cons h), List.cons_append]
  | case4 c more hslash hline ih =>
    obtain ⟨line, lines, hmore⟩ := exists_logicalLines more
    rw [List.cons_append, logicalLines_cons hline, ih (isContinued_of_cons h), hmore]
    · rfl
    · rintro rfl hhead
      cases more with
      | nil => cases h
      | cons d more =>
        cases Option.some.inj hhead
        exact hslash _ rfl rfl

/-- A line that has an end is a line of make, or goes on with the next one. -/
theorem logicalLines_line {cs : List Char} (h : '\n' ∉ cs) (rest : List Char) :
    logicalLines (cs ++ '\n' :: rest) =
      if isContinued cs then (logicalLines rest).modifyHead (cs.dropLast ++ ' ' :: ·)
      else cs :: logicalLines rest := by
  obtain ⟨next, others, hrest⟩ := List.exists_cons_of_ne_nil (List.splitOn_ne_nil '\n' rest)
  rw [logicalLines_eq, List.splitOn_append_cons_self_of_not_mem h, logicalLines_eq, hrest, joined]

theorem logicalLines_of_not_mem {cs : List Char} (h : '\n' ∉ cs) : logicalLines cs = [cs] := by
  rw [logicalLines_eq, List.splitOn_eq_singleton h]
  rfl

theorem Spells.of_not_mem {cs : List Char} (h : '\n' ∉ cs) (hlast : isContinued cs = false) :
    Spells cs cs := by
  intro rest
  induction cs with
  | nil => exact (List.modifyHead_id ▸ rfl)
  | cons c cs ih =>
    obtain ⟨hc, hcs⟩ := List.ne_and_not_mem_of_not_mem_cons h
    rw [List.cons_append, logicalLines_cons hc.symm, ih hcs (isContinued_of_cons hlast),
      List.modifyHead_modifyHead]
    · rfl
    · rintro rfl hhead
      cases cs with
      | nil => cases hlast
      | cons d cs =>
        cases Option.some.inj hhead
        exact hcs List.mem_cons_self

theorem sourceVariables_append_line {a : String} (h : isContinued a.toList = false) (b : String) :
    sourceVariables (a ++ "\n" ++ b) = sourceVariables a ++ sourceVariables b := by
  have hlist : (a ++ "\n" ++ b).toList = a.toList ++ '\n' :: b.toList := by simp
  rw [sourceVariables, hlist, logicalLines_append_line h, List.filterMap_append]
  rfl

theorem strays_of_not_mem {text : String} (h : '\n' ∉ text.toList) : strays text = [] := by
  rw [strays, logicalLines_of_not_mem h]
  rfl

/-- A line that begins with the name of a variable and ` = ` assigns to it, and to no other. -/
theorem sourceVariables_head {name : String} (hname : name.toList.all isNameChar = true)
    (value : String) :
    sourceVariables (name ++ " = " ++ value) =
      (if listsSources name.toList then [name] else []) ++ strays value := by
  have hchars : ∀ c ∈ name.toList, isNameChar c = true := List.all_eq_true.1 hname
  have hsmooth : Smooth (name.toList ++ " = ".toList) := by
    refine Smooth.append (fun c hc => ⟨?_, ?_⟩) (by decide)
    · rintro rfl
      exact absurd (hchars _ hc) (by decide)
    · rintro rfl
      exact absurd (hchars _ hc) (by decide)
  obtain ⟨first, rest, hvalue⟩ := exists_logicalLines value.toList
  have htake : (name.toList ++ " = ".toList ++ first).takeWhile isNameChar = name.toList := by
    rw [List.append_assoc, List.takeWhile_append_of_pos hchars]
    exact List.append_nil _
  have hdrop : (name.toList ++ " = ".toList ++ first).dropWhile isNameChar =
      " = ".toList ++ first := by
    rw [List.append_assoc, List.dropWhile_append_of_pos hchars]
    rfl
  have hhead : " = ".toList.isPrefixOf (" = ".toList ++ first) = true :=
    List.isPrefixOf_iff_prefix.2 (List.prefix_append _ _)
  have hline : sourceVariable? (name.toList ++ " = ".toList ++ first) =
      if listsSources name.toList then some name else none := by
    simp only [sourceVariable?, htake, hdrop, hhead, Bool.and_true, String.ofList_toList]
  have hlist : (name ++ " = " ++ value).toList = name.toList ++ " = ".toList ++ value.toList := by
    rw [String.toList_append, String.toList_append]
  rw [sourceVariables, strays, hlist, Spells.of_smooth hsmooth, hvalue, List.modifyHead_cons,
    List.filterMap_cons, hline, List.tail_cons]
  cases listsSources name.toList <;> rfl

/-- What the first line of a text assigns left aside, a line end in front adds all of it, and a
continuation nothing. -/
theorem strays_line {text : String} (h : '\n' ∉ text.toList) (rest : String) :
    strays (text ++ "\n" ++ rest) =
      if isContinued text.toList then strays rest else sourceVariables rest := by
  have hlist : (text ++ "\n" ++ rest).toList = text.toList ++ '\n' :: rest.toList := by simp
  obtain ⟨first, others, hrest⟩ := exists_logicalLines rest.toList
  rw [strays, hlist, logicalLines_line h, strays, sourceVariables, hrest]
  split <;> rfl

theorem strays_line_end {text : String} (h : '\n' ∉ text.toList) : strays (text ++ "\n") = [] := by
  have hline := strays_line h ""
  rw [String.append_empty] at hline
  rw [hline]
  split <;> rfl

theorem strays_of_sourceVariables {text : String} (h : sourceVariables text = []) :
    strays text = [] := by
  rw [sourceVariables, List.filterMap_eq_nil_iff] at h
  exact List.filterMap_eq_nil_iff.2 fun line hline => h line (List.mem_of_mem_tail hline)

theorem Spells.strays_eq {text : String} {line : List Char} (h : Spells text.toList line) :
    strays text = [] := by
  have hall := h []
  rw [List.append_nil] at hall
  rw [strays, hall]
  rfl

/-! ## Lists of files -/

theorem isContinued_append {front : List Char} (h : isContinued front = false) (back : List Char) :
    isContinued (front ++ back) = isContinued back := by
  cases back with
  | nil => rw [List.append_nil, h]; rfl
  | cons c back => rw [isContinued, isContinued, List.getLast?_append_cons]

theorem isContinued_line (text : String) : isContinued (text ++ "\n").toList = false := by
  rw [String.toList_append, isContinued, List.getLast?_append_of_ne_nil _ (by decide)]
  rfl

theorem isContinued_sourceItems {front : List Char} (h : isContinued front = false) (i : Nat)
    (files : List String) : isContinued (front ++ (sourceItems i files).toList) = false := by
  induction files generalizing i front with
  | nil => rwa [sourceItems, String.toList_empty, List.append_nil]
  | cons file files ih =>
    have hblank : isContinued (front ++ (if i % filesPerLine = filesPerLine - 1 then "\\\n\t"
        else "").toList ++ file.toList ++ [' ']) = false := by
      simp [isContinued]
    have hitems := ih hblank (i + 1)
    simpa [sourceItems] using hitems

/-- Files without line breaks are on one line, however many there are. -/
theorem exists_spells_sourceItems {files : List String} (h : ∀ file ∈ files, '\n' ∉ file.toList)
    (i : Nat) : ∃ line, Spells (sourceItems i files).toList line := by
  induction files generalizing i with
  | nil => exact ⟨[], .of_smooth (by simp [sourceItems, Smooth])⟩
  | cons file files ih =>
    obtain ⟨hfile, hfiles⟩ := List.forall_mem_cons.1 h
    obtain ⟨line, hline⟩ := ih hfiles (i + 1)
    have hitem : Spells (file.toList ++ [' ']) (file.toList ++ [' ']) :=
      .of_not_mem (by simp [hfile]) (by simp [isContinued])
    have hrest := hitem.append hline
    simp only [sourceItems, String.toList_append, List.append_assoc] at hrest ⊢
    split
    · exact ⟨_, spells_continuation.append hrest⟩
    · exact ⟨_, hrest⟩

theorem strays_sourceItems {files : List String} (h : ∀ file ∈ files, '\n' ∉ file.toList)
    (i : Nat) : strays (sourceItems i files) = [] := by
  obtain ⟨line, hline⟩ := exists_spells_sourceItems h i
  exact hline.strays_eq

theorem not_mem_intercalate {texts : List String} (h : ∀ text ∈ texts, '\n' ∉ text.toList) :
    '\n' ∉ (" ".intercalate texts).toList := by
  induction texts with
  | nil => simp
  | cons text rest ih =>
    obtain ⟨htext, hrest⟩ := List.forall_mem_cons.1 h
    cases rest with
    | nil => rwa [String.intercalate_singleton]
    | cons next rest =>
      rw [String.intercalate_cons_cons]
      simpa [htext] using ih hrest

/-! ## Whole lines -/

/-- Whole lines that assign the lists `names`, whatever follows them. -/
def Assigns (text : String) (names : List String) : Prop :=
  ∀ rest, sourceVariables (text ++ rest) = names ++ sourceVariables rest

theorem Assigns.append {a b : String} {as bs : List String} (ha : Assigns a as)
    (hb : Assigns b bs) : Assigns (a ++ b) (as ++ bs) := by
  intro rest
  rw [String.append_assoc, ha, hb, List.append_assoc]

theorem assigns_empty : Assigns "" [] := by
  intro rest
  rw [String.empty_append, List.nil_append]

theorem assigns_line {text : String} (h : isContinued text.toList = false) :
    Assigns (text ++ "\n") (sourceVariables text) :=
  sourceVariables_append_line h

theorem assigns_lineEnd : Assigns "\n" [] := by
  intro rest
  have hlist : ("\n" ++ rest).toList = '\n' :: rest.toList := by simp
  rw [sourceVariables, hlist, logicalLines]
  rfl

/-- A blank line ends every line in front of it. -/
theorem assigns_paragraph (text : String) :
    Assigns (text ++ "\n\n") (sourceVariables (text ++ "\n")) := by
  have hline := assigns_line (isContinued_line text)
  rwa [String.append_assoc, show "\n" ++ "\n" = "\n\n" by decide] at hline

theorem assigns_join {ι : Type} {text : ι → String} {names : ι → List String} {items : List ι}
    (h : ∀ item ∈ items, Assigns (text item) (names item)) :
    Assigns (String.join (items.map text)) (items.flatMap names) := by
  induction items with
  | nil => exact assigns_empty
  | cons item items ih =>
    obtain ⟨hitem, hitems⟩ := List.forall_mem_cons.1 h
    rw [List.map_cons, String.join_cons, List.flatMap_cons]
    exact hitem.append (ih hitems)

theorem Assigns.read_eq {text : String} {names : List String} (h : Assigns text names) :
    sourceVariables text = names := by
  have hend := h ""
  rw [String.append_empty] at hend
  rw [hend, show sourceVariables "" = [] from rfl, List.append_nil]

theorem IsHead.isContinued_eq {head name : String} (h : IsHead head name) :
    isContinued head.toList = false := by
  rw [h.1]
  simp [isContinued]

section

variable {head name : String} (hhead : IsHead head name)
  (hname : name.toList.all isNameChar = true)

include hhead hname

/-- A variable that lists no sources is assigned. -/
theorem assigns_other (hother : listsSources name.toList = false) {value : String}
    (hvalue : isContinued value.toList = false) :
    Assigns (head ++ value ++ "\n") (strays value) := by
  have hend : isContinued (name ++ " = " ++ value).toList = false := by
    rw [← hhead.1, String.toList_append, isContinued_append (hhead.isContinued_eq), hvalue]
  have hline := assigns_line hend
  rwa [sourceVariables_head hname, hother, if_neg Bool.false_ne_true, List.nil_append,
    ← hhead.1] at hline

/-- A variable that lists no sources is assigned, and a blank line follows. -/
theorem assigns_other_paragraph (hother : listsSources name.toList = false) (value : String) :
    Assigns (head ++ value ++ "\n\n") (strays (value ++ "\n")) := by
  have hlines := assigns_paragraph (name ++ " = " ++ value)
  have hassoc : name ++ " = " ++ value ++ "\n" = name ++ " = " ++ (value ++ "\n") :=
    String.append_assoc
  rwa [hassoc, sourceVariables_head hname, hother, if_neg Bool.false_ne_true, List.nil_append,
    ← hhead.1] at hlines

theorem assigns_sourceList (hlists : listsSources name.toList = true) (files : List String) :
    Assigns (sourceList head files) (name :: strays (sourceItems 0 files)) := by
  have hend : isContinued (head ++ sourceItems 0 files).toList = false := by
    rw [String.toList_append]
    exact isContinued_sourceItems (hhead.isContinued_eq) 0 files
  have hline := assigns_line hend
  rw [hhead.1, sourceVariables_head hname, hlists, if_pos rfl, ← hhead.1] at hline
  exact hline

end

/-! ## The lists of the targets -/

/-- The variable that lists the sources of the program. -/
def programVariable (project : Project) : String :=
  canonicalName project.name ++ "_SOURCES"

/-- The variable that lists the sources of a library. -/
def unitVariable (unit : LibraryUnit) : String :=
  "lib" ++ canonicalName unit.name ++ "_a_SOURCES"

/-- The variables that list the sources of the targets, one for each. -/
def targetVariables (project : Project) (layout : Layout) : List String :=
  programVariable project :: layout.units.map unitVariable

theorem listsSources_append {back : String} (h : listsSources back.toList = true)
    (front : String) : listsSources (front ++ back).toList = true := by
  rw [listsSources, List.isSuffixOf_iff_suffix] at h ⊢
  rw [String.toList_append]
  exact h.trans (List.suffix_append _ _)

/-- The variable that names what the program is linked with lists no sources. -/
theorem listsSources_ldadd (name : String) :
    listsSources (canonicalName name ++ "_LDADD").toList = false := by
  rw [← Bool.not_eq_true, listsSources, List.isSuffixOf_iff_suffix, String.toList_append]
  rintro ⟨front, heq⟩
  have hlast := congrArg List.getLast? heq
  rw [List.getLast?_append_of_ne_nil _ (by decide), List.getLast?_append_of_ne_nil _ (by decide)]
    at hlast
  exact absurd hlast (by decide)

section

variable {project : Project} {build : BuildSettings} {defines : List Define} {layout : Layout}

theorem all_isNameChar (front : String) {back : String}
    (hfront : front.toList.all isNameChar = true) (hback : back.toList.all isNameChar = true)
    (name : String) : (front ++ canonicalName name ++ back).toList.all isNameChar = true := by
  simp only [String.toList_append, List.all_append, hfront, hback, all_canonicalName]
  rfl

theorem all_programName {back : String} (hback : back.toList.all isNameChar = true)
    (name : String) : (canonicalName name ++ back).toList.all isNameChar = true := by
  have hall := all_isNameChar "" (by decide) hback name
  rwa [String.empty_append] at hall

theorem assigns_unitStanza (unit : LibraryUnit) :
    Assigns (unitStanza unit) (unitVariable unit :: strays (sourceItems 0 unit.sources)) := by
  have hhead : IsHead ("lib" ++ canonicalName unit.name ++ "_a_SOURCES = ") (unitVariable unit) :=
    isHead_canonicalName unit.name (by decide) (by decide) (by decide)
  have hlist := assigns_sourceList hhead (all_isNameChar "lib" (by decide) (by decide) unit.name)
    (listsSources_append (by decide) _) unit.sources
  have hstanza := hlist.append assigns_lineEnd
  rwa [List.append_nil] at hstanza

/-- The lines of a makefile in front of that with the name of the program. -/
def openingLines (project : Project) (build : BuildSettings) (defines : List Define)
    (layout : Layout) : String :=
  "ARFLAGS = cr\n" ++ "ACLOCAL_AMFLAGS = -I " ++ Layout.macroDir ++ "\n" ++
    "LDFLAGS = -L/usr/local/lib\n" ++ libsLine build.libs ++
    "AM_CFLAGS = " ++ " ".intercalate (compilerFlags project build defines layout)

/-- What a makefile assigns, unless the name of the program takes the next line into its own: the
lists of its targets in order, among them what line breaks inside its parts add. -/
theorem sourceVariables_makefile (hname : isContinued project.name.toList = false) :
    sourceVariables (makefile project build defines layout) =
      sourceVariables (openingLines project build defines layout ++ "\n") ++ strays project.name ++
      (programVariable project :: strays (sourceItems 0 layout.mainSources)) ++
      strays (" ".intercalate (layout.units.map LibraryUnit.archive) ++ "\n") ++
      strays (" ".intercalate (layout.units.map LibraryUnit.archive) ++ "\n") ++
      layout.units.flatMap fun unit =>
        unitVariable unit :: strays (sourceItems 0 unit.sources) := by
  have hprograms : IsHead "bin_PROGRAMS = " "bin_PROGRAMS" := by decide
  have hprogram : IsHead (canonicalName project.name ++ "_SOURCES = ") (programVariable project) :=
    isHead_program project.name (by decide) (by decide)
  have hldadd : IsHead (canonicalName project.name ++ "_LDADD = ")
      (canonicalName project.name ++ "_LDADD") :=
    isHead_program project.name (by decide) (by decide)
  have hoptions : Assigns "AUTOMAKE_OPTIONS = foreign\n" [] := by
    have hhead : IsHead "AUTOMAKE_OPTIONS = " "AUTOMAKE_OPTIONS" := by decide
    have hend : isContinued "foreign".toList = false := by decide
    have hline := assigns_other hhead (by decide) (by decide) hend
    rwa [strays_of_not_mem (by decide),
      show "AUTOMAKE_OPTIONS = " ++ "foreign" ++ "\n" = "AUTOMAKE_OPTIONS = foreign\n" by decide]
      at hline
  have hnames : IsHead "noinst_LIBRARIES = " "noinst_LIBRARIES" := by decide
  have hunits := assigns_join fun unit (_ : unit ∈ layout.units) => assigns_unitStanza unit
  have hall := (assigns_paragraph (openingLines project build defines layout))
    |>.append (assigns_other hprograms (by decide) (by decide) hname)
    |>.append (assigns_sourceList hprogram (all_programName (by decide) project.name)
      (listsSources_append (by decide) _) layout.mainSources)
    |>.append (assigns_other_paragraph hldadd (all_programName (by decide) project.name)
      (listsSources_ldadd project.name) (" ".intercalate (layout.units.map LibraryUnit.archive)))
    |>.append hoptions
    |>.append (assigns_other_paragraph hnames (by decide) (by decide)
      (" ".intercalate (layout.units.map LibraryUnit.archive)))
    |>.append hunits
  rw [List.append_nil] at hall
  refine Assigns.read_eq ?_
  delta makefile
  delta openingLines at hall ⊢
  simpa only [String.append_assoc] using hall

/-- No part of a makefile has a line break, and the name of the program does not take the next line
into its own. -/
structure OneLineParts (project : Project) (build : BuildSettings) (defines : List Define)
    (layout : Layout) : Prop where
  name : '\n' ∉ project.name.toList
  nameEnds : isContinued project.name.toList = false
  libs : ∀ lib ∈ build.libs, '\n' ∉ lib.toList
  includeDirs : ∀ dir ∈ build.includeDirs, '\n' ∉ dir.toList
  defines : ∀ define ∈ defines, '\n' ∉ define.flag.toList
  mainSources : ∀ source ∈ layout.mainSources, '\n' ∉ source.toList
  unitNames : ∀ unit ∈ layout.units, '\n' ∉ unit.name.toList
  unitSources : ∀ unit ∈ layout.units, ∀ source ∈ unit.sources, '\n' ∉ source.toList

namespace OneLineParts

theorem compilerFlags (h : OneLineParts project build defines layout) :
    ∀ flag ∈ compilerFlags project build defines layout, '\n' ∉ flag.toList := by
  intro flag hflag
  simp only [Descriptor.compilerFlags, List.mem_append, List.mem_singleton, List.mem_map] at hflag
  rcases hflag with
    (((rfl | ⟨dir, hdir, rfl⟩) | ⟨unit, hunit, rfl⟩) | ⟨define, hdefine, rfl⟩) | hflag
  · decide
  · simpa using h.includeDirs dir hdir
  · simpa [LibraryUnit.includeFlag] using h.unitNames unit hunit
  · exact h.defines define hdefine
  · split at hflag
    · rw [List.mem_singleton.1 hflag]
      decide
    · cases hflag

/-- The lines in front of that with the name of the program list no sources, even if one of them
takes the next one into its own. -/
theorem sourceVariables_openingLines (h : OneLineParts project build defines layout) :
    sourceVariables (openingLines project build defines layout ++ "\n") = [] := by
  let flags := " ".intercalate (Descriptor.compilerFlags project build defines layout)
  let libs := " ".intercalate (build.libs.map ("-l" ++ ·))
  have hflags : sourceVariables ("AM_CFLAGS" ++ " = " ++ (flags ++ "\n")) = [] := by
    rw [sourceVariables_head (by decide), strays_line_end (not_mem_intercalate h.compilerFlags)]
    decide
  have hlibs : '\n' ∉ libs.toList := by
    refine not_mem_intercalate ?_
    intro flag hflag
    obtain ⟨lib, hlib, rfl⟩ := List.mem_map.1 hflag
    simpa using h.libs lib hlib
  have hlast : sourceVariables (libsLine build.libs ++
      ("AM_CFLAGS" ++ " = " ++ (flags ++ "\n"))) = [] := by
    by_cases hnone : build.libs = []
    · rw [hnone]
      exact hflags
    · have hline : libsLine build.libs = "LIBS" ++ " = " ++ (libs ++ "\n") := by
        have hlib : "LIBS = " = "LIBS" ++ " = " := by decide
        rw [libsLine, if_neg (by simpa using hnone), String.append_assoc, hlib]
      rw [hline, String.append_assoc, sourceVariables_head (by decide), strays_line hlibs, hflags,
        strays_of_sourceVariables hflags, ite_self]
      decide
  have hopening : Assigns ("ARFLAGS = cr\n" ++ "ACLOCAL_AMFLAGS = -I " ++ Layout.macroDir ++ "\n" ++
      "LDFLAGS = -L/usr/local/lib\n") [] := by
    have hend : isContinued
        "ARFLAGS = cr\nACLOCAL_AMFLAGS = -I m4\nLDFLAGS = -L/usr/local/lib".toList = false := by
      decide
    have hlines := assigns_line hend
    convert hlines using 1
    · decide
    · decide +kernel
  have hlines := hopening (libsLine build.libs ++ ("AM_CFLAGS" ++ " = " ++ (flags ++ "\n")))
  rw [hlast, List.append_nil] at hlines
  have hflag : "AM_CFLAGS = " = "AM_CFLAGS" ++ " = " := by decide
  refine (congrArg sourceVariables ?_).trans hlines
  delta openingLines
  simp only [hflag, String.append_assoc, flags]

/-- Without line breaks in its parts, a makefile assigns the lists of its targets and no others. -/
theorem sourceVariables_eq (h : OneLineParts project build defines layout) :
    sourceVariables (makefile project build defines layout) = targetVariables project layout := by
  have harchives :
      strays (" ".intercalate (layout.units.map LibraryUnit.archive) ++ "\n") = [] := by
    refine strays_line_end (not_mem_intercalate ?_)
    intro archive harchive
    obtain ⟨unit, hunit, rfl⟩ := List.mem_map.1 harchive
    simpa [LibraryUnit.archive] using h.unitNames unit hunit
  have hunits : layout.units.flatMap (fun unit =>
      unitVariable unit :: strays (sourceItems 0 unit.sources)) =
      layout.units.map unitVariable := by
    rw [← List.flatMap_singleton' (layout.units.map unitVariable), List.flatMap_map]
    refine List.flatMap_congr fun unit hunit => ?_
    rw [strays_sourceItems (h.unitSources unit hunit)]
  rw [sourceVariables_makefile h.nameEnds, h.sourceVariables_openingLines,
    strays_of_not_mem h.name, strays_sourceItems h.mainSources, harchives, hunits]
  rfl

end OneLineParts

/-- Whatever the other parts are, a makefile assigns the lists of its targets, in order, unless the
name of the program takes the next line into its own. -/
theorem targetVariables_sublist (hname : isContinued project.name.toList = false) :
    (targetVariables project layout).Sublist
      (sourceVariables (makefile project build defines layout)) := by
  have hunits : (layout.units.map unitVariable).Sublist (layout.units.flatMap fun unit =>
      unitVariable unit :: strays (sourceItems 0 unit.sources)) := by
    induction layout.units with
    | nil => exact List.Sublist.slnil
    | cons unit units ih =>
      rw [List.map_cons, List.flatMap_cons, List.cons_append]
      exact (ih.trans (List.sublist_append_right _ _)).cons_cons _
  rw [sourceVariables_makefile hname]
  simp only [List.append_assoc, List.cons_append]
  iterate 2 refine List.Sublist.trans ?_ (List.sublist_append_right _ _)
  refine List.Sublist.cons_cons _ ?_
  iterate 3 refine List.Sublist.trans ?_ (List.sublist_append_right _ _)
  exact hunits

/-- The variables of the targets are distinct exactly if the canonical names of the targets are. -/
theorem targetVariables_nodup_iff :
    (targetVariables project layout).Nodup ↔
      (layout.units.map (canonicalName ·.name)).Nodup ∧
        ∀ unit ∈ layout.units,
          canonicalName project.name ≠ "lib" ++ canonicalName unit.name ++ "_a" := by
  have hprogram : ∀ unit : LibraryUnit, unitVariable unit = programVariable project ↔
      canonicalName project.name = "lib" ++ canonicalName unit.name ++ "_a" := by
    intro unit
    have hsplit : unitVariable unit = "lib" ++ canonicalName unit.name ++ "_a" ++ "_SOURCES" := by
      rw [String.append_assoc, show "_a" ++ "_SOURCES" = "_a_SOURCES" by decide, unitVariable]
    rw [hsplit, programVariable, String.append_left_inj]
    exact eq_comm
  have hunits : (layout.units.map unitVariable).Nodup ↔
      (layout.units.map (canonicalName ·.name)).Nodup := by
    have hmap : layout.units.map unitVariable =
        (layout.units.map (canonicalName ·.name)).map
          fun name => "lib" ++ name ++ "_a_SOURCES" := by
      rw [List.map_map]
      rfl
    rw [hmap, List.nodup_map_iff]
    intro name other heq
    exact (String.append_right_inj _).1 ((String.append_left_inj _).1 heq)
  rw [targetVariables, List.nodup_cons, hunits, and_comm, List.mem_map]
  refine and_congr_right fun _ => ?_
  simp only [not_exists, not_and]
  exact forall_congr' fun unit => forall_congr' fun _ => not_congr (hprogram unit)

/-- A makefile assigns one list of sources to each target, in order, if the name of the program
does not end in a backslash, and no other list unless a part of it has a line break; each list is
assigned once exactly if the canonical names of the targets do not meet.  A canonical name has an
underscore for each character but ASCII letters, digits, underscores and `@`. -/
theorem targetVariables_assigned (project : Project) (build : BuildSettings)
    (defines : List Define) (layout : Layout) :
    (project.name.toList.getLast? ≠ some '\\' → (targetVariables project layout).Sublist
        (sourceVariables (makefile project build defines layout))) ∧
      (OneLineParts project build defines layout →
        sourceVariables (makefile project build defines layout) = targetVariables project layout) ∧
      ((targetVariables project layout).Nodup ↔
        (layout.units.map (canonicalName ·.name)).Nodup ∧ ∀ unit ∈ layout.units,
          canonicalName project.name ≠ "lib" ++ canonicalName unit.name ++ "_a") ∧
      ∀ name, (canonicalName name).toList =
        name.toList.map fun c => if c.isAlphanum ∨ c = '_' ∨ c = '@' then c else '_' :=
  ⟨fun hname => targetVariables_sublist (beq_false_of_ne hname), OneLineParts.sourceVariables_eq,
    targetVariables_nodup_iff, toList_canonicalName⟩

end

def alikeProject : Project := ⟨"demo", "1.0", "Linux", []⟩

/-- Two libraries whose names differ in one character that no variable has in its name. -/
def alikeLayout : Layout :=
  ⟨["src/main.c"], [⟨"a-b", ["src/a-b/x.c"]⟩, ⟨"a_b", ["src/a_b/y.c"]⟩]⟩

theorem alike_oneLineParts : OneLineParts alikeProject {} [] alikeLayout where
  name := by decide
  nameEnds := by decide
  libs := by decide
  includeDirs := by decide
  defines := by decide
  mainSources := by decide
  unitNames := by decide
  unitSources := by decide

/-- Libraries of different names may be given one variable, and a name that ends in a backslash
takes the list of the program into its own line. -/
theorem targetVariables_not_assigned_once :
    (¬ ∀ project build defines layout, (layout.units.map LibraryUnit.name).Nodup →
      (sourceVariables (makefile project build defines layout)).Nodup) ∧
    ¬ ∀ project build defines layout, (layout.units.map LibraryUnit.name).Nodup →
      programVariable project ∈ sourceVariables (makefile project build defines layout) := by
  constructor
  · intro h
    have hdistinct : (alikeLayout.units.map LibraryUnit.name).Nodup := by decide
    have hnodup := h alikeProject {} [] alikeLayout hdistinct
    rw [alike_oneLineParts.sourceVariables_eq] at hnodup
    exact absurd hnodup (by decide)
  · intro h
    refine absurd (h ⟨"demo\\", "1.0", "Linux", []⟩ {} [] ⟨["src/main.c"], []⟩ (by decide)) ?_
    delta makefile
    simp only [sourceVariables, String.toList_append]
    decide +kernel

end Autotree.Descriptor
