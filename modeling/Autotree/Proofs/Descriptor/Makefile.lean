import Autotree.Descriptor.Makefile
import Autotree.Proofs.Descriptor.Reading

/-!
# The assignments of a makefile

Read by the rules of make, the input of automake gives back what it was written
from.  This holds of every project whose names, paths and values have no
character with a meaning of its own to make or to the shell.  The libraries are
named in four places, and all four have them in the order of the layout.
-/

namespace Autotree.Descriptor

/-! ## Texts that are read as they are written -/

/-- A character that neither separates nor quotes, and that make takes as it is. -/
def isPlain (c : Char) : Bool :=
  !Text.isBlank c && c != '"' && c != '\'' && c != '\\' && c != '#' && c != '$'

/-- A text of plain characters. -/
def Plain (text : String) : Prop :=
  text.toList ≠ [] ∧ text.toList.all isPlain = true

/-- A character of a string literal: a plain one, or a blank that ends no line. -/
def isLiteral (c : Char) : Bool :=
  isPlain c || (Text.isBlank c && c != '\n')

/-- The texts of a define are plain, those of a string literal up to blanks. -/
def PlainDefine : Define → Prop
  | .symbol name => Plain name
  | .value name value => Plain name ∧ Plain value
  | .str name value => Plain name ∧ value.toList.all isLiteral = true
  | .literal text => Plain text

instance (text : String) : Decidable (Plain text) :=
  inferInstanceAs (Decidable (_ ∧ _))

instance : (define : Define) → Decidable (PlainDefine define)
  | .symbol name => inferInstanceAs (Decidable (Plain name))
  | .value _ _ => inferInstanceAs (Decidable (_ ∧ _))
  | .str _ _ => inferInstanceAs (Decidable (_ ∧ _))
  | .literal text => inferInstanceAs (Decidable (Plain text))

theorem ne_of_class {p : Char → Bool} {c d : Char} (hc : p c = true) (hd : p d = false) :
    c ≠ d := by
  rintro rfl
  exact absurd hc (by simp [hd])

theorem IsWord.of_all {text : String} (hne : text.toList ≠ [])
    (h : text.toList.all isPlain = true) : IsWord text := by
  have hplain : ∀ c ∈ text.toList, isPlain c = true := List.all_eq_true.1 h
  refine ⟨hne, passes_open fun c hc => ⟨isGap_eq_false_iff.2 ⟨?_, ?_⟩, ?_⟩, fun c hc => ⟨?_, ?_⟩⟩
  all_goals exact ne_of_class (hplain c hc) (by decide)

theorem Plain.isWord {text : String} (h : Plain text) : IsWord text :=
  .of_all h.1 h.2

theorem Plain.append {a b : String} (ha : Plain a) (hb : b.toList.all isPlain = true) :
    Plain (a ++ b) := by
  constructor
  · simp [ha.1]
  · simp [String.toList_append, List.all_append, ha.2, hb]

/-! ## Words of a makefile -/

/-- The quotes of a string literal keep its blanks inside one word. -/
theorem isWord_str {name value : String} (hname : Plain name)
    (hvalue : value.toList.all isLiteral = true) : IsWord (Define.str name value).flag := by
  have hchars : (Define.str name value).flag.toList =
      ("-D" ++ name ++ "=").toList ++ (['\''] ++ (('"' :: value.toList ++ ['"']) ++ ['\''])) := by
    simp [Define.flag]
  have hliteral {c d : Char} (hc : c ∈ value.toList) (hd : isLiteral d = false) : c ≠ d :=
    ne_of_class (List.all_eq_true.1 hvalue c hc) hd
  have hhead : Plain ("-D" ++ name ++ "=") :=
    (Plain.append (a := "-D") (by decide) hname.2).append (by decide)
  have hquoted : '\'' ∉ '"' :: value.toList ++ ['"'] := by
    simpa using fun hmem => hliteral hmem (by decide) rfl
  constructor
  · simp [hchars]
  · rw [hchars]
    exact hhead.isWord.passes.append
      ((passes_quote false).append ((passes_quoted hquoted).append (passes_quote true)))
  · rw [hchars]
    refine hhead.isWord.smooth.append (Smooth.append (by decide) (.append ?_ (by decide)))
    intro c hc
    rcases List.mem_append.1 hc with hc | hc
    · rcases List.mem_cons.1 hc with rfl | hc
      · decide
      · exact ⟨hliteral hc (by decide), hliteral hc (by decide)⟩
    · rw [List.mem_singleton.1 hc]
      decide

theorem isWord_flag {define : Define} (h : PlainDefine define) : IsWord define.flag := by
  cases define with
  | symbol name => exact (Plain.append (a := "-D") (by decide) h.2).isWord
  | value name value =>
    have hname : Plain ("-D" ++ (name ++ "=")) :=
      .append (by decide) (by simp [h.1.2, show isPlain '=' = true by decide])
    have hflag : (Define.value name value).flag = "-D" ++ (name ++ "=") ++ value := by
      simp [Define.flag, Define.token, String.append_assoc]
    exact hflag ▸ (hname.append h.2.2).isWord
  | str name value => exact isWord_str h.1 h.2
  | literal text => exact (Plain.append (a := "-D") (by decide) h.2).isWord

/-- The flags that every build starts from, one by one. -/
def baseWords : List String :=
  ["-I/usr/local/include", "-I./include", "-I./src", "-std=gnu11", "-Wno-unused-result"]

theorem baseFlags_eq : baseFlags = " ".intercalate baseWords := by
  decide

theorem intercalate_cons_intercalate {words : List String} (h : words ≠ []) (rest : List String) :
    " ".intercalate (" ".intercalate words :: rest) = " ".intercalate (words ++ rest) := by
  induction words with
  | nil => exact absurd rfl h
  | cons word words ih =>
    cases words with
    | nil => simp
    | cons next words =>
      rw [List.cons_append, List.cons_append, String.intercalate_cons_cons,
        String.intercalate_cons_cons, ← List.cons_append, ← ih (by simp)]
      cases rest with
      | nil => simp
      | cons last rest => simp [String.intercalate_cons_cons, String.append_assoc]

theorem isValue_sourceItems {files : List String} (h : ∀ file ∈ files, Plain file) (i : Nat) :
    IsValue (sourceItems i files) files := by
  induction files generalizing i with
  | nil => exact isValue_empty
  | cons file files ih =>
    obtain ⟨hfile, hfiles⟩ := List.forall_mem_cons.1 h
    have hitems := IsValue.cons hfile.isWord (ih hfiles (i + 1))
    by_cases hbreak : i % filesPerLine = filesPerLine - 1
    · simpa [sourceItems, hbreak, String.append_assoc] using hitems.continued
    · simpa [sourceItems, hbreak] using hitems

/-! ## Names of variables -/

theorem isName_of_all {name : String} (h : name.toList.all isNameChar = true) : IsName name := by
  intro c hc
  have hchar : isNameChar c = true := List.all_eq_true.1 h c hc
  refine ⟨isGap_eq_false_iff.2 ⟨?_, ?_⟩, ?_, ?_⟩
  all_goals exact ne_of_class hchar (by decide)

theorem toList_canonicalName (name : String) : (canonicalName name).toList =
    name.toList.map fun c => if c.isAlphanum ∨ c = '_' ∨ c = '@' then c else '_' := by
  simp [canonicalName, isNameChar, or_assoc]

@[simp]
theorem all_canonicalName (name : String) : (canonicalName name).toList.all isNameChar = true := by
  rw [List.all_eq_true, canonicalName, String.toList_ofList]
  intro c hc
  obtain ⟨d, -, rfl⟩ := List.mem_map.1 hc
  split
  · assumption
  · decide

/-- A canonical name inside the name of a variable. -/
theorem isHead_canonicalName {front back suffix : String} (name : String)
    (hfront : front.toList.all isNameChar = true) (hback : suffix.toList.all isNameChar = true)
    (hhead : back = suffix ++ " = ") :
    IsHead (front ++ canonicalName name ++ back) (front ++ canonicalName name ++ suffix) := by
  refine ⟨?_, isName_of_all ?_⟩
  · rw [hhead, ← String.append_assoc]
  · simp only [String.toList_append, List.all_append, hfront, hback, all_canonicalName]
    rfl

/-! ## The assignments -/

/-- What a makefile is written from has no character with a meaning of its own. -/
structure PlainParts (project : Project) (build : BuildSettings) (defines : List Define)
    (layout : Layout) : Prop where
  name : Plain project.name
  libs : ∀ lib ∈ build.libs, Plain lib
  includeDirs : ∀ dir ∈ build.includeDirs, Plain dir
  defines : ∀ define ∈ defines, PlainDefine define
  mainSources : ∀ source ∈ layout.mainSources, Plain source
  unitNames : ∀ unit ∈ layout.units, Plain unit.name
  unitSources : ∀ unit ∈ layout.units, ∀ source ∈ unit.sources, Plain source

/-- The compiler flags of a makefile, one word each. -/
def flagWords (project : Project) (build : BuildSettings) (defines : List Define)
    (layout : Layout) : List String :=
  baseWords ++ (build.includeDirs.map ("-I" ++ ·) ++ layout.units.map ("-I./src/" ++ ·.name) ++
    defines.map Define.flag ++
    if Text.lowerAscii project.platform = "linux" then ["-DLINUX"] else [])

/-- The archives of a layout, in order. -/
def archives (layout : Layout) : List String :=
  layout.units.map fun unit => "lib" ++ unit.name ++ ".a"

/-- The sources of a library. -/
def unitAssignment (unit : LibraryUnit) : Assignment :=
  ⟨"lib" ++ canonicalName unit.name ++ "_a_SOURCES", unit.sources⟩

/-- The assignments of a makefile, in order. -/
def assignments (project : Project) (build : BuildSettings) (defines : List Define)
    (layout : Layout) : List Assignment :=
  let program := canonicalName project.name
  [⟨"ARFLAGS", ["cr"]⟩, ⟨"ACLOCAL_AMFLAGS", ["-I", "m4"]⟩, ⟨"LDFLAGS", ["-L/usr/local/lib"]⟩] ++
  (if build.libs = [] then [] else [⟨"LIBS", build.libs.map ("-l" ++ ·)⟩]) ++
  [⟨"AM_CFLAGS", flagWords project build defines layout⟩,
    ⟨"bin_PROGRAMS", [project.name]⟩,
    ⟨program ++ "_SOURCES", layout.mainSources⟩,
    ⟨program ++ "_LDADD", archives layout⟩,
    ⟨"AUTOMAKE_OPTIONS", ["foreign"]⟩,
    ⟨"noinst_LIBRARIES", archives layout⟩] ++
  layout.units.map unitAssignment

section

variable {project : Project} {build : BuildSettings} {defines : List Define} {layout : Layout}

theorem compilerFlags_eq : " ".intercalate (compilerFlags project build defines layout) =
    " ".intercalate (flagWords project build defines layout) := by
  have hlinux : project.isLinux = true ↔ Text.lowerAscii project.platform = "linux" := by
    rw [Project.isLinux, Text.sameAscii, beq_iff_eq,
      show Text.lowerAscii "Linux" = "linux" by decide]
  have hunits : layout.units.map LibraryUnit.includeFlag =
      layout.units.map ("-I./src/" ++ ·.name) := rfl
  rw [flagWords, ← intercalate_cons_intercalate (by simp [baseWords]), ← baseFlags_eq]
  simp [compilerFlags, hlinux, hunits]

theorem PlainParts.isWord_flag (h : PlainParts project build defines layout) :
    ∀ word ∈ flagWords project build defines layout, IsWord word := by
  intro word hword
  simp only [flagWords, List.mem_append, List.mem_map] at hword
  rcases hword with
    hword | ((⟨dir, hdir, rfl⟩ | ⟨unit, hunit, rfl⟩) | ⟨define, hdefine, rfl⟩) | hword
  · have hplain : ∀ word ∈ baseWords, Plain word := by decide
    exact (hplain word hword).isWord
  · exact (Plain.append (a := "-I") (by decide) (h.includeDirs dir hdir).2).isWord
  · exact (Plain.append (a := "-I./src/") (by decide) (h.unitNames unit hunit).2).isWord
  · exact Descriptor.isWord_flag (h.defines define hdefine)
  · split at hword
    · rw [List.mem_singleton.1 hword]
      exact Plain.isWord (by decide)
    · exact absurd hword List.not_mem_nil

theorem PlainParts.isWord_archive (h : PlainParts project build defines layout) :
    ∀ word ∈ archives layout, IsWord word := by
  intro word hword
  obtain ⟨unit, hunit, rfl⟩ := List.mem_map.1 hword
  exact ((Plain.append (a := "lib") (by decide) (h.unitNames unit hunit).2).append
    (by decide)).isWord

theorem reads_libsLine {libs : List String} (h : ∀ lib ∈ libs, Plain lib) :
    Reads (libsLine libs) (if libs = [] then [] else [⟨"LIBS", libs.map ("-l" ++ ·)⟩]) := by
  by_cases hlibs : libs = []
  · simpa [hlibs, libsLine] using reads_empty
  · have hwords : ∀ word ∈ libs.map ("-l" ++ ·), IsWord word := by
      intro word hword
      obtain ⟨lib, hlib, rfl⟩ := List.mem_map.1 hword
      exact (Plain.append (a := "-l") (by decide) (h lib hlib).2).isWord
    have hhead : IsHead "LIBS = " "LIBS" := by decide
    simpa [hlibs, libsLine] using hhead.reads (isValue_intercalate hwords)

theorem IsHead.reads_sourceList {head name : String} (hhead : IsHead head name)
    {files : List String} (h : ∀ file ∈ files, Plain file) :
    Reads (sourceList head files) [⟨name, files⟩] :=
  hhead.reads (isValue_sourceItems h 0)

theorem reads_unitStanza {unit : LibraryUnit} (h : ∀ source ∈ unit.sources, Plain source) :
    Reads (unitStanza unit) [unitAssignment unit] := by
  have hhead : IsHead ("lib" ++ canonicalName unit.name ++ "_a_SOURCES = ")
      ("lib" ++ canonicalName unit.name ++ "_a_SOURCES") :=
    isHead_canonicalName unit.name (by decide) (by decide) (by decide)
  exact (hhead.reads_sourceList h).append reads_lineEnd

/-- A variable of the program itself. -/
theorem isHead_program {back suffix : String} (name : String)
    (hsuffix : suffix.toList.all isNameChar = true) (hback : back = suffix ++ " = ") :
    IsHead (canonicalName name ++ back) (canonicalName name ++ suffix) := by
  have hhead : IsHead ("" ++ canonicalName name ++ back) ("" ++ canonicalName name ++ suffix) :=
    isHead_canonicalName name (by decide) hsuffix hback
  rwa [String.empty_append] at hhead

/-- The lines that are the same in every makefile. -/
theorem reads_opening :
    Reads ("ARFLAGS = cr\n" ++ "ACLOCAL_AMFLAGS = -I " ++ Layout.macroDir ++ "\n" ++
        "LDFLAGS = -L/usr/local/lib\n")
      [⟨"ARFLAGS", ["cr"]⟩, ⟨"ACLOCAL_AMFLAGS", ["-I", "m4"]⟩,
        ⟨"LDFLAGS", ["-L/usr/local/lib"]⟩] := by
  have hinclude : IsValue ("-I" ++ " " ++ "m4") ["-I", "m4"] :=
    .cons (Plain.isWord (by decide)) (Plain.isWord (by decide)).isValue
  have harchiver : Plain "cr" := by decide
  have hlinker : Plain "-L/usr/local/lib" := by decide
  have hlines := reads_empty.line (show IsHead "ARFLAGS = " "ARFLAGS" by decide)
      harchiver.isWord.isValue
    |>.line (show IsHead "ACLOCAL_AMFLAGS = " "ACLOCAL_AMFLAGS" by decide) hinclude
    |>.line (show IsHead "LDFLAGS = " "LDFLAGS" by decide) hlinker.isWord.isValue
  rwa [show "" ++ "ARFLAGS = " ++ "cr" ++ "\n" ++ "ACLOCAL_AMFLAGS = " ++ ("-I" ++ " " ++ "m4") ++
    "\n" ++ "LDFLAGS = " ++ "-L/usr/local/lib" ++ "\n" = "ARFLAGS = cr\n" ++
    "ACLOCAL_AMFLAGS = -I " ++ Layout.macroDir ++ "\n" ++ "LDFLAGS = -L/usr/local/lib\n" by decide]
    at hlines

theorem reads_options :
    Reads "AUTOMAKE_OPTIONS = foreign\n" [⟨"AUTOMAKE_OPTIONS", ["foreign"]⟩] := by
  have hhead : IsHead "AUTOMAKE_OPTIONS = " "AUTOMAKE_OPTIONS" := by decide
  have hforeign : Plain "foreign" := by decide
  have hline := hhead.reads hforeign.isWord.isValue
  convert hline using 1
  decide

theorem reads_makefile (h : PlainParts project build defines layout) :
    Reads (makefile project build defines layout) (assignments project build defines layout) := by
  have harchives : IsValue (" ".intercalate (layout.units.map LibraryUnit.archive))
      (archives layout) :=
    isValue_intercalate h.isWord_archive
  have hflags : IsValue (" ".intercalate (compilerFlags project build defines layout))
      (flagWords project build defines layout) :=
    compilerFlags_eq ▸ isValue_intercalate h.isWord_flag
  have hsources : IsHead (canonicalName project.name ++ "_SOURCES = ")
      (canonicalName project.name ++ "_SOURCES") :=
    isHead_program project.name (by decide) (by decide)
  have hldadd : IsHead (canonicalName project.name ++ "_LDADD = ")
      (canonicalName project.name ++ "_LDADD") :=
    isHead_program project.name (by decide) (by decide)
  have hunits : Reads (String.join (layout.units.map unitStanza))
      (layout.units.map unitAssignment) :=
    reads_join fun unit hunit => reads_unitStanza (h.unitSources unit hunit)
  have hprogram := reads_opening.append (reads_libsLine h.libs)
    |>.paragraph (show IsHead "AM_CFLAGS = " "AM_CFLAGS" by decide) hflags
    |>.line (show IsHead "bin_PROGRAMS = " "bin_PROGRAMS" by decide) h.name.isWord.isValue
    |>.append (hsources.reads_sourceList h.mainSources)
  have hlinked := hprogram.paragraph hldadd harchives
  -- The name of this variable is written in two pieces.
  rw [← String.append_assoc] at hlinked
  have hall := hlinked.append reads_options
    |>.paragraph (show IsHead "noinst_LIBRARIES = " "noinst_LIBRARIES" by decide) harchives
    |>.append hunits
  delta makefile
  simpa only [assignments, List.append_assoc, List.cons_append, List.nil_append] using hall

/-- Read as make reads it, a makefile gives back the parts it was written from: each assignment
once, in a fixed order, with one word for each part. -/
theorem read_makefile (h : PlainParts project build defines layout) :
    read (makefile project build defines layout) =
      some (assignments project build defines layout) :=
  (reads_makefile h).read_eq

end

/-- A project with two libraries on a platform in capitals. -/
def sampleProject : Project := ⟨"my-app", "1.0", "LINUX", []⟩

/-- One library to link and one directory of headers. -/
def sampleBuild : BuildSettings :=
  { libs := ["pthread"], includeDirs := ["/opt/zmq/include"] }

/-- One define of each kind, the string with a blank. -/
def sampleDefines : List Define :=
  [.symbol "DEBUG", .value "LEVEL" "2", .str "NAME" "my app", .literal "MODE=fast"]

/-- A program with more sources than a line takes, and two libraries. -/
def sampleLayout : Layout :=
  ⟨["a.c", "b.c", "c.c", "d.c", "e.c", "f.c", "g.c", "h.c", "i.c"],
    [⟨"foo", ["src/foo/a.c"]⟩, ⟨"bar.v2", ["src/bar.v2/b.c", "src/bar.v2/x/c.c"]⟩]⟩

theorem sample_plainParts : PlainParts sampleProject sampleBuild sampleDefines sampleLayout where
  name := by decide
  libs := by decide
  includeDirs := by decide
  defines := by decide
  mainSources := by decide
  unitNames := by decide
  unitSources := by decide

theorem read_sample_makefile :
    PlainParts sampleProject sampleBuild sampleDefines sampleLayout ∧
      read (makefile sampleProject sampleBuild sampleDefines sampleLayout) = some
        [⟨"ARFLAGS", ["cr"]⟩, ⟨"ACLOCAL_AMFLAGS", ["-I", "m4"]⟩,
          ⟨"LDFLAGS", ["-L/usr/local/lib"]⟩, ⟨"LIBS", ["-lpthread"]⟩,
          ⟨"AM_CFLAGS", ["-I/usr/local/include", "-I./include", "-I./src", "-std=gnu11",
            "-Wno-unused-result", "-I/opt/zmq/include", "-I./src/foo", "-I./src/bar.v2", "-DDEBUG",
            "-DLEVEL=2", "-DNAME='\"my app\"'", "-DMODE=fast", "-DLINUX"]⟩,
          ⟨"bin_PROGRAMS", ["my-app"]⟩,
          ⟨"my_app_SOURCES", ["a.c", "b.c", "c.c", "d.c", "e.c", "f.c", "g.c", "h.c", "i.c"]⟩,
          ⟨"my_app_LDADD", ["libfoo.a", "libbar.v2.a"]⟩, ⟨"AUTOMAKE_OPTIONS", ["foreign"]⟩,
          ⟨"noinst_LIBRARIES", ["libfoo.a", "libbar.v2.a"]⟩,
          ⟨"libfoo_a_SOURCES", ["src/foo/a.c"]⟩,
          ⟨"libbar_v2_a_SOURCES", ["src/bar.v2/b.c", "src/bar.v2/x/c.c"]⟩] :=
  ⟨sample_plainParts, (read_makefile sample_plainParts).trans (by decide +kernel)⟩

/-- The assignments are not all about the parts of the project: one sets automake's own options. -/
theorem options_among_assignments :
    ¬ ∀ project build defines layout, PlainParts project build defines layout →
      read (makefile project build defines layout) =
        some ((assignments project build defines layout).filter (·.name ≠ "AUTOMAKE_OPTIONS")) := by
  intro h
  have hsample := h _ _ _ _ sample_plainParts
  rw [(reads_makefile sample_plainParts).read_eq] at hsample
  revert hsample
  decide +kernel

end Autotree.Descriptor
