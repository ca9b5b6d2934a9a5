import Autotree.Descriptor.Makefile
import Autotree.Proofs.Descriptor.Reading
import Autotree.Proofs.Text.Lines

/-!
# Lists of sources, line by line

A list of sources goes on with a new line before every eighth file, so the first line takes one
file less than the lines after it.  `rowsFrom` takes the files apart into these lines, with the same
index that the list is written with; `splitOn_sourceItems` shows that the lines of the text are
these rows (`physicalLines`), and what is said of the text is read off them (`sourceList_wraps`).

Every line but the last ends in the backslash that continues it.  The last one ends in a blank,
unless there is no file at all: then it is the head, and one that ends in a backslash is continued
(`backslash_head_continues`).
-/

namespace Autotree.Descriptor

variable {head file : String} {files row : List String} {rows : List (List String)}
  {front line : List Char} {lines : List (List Char)} {i n : Nat} {last : Bool}

/-! ## Files in rows -/

/-- Files, the first of which has index `i`, in rows that end before every eighth file. -/
def rowsFrom : Nat → List String → List (List String)
  | _, [] => [[]]
  | i, file :: rest =>
    let rows := (rowsFrom (i + 1) rest).modifyHead (file :: ·)
    if i % filesPerLine = filesPerLine - 1 then [] :: rows else rows

theorem exists_rowsFrom (i : Nat) (files : List String) :
    ∃ row rows, rowsFrom i files = row :: rows := by
  induction files generalizing i with
  | nil => exact ⟨[], [], rfl⟩
  | cons file files ih =>
    obtain ⟨row, rows, hrows⟩ := ih (i + 1)
    rw [rowsFrom, hrows]
    split
    · exact ⟨[], _, rfl⟩
    · exact ⟨_, _, rfl⟩

theorem flatten_rowsFrom (i : Nat) (files : List String) : (rowsFrom i files).flatten = files := by
  induction files generalizing i with
  | nil => rfl
  | cons file files ih =>
    obtain ⟨row, rows, hrows⟩ := exists_rowsFrom (i + 1) files
    have hflatten := ih (i + 1)
    rw [hrows, List.flatten_cons] at hflatten
    rw [rowsFrom, hrows, ← hflatten]
    split <;> rfl

/-- How many files are in each row of `n` files, the first of which has an index that is `j` more
than a multiple of eight. -/
def rowLengths (j n : Nat) : List Nat :=
  if n + j < 8 then [n] else (7 - j) :: (List.replicate ((n + j) / 8 - 1) 8 ++ [(n + j) % 8 + 1])

/-- One more file before a break makes the row that it is in longer. -/
theorem rowLengths_succ {j : Nat} (h : j < 7) (n : Nat) :
    rowLengths j (n + 1) = (rowLengths (j + 1) n).modifyHead (· + 1) := by
  have hsum : n + 1 + j = n + (j + 1) := by omega
  unfold rowLengths
  rw [hsum]
  split
  · rfl
  · rw [List.modifyHead_cons, show 7 - (j + 1) + 1 = 7 - j by omega]

/-- A file behind a break begins a row of its own. -/
theorem rowLengths_seven (n : Nat) :
    rowLengths 7 (n + 1) = 0 :: (rowLengths 0 n).modifyHead (· + 1) := by
  have hdiv : (n + 1 + 7) / 8 - 1 = n / 8 := by omega
  have hmod : (n + 1 + 7) % 8 = n % 8 := by omega
  rw [rowLengths, if_neg (by omega), hdiv, hmod]
  by_cases hlt : n < 8
  · rw [Nat.div_eq_of_lt hlt, Nat.mod_eq_of_lt hlt, rowLengths, if_pos (by omega)]
    rfl
  · obtain ⟨q, hq⟩ : ∃ q, n / 8 = q + 1 := Nat.exists_eq_succ_of_ne_zero (by omega)
    rw [rowLengths, if_neg (by omega)]
    simp only [Nat.add_zero, hq]
    rfl

theorem map_length_rowsFrom (i : Nat) (files : List String) :
    (rowsFrom i files).map List.length = rowLengths (i % 8) files.length := by
  induction files generalizing i with
  | nil =>
    rw [rowsFrom, rowLengths, List.length_nil, if_pos (by omega)]
    rfl
  | cons file files ih =>
    obtain ⟨row, rows, hrows⟩ := exists_rowsFrom (i + 1) files
    have hlengths := ih (i + 1)
    rw [hrows] at hlengths
    rw [rowsFrom, hrows, List.length_cons]
    split
    · next hbreak =>
      have hbreak : i % 8 = 7 := hbreak
      rw [show (i + 1) % 8 = 0 by omega] at hlengths
      rw [hbreak, rowLengths_seven, ← hlengths]
      rfl
    · next hbreak =>
      have hbreak : i % 8 < 7 := by
        have hne : i % 8 ≠ 7 := hbreak
        omega
      rw [rowLengths_succ hbreak, ← show (i + 1) % 8 = i % 8 + 1 by omega, ← hlengths]
      rfl

/-! ## Lines of a list -/

/-- Files as they are written, each with a blank behind it. -/
def written (files : List String) : List Char :=
  files.flatMap fun file => file.toList ++ [' ']

/-- The lines of a list of sources whose first line begins with `front`: all but the last are
continued, and what is continued begins with a tab. -/
def physicalLines : List Char → List (List String) → List (List Char)
  | _, [] => []
  | front, [row] => [front ++ written row]
  | front, row :: next :: rows =>
    (front ++ written row ++ ['\\']) :: physicalLines ['\t'] (next :: rows)

theorem written_cons (file : String) (files : List String) :
    written (file :: files) = file.toList ++ ' ' :: written files := by
  simp [written]

/-- A file is put before those of the first row by writing it in front of them. -/
theorem physicalLines_modifyHead (front : List Char) (file : String) (rows : List (List String)) :
    physicalLines front (rows.modifyHead (file :: ·)) =
      physicalLines (front ++ file.toList ++ [' ']) rows := by
  match rows with
  | [] => rfl
  | [row] => simp [physicalLines, written_cons]
  | row :: next :: rows => simp [physicalLines, written_cons]

/-- The lines of a list of sources are its rows. -/
theorem splitOn_sourceItems (hfront : '\n' ∉ front)
    (hfiles : ∀ file ∈ files, '\n' ∉ file.toList) (i : Nat) :
    (front ++ ((sourceItems i files).toList ++ ['\n'])).splitOn '\n' =
      physicalLines front (rowsFrom i files) ++ [[]] := by
  induction files generalizing i front with
  | nil =>
    rw [sourceItems, String.toList_empty, List.nil_append,
      List.splitOn_append_cons_self_of_not_mem hfront]
    simp [rowsFrom, physicalLines, written]
  | cons file files ih =>
    obtain ⟨hfile, hfiles⟩ := List.forall_mem_cons.1 hfiles
    rw [rowsFrom, sourceItems]
    split
    · -- the break ends a line, and a tab begins the next one
      have hnext : '\n' ∉ ['\t'] ++ file.toList ++ [' '] := by simp [hfile]
      obtain ⟨row, rows, hrows⟩ := exists_rowsFrom (i + 1) files
      have hlist : front ++ (("\\\n\t" ++ file ++ " " ++ sourceItems (i + 1) files).toList ++
          ['\n']) = (front ++ ['\\']) ++ '\n' :: (['\t'] ++ file.toList ++ [' '] ++
            ((sourceItems (i + 1) files).toList ++ ['\n'])) := by
        simp [show "\\\n\t".toList = ['\\', '\n', '\t'] by decide]
      rw [hlist, List.splitOn_append_cons_self_of_not_mem (by simp [hfront]),
        ih hnext hfiles, ← physicalLines_modifyHead, hrows]
      simp [physicalLines, written]
    · have hnext : '\n' ∉ front ++ file.toList ++ [' '] := by simp [hfront, hfile]
      have hlist : front ++ (("" ++ file ++ " " ++ sourceItems (i + 1) files).toList ++ ['\n']) =
          front ++ file.toList ++ [' '] ++ ((sourceItems (i + 1) files).toList ++ ['\n']) := by
        simp
      rw [hlist, ih hnext hfiles, physicalLines_modifyHead]

/-! ## Continued lines -/

/-- Whether a line is continued by the next one. -/
def isContinued (line : List Char) : Bool :=
  line.getLast? == some '\\'

theorem isContinued_append_written (front : List Char) (row : List String) :
    isContinued (front ++ written row) = (row.isEmpty && isContinued front) := by
  rcases List.eq_nil_or_concat row with rfl | ⟨files, file, rfl⟩
  · simp [written]
  · simp [isContinued, written, List.getLast?_append]

/-- Every line but the last is continued; the last one only if it is nothing but a front that is. -/
theorem map_isContinued (front : List Char) (row : List String) (rows : List (List String)) :
    (physicalLines front (row :: rows)).map isContinued =
      List.replicate rows.length true ++ [rows.isEmpty && row.isEmpty && isContinued front] := by
  induction rows generalizing front row with
  | nil => simp [physicalLines, isContinued_append_written]
  | cons next rows ih =>
    have htab : isContinued ['\t'] = false := by decide
    rw [physicalLines, List.map_cons, ih, htab, Bool.and_false, List.length_cons,
      List.replicate_succ, List.isEmpty_cons, Bool.false_and, Bool.false_and]
    simp [isContinued]

/-- Lines, each put together with those that continue it. -/
def joined : List (List Char) → List (List Char)
  | [] => []
  | [line] => [line]
  | line :: next :: rest =>
    if isContinued line then (joined (next :: rest)).modifyHead (line.dropLast ++ ' ' :: ·)
    else line :: joined (next :: rest)

/-- A character in front of a line that it does not continue by itself. -/
theorem joined_cons {c : Char} {rest : List (List Char)}
    (h : line = [] → rest ≠ [] → c ≠ '\\') :
    joined ((c :: line) :: rest) = (joined (line :: rest)).modifyHead (c :: ·) := by
  cases rest with
  | nil => rfl
  | cons next rest =>
    rw [joined, joined]
    cases line with
    | nil =>
      have hc : c ≠ '\\' := h rfl (List.cons_ne_nil _ _)
      simp [isContinued, hc]
    | cons d line =>
      have hsame : isContinued (c :: d :: line) = isContinued (d :: line) := by
        simp [isContinued, List.getLast?_cons]
      rw [hsame]
      split
      · rw [List.modifyHead_modifyHead]
        rfl
      · rfl

/-- The logical lines of a text are its lines with their continuations. -/
theorem logicalLines_eq (cs : List Char) : logicalLines cs = joined (cs.splitOn '\n') := by
  fun_induction logicalLines cs with
  | case1 => rfl
  | case2 rest ih =>
    obtain ⟨first, others, hsplit⟩ := List.exists_cons_of_ne_nil (List.splitOn_ne_nil '\n' rest)
    rw [ih, hsplit, List.splitOn_cons_eq_if_modifyHead, List.splitOn_cons_eq_if_modifyHead, hsplit]
    rfl
  | case3 rest ih =>
    obtain ⟨first, others, hsplit⟩ := List.exists_cons_of_ne_nil (List.splitOn_ne_nil '\n' rest)
    rw [ih, hsplit, List.splitOn_cons_eq_if_modifyHead, hsplit]
    rfl
  | case4 c rest hslash hline ih =>
    have hc : (c == '\n') = false := beq_false_of_ne hline
    obtain ⟨first, others, hsplit⟩ := List.exists_cons_of_ne_nil (List.splitOn_ne_nil '\n' rest)
    rw [ih, List.splitOn_cons_eq_if_modifyHead, hc, if_neg Bool.false_ne_true, hsplit,
      List.modifyHead_cons, joined_cons]
    -- a text whose first line is empty, and not its last, begins with a line break
    rintro rfl hothers rfl
    obtain ⟨next, others, rfl⟩ := List.exists_cons_of_ne_nil hothers
    have hrest : rest = '\n' :: List.intercalate ['\n'] (next :: others) := by
      have hjoined : List.intercalate ['\n'] (rest.splitOn '\n') = rest :=
        List.intercalate_splitOn '\n'
      rw [← hjoined, hsplit]
      simp [List.intercalate]
    exact hslash _ rfl hrest

/-- Lines that are continued but for the last one are one logical line; that line is finished if
the last one is not continued either. -/
theorem exists_joined (h : lines.map isContinued = List.replicate n true ++ [last]) :
    ∃ line, joined (lines ++ [[]]) = line :: if last then [] else [[]] := by
  induction n generalizing lines with
  | zero =>
    obtain ⟨line, rfl, hlast⟩ := List.map_eq_singleton_iff.1 h
    rw [List.singleton_append, joined, hlast]
    cases last
    · exact ⟨line, rfl⟩
    · exact ⟨_, rfl⟩
  | succ n ih =>
    rw [List.replicate_succ, List.cons_append] at h
    obtain ⟨line, rest, rfl, hline, hrest⟩ := List.map_eq_cons_iff.1 h
    obtain ⟨more, hmore⟩ := ih hrest
    obtain ⟨next, others, hnext⟩ := List.exists_cons_of_ne_nil (l := rest ++ [[]]) (by simp)
    rw [hnext] at hmore
    rw [List.cons_append, hnext, joined, if_pos hline, hmore]
    exact ⟨_, rfl⟩

/-! ## Reading a list back -/

/-- A text without the breaks that continue a line: backslash, line break and tab. -/
def deleteBreaks : List Char → List Char
  | [] => []
  | '\\' :: '\n' :: '\t' :: rest => deleteBreaks rest
  | c :: rest => c :: deleteBreaks rest

theorem deleteBreaks_append {back : List Char} (hfront : '\n' ∉ front)
    (hback : ∀ rest, back ≠ '\n' :: '\t' :: rest) :
    deleteBreaks (front ++ back) = front ++ deleteBreaks back := by
  induction front with
  | nil => rfl
  | cons c front ih =>
    have hfront : '\n' ∉ front := (List.ne_and_not_mem_of_not_mem_cons hfront).2
    rw [List.cons_append, deleteBreaks, ih hfront, List.cons_append]
    intro rest _ heq
    cases front with
    | nil => exact hback rest heq
    | cons d front =>
      obtain ⟨rfl, -⟩ := List.cons.inj heq
      exact hfront List.mem_cons_self

theorem sourceItems_ne_break (hfiles : ∀ file ∈ files, '\n' ∉ file.toList) (i : Nat)
    (rest : List Char) : (sourceItems i files).toList ++ ['\n'] ≠ '\n' :: '\t' :: rest := by
  cases files with
  | nil => simp [sourceItems]
  | cons file files =>
    have hfile := hfiles file List.mem_cons_self
    rw [sourceItems]
    intro heq
    split at heq
    · simp [show "\\\n\t".toList = ['\\', '\n', '\t'] by decide] at heq
    · cases hcs : file.toList with
      | nil => simp [hcs] at heq
      | cons c cs =>
        simp only [String.toList_append, String.toList_empty, hcs, List.nil_append,
          List.cons_append, List.cons.injEq] at heq
        exact hfile (by rw [hcs, heq.1]; exact List.mem_cons_self)

theorem deleteBreaks_sourceItems (hfiles : ∀ file ∈ files, '\n' ∉ file.toList) (i : Nat) :
    deleteBreaks ((sourceItems i files).toList ++ ['\n']) = written files ++ ['\n'] := by
  induction files generalizing i with
  | nil => rfl
  | cons file files ih =>
    obtain ⟨hfile, hfiles⟩ := List.forall_mem_cons.1 hfiles
    have hitem : deleteBreaks ((file.toList ++ [' ']) ++
        ((sourceItems (i + 1) files).toList ++ ['\n'])) = written (file :: files) ++ ['\n'] := by
      rw [deleteBreaks_append (by simp [hfile]) (sourceItems_ne_break hfiles _), ih hfiles,
        written_cons]
      simp
    rw [sourceItems, ← hitem]
    split
    · simp [show "\\\n\t".toList = ['\\', '\n', '\t'] by decide, deleteBreaks]
    · simp

/-- A file name that make and a splitter at blanks take as it is. -/
def IsBare (file : String) : Prop :=
  file ≠ "" ∧ ∀ c ∈ file.toList, Text.isBlank c = false ∧ c ≠ '\\'

instance (file : String) : Decidable (IsBare file) :=
  @instDecidableAnd _ _ _ (List.decidableBAll _ _)

theorem IsBare.not_mem (h : IsBare file) : '\n' ∉ file.toList := by
  intro hmem
  exact absurd (h.2 _ hmem).1 (by decide)

/-- Files that are written with blanks behind them are the words of what is written. -/
theorem words_written (h : ∀ file ∈ files, IsBare file) :
    Text.words (String.ofList (written files ++ ['\n'])) = files := by
  rw [Text.words, String.toList_ofList]
  induction files with
  | nil => decide
  | cons file files ih =>
    obtain ⟨⟨hne, hchars⟩, hfiles⟩ := List.forall_mem_cons.1 h
    have hnil : file.toList.isEmpty = false := by simpa using hne
    have hword : ∀ c ∈ file.toList, Text.isBlank c = false := fun c hc => (hchars c hc).1
    rw [written_cons, List.append_assoc, List.cons_append,
      List.splitOnP_append_cons_of_forall_mem hword ' ' (by decide), List.filter_cons, hnil]
    simp [ih hfiles]

/-! ## The whole list -/

/-- What a list of sources looks like: its lines, and what is read from them. -/
structure Wraps (head : String) (files : List String) (text : String) : Prop where
  /-- The files stand on the lines in order: up to seven on the first line, eight on each that is
  neither the first nor the last, and the others on the last. -/
  rows : ∃ rows : List (List String), rows.flatten = files ∧
    rows.map List.length =
      (if files.length < 8 then [files.length]
        else 7 :: (List.replicate (files.length / 8 - 1) 8 ++ [files.length % 8 + 1])) ∧
    Text.pieces text = physicalLines head.toList rows ++ [[]]
  /-- One line in eight files is continued; the last line is not, unless it is a head that is. -/
  continued : (Text.pieces text).dropLast.map isContinued =
    List.replicate (files.length / 8) true ++ [files.isEmpty && isContinued head.toList]
  /-- Make takes the text for one finished line, with the same exception. -/
  oneLine : (∃ line, logicalLines text.toList = [line, []]) ↔
    files ≠ [] ∨ isContinued head.toList = false
  /-- Without the breaks, the head is followed by the files, which are read back. -/
  read : ∃ rest, deleteBreaks text.toList = head.toList ++ rest ∧ rest = written files ++ ['\n'] ∧
    Text.words (String.ofList rest) = files

/-- The lines of a list of sources that starts with the first file are continued as they should. -/
theorem map_isContinued_rows (front : List Char) (files : List String) :
    (physicalLines front (rowsFrom 0 files)).map isContinued =
      List.replicate (files.length / 8) true ++ [files.isEmpty && isContinued front] := by
  obtain ⟨row, rows, hrows⟩ := exists_rowsFrom 0 files
  have hflatten := flatten_rowsFrom 0 files
  have hlength : rows.length = files.length / 8 := by
    have hlengths := congrArg List.length (map_length_rowsFrom 0 files)
    rw [hrows, List.length_map, List.length_cons, rowLengths] at hlengths
    split at hlengths
    · next hlt =>
      rw [Nat.zero_mod, Nat.add_zero] at hlt
      rw [Nat.div_eq_of_lt hlt]
      exact Nat.succ.inj hlengths
    · simp at hlengths
      omega
  have hempty : (rows.isEmpty && row.isEmpty) = files.isEmpty := by
    rw [hrows] at hflatten
    cases rows with
    | nil => simp [← hflatten]
    | cons next rows =>
      have hne : files ≠ [] := by
        rintro rfl
        simp at hlength
      simpa using hne
  rw [hrows, map_isContinued, hlength, hempty]

/-- A list of sources is one line to make, broken before every eighth file, and its files can be
read back; only a head that ends in a backslash continues the line when no file comes after it. -/
theorem sourceList_wraps (hhead : '\n' ∉ head.toList) (hfiles : ∀ file ∈ files, IsBare file) :
    Wraps head files (sourceList head files) := by
  have hbreaks : ∀ file ∈ files, '\n' ∉ file.toList := fun file hfile => (hfiles file hfile).not_mem
  have hlist : (sourceList head files).toList =
      head.toList ++ ((sourceItems 0 files).toList ++ ['\n']) := by
    simp [sourceList]
  have hpieces : Text.pieces (sourceList head files) =
      physicalLines head.toList (rowsFrom 0 files) ++ [[]] := by
    rw [Text.pieces, hlist, splitOn_sourceItems hhead hbreaks]
  have hcontinued := map_isContinued_rows head.toList files
  refine ⟨⟨rowsFrom 0 files, flatten_rowsFrom 0 files, map_length_rowsFrom 0 files, hpieces⟩,
    ?_, ?_, ?_⟩
  · rw [hpieces, List.dropLast_concat, hcontinued]
  · obtain ⟨line, hline⟩ := exists_joined hcontinued
    have hlogical : logicalLines (sourceList head files).toList =
        line :: if files.isEmpty && isContinued head.toList then [] else [[]] := by
      rw [logicalLines_eq, ← hline, ← hpieces, Text.pieces]
    rw [hlogical]
    cases hlast : files.isEmpty && isContinued head.toList
    · simpa [← Bool.not_eq_true, imp_iff_not_or] using hlast
    · simpa using hlast
  · refine ⟨_, ?_, rfl, words_written hfiles⟩
    rw [hlist, deleteBreaks_append hhead (sourceItems_ne_break hbreaks 0),
      deleteBreaks_sourceItems hbreaks]

/-- Nine files: seven on the first line and two on the second. -/
def nineFiles : List String :=
  ["a.c", "b.c", "c.c", "d.c", "e.c", "f.c", "g.c", "h.c", "i.c"]

theorem sourceList_wraps_nineFiles :
    ('\n' ∉ "x_SOURCES = ".toList ∧ ∀ file ∈ nineFiles, IsBare file) ∧
      Wraps "x_SOURCES = " nineFiles (sourceList "x_SOURCES = " nineFiles) := by
  have hfiles : ∀ file ∈ nineFiles, IsBare file := by decide
  exact ⟨⟨by decide, hfiles⟩, sourceList_wraps (by decide) hfiles⟩

example : sourceList "x_SOURCES = " nineFiles =
    "x_SOURCES = a.c b.c c.c d.c e.c f.c g.c \\\n\th.c i.c \n" := by decide

/-- A head that ends in a backslash is continued when no file comes after it. -/
theorem backslash_head_continues :
    ¬ ∀ (head : String) (files : List String), '\n' ∉ head.toList →
      (∀ file ∈ files, IsBare file) →
        ((Text.pieces (sourceList head files)).dropLast.countP isContinued = files.length / 8 ∧
          ((Text.pieces (sourceList head files)).dropLast.getLast?.map isContinued = some false) ∧
          ∃ line, logicalLines (sourceList head files).toList = [line, []]) := by
  intro h
  obtain ⟨hcount, -, -⟩ := h "x\\" [] (by decide) nofun
  exact absurd hcount (by decide)

end Autotree.Descriptor
