/-!
# The nodes of a file tree

A node is a regular file, a symbolic link or a directory, and a directory lists
its entries in the order in which a listing gives them.  `get?` and `update`
reach the node at a place, a list of names from the top.  `Valid` says that no
directory has two entries of one name and that every name is one; `update` keeps
it when what it puts in place is valid.
-/

namespace Autotree

/-- A place in a file tree: the names on the way to it. -/
abbrev Place := List String

/-- A node of a file tree. -/
inductive Node where
  | file (content : ByteArray) (executable : Bool)
  | link (target : String)
  | dir (entries : List (String × Node))
deriving Inhabited

/-- A name that an entry of a directory may have. -/
def isEntryName (name : String) : Bool :=
  name != "" && name != "." && name != ".." && !name.toList.contains '/'

/-- Entries with the one of a given name changed, added or removed; an entry is
added only under a name that an entry may have. -/
def updateEntry (name : String) (f : Option Node → Option Node) :
    List (String × Node) → List (String × Node)
  | [] =>
    match f none with
    | some new => if isEntryName name then [(name, new)] else []
    | none => []
  | (other, node) :: rest =>
    if other = name then
      match f (some node) with
      | some new => (other, new) :: rest
      | none => rest
    else (other, node) :: updateEntry name f rest

namespace Node

/-- A tree whose directories have distinct, proper names. -/
inductive Valid : Node → Prop where
  | file (content : ByteArray) (executable : Bool) : Valid (.file content executable)
  | link (target : String) : Valid (.link target)
  | dir {entries : List (String × Node)} (nodup : (entries.map (·.1)).Nodup)
      (names : ∀ e ∈ entries, isEntryName e.1 = true) (below : ∀ e ∈ entries, Valid e.2) :
      Valid (.dir entries)

/-- The node at a place. -/
def get? : Place → Node → Option Node
  | [], node => some node
  | name :: place, .dir entries => (entries.lookup name).bind (get? place)
  | _ :: _, _ => none

/-- The tree with the node at a place changed, added or removed; nothing happens
unless the place lies in a directory of the tree. -/
def update (f : Option Node → Option Node) : Place → Node → Node
  | [], node => (f (some node)).getD node
  | name :: place, .dir entries =>
    .dir (updateEntry name
      (fun old =>
        match place with
        | [] => f old
        | _ :: _ => old.map (update f place))
      entries)
  | _ :: _, node => node

/-- The number of levels of a tree. -/
def height : Node → Nat
  | .file _ _ => 0
  | .link _ => 0
  | .dir entries => heights entries + 1
where
  /-- The greatest number of levels among the entries of a directory. -/
  heights : List (String × Node) → Nat
    | [] => 0
    | (_, node) :: rest => max node.height (heights rest)

/-- The places below a node, with what is there, in listing order. -/
def descendants : Node → List (Place × Node)
  | .file _ _ => []
  | .link _ => []
  | .dir entries => ofEntries entries
where
  /-- The places below the entries of a directory. -/
  ofEntries : List (String × Node) → List (Place × Node)
    | [] => []
    | (name, node) :: rest =>
      ([name], node) :: node.descendants.map (fun (place, n) => (name :: place, n)) ++
        ofEntries rest

/-- Whether a node is a directory. -/
def isDir : Node → Bool
  | .dir _ => true
  | _ => false

/-- Whether a node is a regular file. -/
def isFile : Node → Bool
  | .file _ _ => true
  | _ => false

end Node

theorem mem_updateEntry {name : String} {f : Option Node → Option Node}
    {entries : List (String × Node)} {e : String × Node} (h : e ∈ updateEntry name f entries) :
    e ∈ entries ∨ (e.1 = name ∧ ∃ old, f old = some e.2 ∧
      (old = none → isEntryName name = true) ∧ ∀ n, old = some n → (name, n) ∈ entries) := by
  induction entries with
  | nil =>
    simp only [updateEntry] at h
    split at h
    · next new hnew =>
      split at h
      · next hname =>
        simp only [List.mem_singleton] at h
        subst h
        exact .inr ⟨rfl, none, hnew, fun _ => hname, by simp⟩
      · simp at h
    · simp at h
  | cons head rest ih =>
    obtain ⟨other, node⟩ := head
    simp only [updateEntry] at h
    split at h
    · next heq =>
      subst heq
      split at h
      · next new hnew =>
        rcases List.mem_cons.1 h with rfl | h
        · exact .inr ⟨rfl, some node, hnew, by simp, by simp⟩
        · exact .inl (List.mem_cons_of_mem _ h)
      · exact .inl (List.mem_cons_of_mem _ h)
    · rcases List.mem_cons.1 h with rfl | h
      · exact .inl (List.mem_cons_self ..)
      · rcases ih h with h | ⟨h1, old, h2, h3, h4⟩
        · exact .inl (List.mem_cons_of_mem _ h)
        · exact .inr ⟨h1, old, h2, h3, fun n hn => List.mem_cons_of_mem _ (h4 n hn)⟩

theorem mem_map_fst_updateEntry {name other : String} {f : Option Node → Option Node}
    {entries : List (String × Node)} (h : other ∈ (updateEntry name f entries).map (·.1)) :
    other ∈ entries.map (·.1) ∨ other = name := by
  obtain ⟨e, he, rfl⟩ := List.mem_map.1 h
  rcases mem_updateEntry he with he | ⟨he, _⟩
  · exact .inl (List.mem_map.2 ⟨e, he, rfl⟩)
  · exact .inr he

theorem nodup_updateEntry {name : String} {f : Option Node → Option Node}
    {entries : List (String × Node)} (h : (entries.map (·.1)).Nodup) :
    ((updateEntry name f entries).map (·.1)).Nodup := by
  induction entries with
  | nil =>
    simp only [updateEntry]
    split
    · split <;> simp
    · simp
  | cons head rest ih =>
    obtain ⟨other, node⟩ := head
    simp only [List.map_cons, List.nodup_cons] at h
    simp only [updateEntry]
    split
    · split
      · simpa only [List.map_cons, List.nodup_cons] using h
      · exact h.2
    · next hne =>
      simp only [List.map_cons, List.nodup_cons]
      refine ⟨fun hmem => ?_, ih h.2⟩
      rcases mem_map_fst_updateEntry hmem with hmem | rfl
      · exact h.1 hmem
      · exact hne rfl

theorem valid_updateEntry {name : String} {f : Option Node → Option Node}
    {entries : List (String × Node)} (h : (Node.dir entries).Valid)
    (hf : ∀ old new, (∀ n, old = some n → n.Valid) → f old = some new → new.Valid) :
    (Node.dir (updateEntry name f entries)).Valid := by
  cases h with
  | dir nodup names below =>
    refine .dir (nodup_updateEntry nodup) (fun e he => ?_) (fun e he => ?_)
    · rcases mem_updateEntry he with he | ⟨rfl, old, _, hnone, hsome⟩
      · exact names e he
      · cases old with
        | none => exact hnone rfl
        | some n => exact names (e.1, n) (hsome n rfl)
    · rcases mem_updateEntry he with he | ⟨rfl, old, hnew, _, hsome⟩
      · exact below e he
      · exact hf old e.2 (fun n hn => below (e.1, n) (hsome n hn)) hnew

theorem Node.Valid.update {f : Option Node → Option Node}
    (hf : ∀ old new, (∀ n, old = some n → n.Valid) → f old = some new → new.Valid)
    {node : Node} (h : node.Valid) (place : Place) : (node.update f place).Valid := by
  induction place generalizing node with
  | nil =>
    simp only [Node.update]
    cases hnew : f (some node) with
    | none => exact h
    | some new => exact hf (some node) new (fun n hn => by cases hn; exact h) hnew
  | cons name place ih =>
    cases node with
    | file content executable => exact h
    | link target => exact h
    | dir entries =>
      refine valid_updateEntry h fun old new hold hnew => ?_
      cases place with
      | nil => exact hf old new hold hnew
      | cons next place =>
        cases old with
        | none => simp at hnew
        | some n =>
          simp only [Option.map_some, Option.some.injEq] at hnew
          exact hnew ▸ ih (hold n rfl)

end Autotree
