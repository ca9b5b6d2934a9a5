import Autotree.Store.Basic

/-!
# What stands at a place

`Store.at?` tells what stands at a place: a file with its content, a link with its target, or a
directory, whatever is in it.  A store is this function together with the order of its listings.
Each of the three changes of a store moves the function at one place only (`at?_putFile`,
`at?_putDir`, `at?_erase`), and leaves the tree at every place that is not comparable with that
one exactly as it was, order included (`get?_put_of_apart`, `get?_erase_of_apart`).
-/

namespace Autotree

/-! ## The entries of a directory -/

section Entries

variable {name other : String} {f : Option Node → Option Node} {entries : List (String × Node)}

theorem lookup_updateEntry_of_ne (h : other ≠ name) :
    (updateEntry name f entries).lookup other = entries.lookup other := by
  induction entries with
  | nil =>
    simp only [updateEntry]
    split
    · split
      · simp [List.lookup_cons, beq_false_of_ne h]
      · rfl
    · rfl
  | cons head rest ih =>
    obtain ⟨key, node⟩ := head
    simp only [updateEntry]
    split
    · next heq =>
      subst heq
      split <;> simp [List.lookup_cons, beq_false_of_ne h]
    · simp only [List.lookup_cons, ih]

theorem lookup_updateEntry_self (h : (entries.map (·.1)).Nodup) :
    (updateEntry name f entries).lookup name =
      match entries.lookup name with
      | some node => f (some node)
      | none => if isEntryName name then f none else none := by
  induction entries with
  | nil =>
    simp only [updateEntry, List.lookup_nil]
    split
    · next new hnew => split <;> simp [hnew]
    · next hnew => simp [hnew]
  | cons head rest ih =>
    obtain ⟨key, node⟩ := head
    rw [List.map_cons, List.nodup_cons] at h
    simp only [updateEntry]
    split
    · next heq =>
      subst heq
      simp only [List.lookup_cons, beq_self_eq_true]
      split
      · next new hnew => simp [hnew]
      · next hnew =>
      rw [hnew, List.lookup_eq_none_iff]
      intro entry hentry
      exact bne_iff_ne.2 fun heq => h.1 (List.mem_map.2 ⟨entry, hentry, heq.symm⟩)
    · next hne =>
      have hkey : (name == key) = false := beq_false_of_ne fun h => hne h.symm
      simp only [List.lookup_cons, hkey, ih h.2]

theorem mem_of_lookup {node : Node} (h : entries.lookup name = some node) :
    (name, node) ∈ entries := by
  obtain ⟨before, after, rfl, -⟩ := List.lookup_eq_some_iff.1 h
  exact List.mem_append_right _ List.mem_cons_self

theorem lookup_of_mem {node : Node} (hnodup : (entries.map (·.1)).Nodup)
    (h : (name, node) ∈ entries) : entries.lookup name = some node := by
  induction entries with
  | nil => cases h
  | cons head rest ih =>
    obtain ⟨key, other⟩ := head
    rw [List.map_cons, List.nodup_cons] at hnodup
    rcases List.mem_cons.1 h with heq | h
    · cases heq
      exact List.lookup_cons_self
    · have hne : name ≠ key := fun heq =>
        hnodup.1 (heq ▸ List.mem_map.2 ⟨(name, node), h, rfl⟩)
      simp only [List.lookup_cons, beq_false_of_ne hne]
      exact ih hnodup.2 h

/-- Nothing changes where an update keeps what it finds. -/
theorem updateEntry_eq_self (h : f (entries.lookup name) = entries.lookup name) :
    updateEntry name f entries = entries := by
  induction entries with
  | nil =>
    have hnone : f none = none := h
    simp only [updateEntry, hnone]
  | cons head rest ih =>
    obtain ⟨key, node⟩ := head
    rw [List.lookup_cons] at h
    by_cases hkey : key = name
    · subst hkey
      simp only [beq_self_eq_true] at h
      simp only [updateEntry, if_pos, h]
    · rw [beq_false_of_ne (Ne.symm hkey)] at h
      simp only [updateEntry, if_neg hkey, ih h]

end Entries

/-! ## Nodes at places -/

namespace Node

variable {f : Option Node → Option Node} {node n : Node} {p q dir : Place} {name : String}
  {entries : List (String × Node)}

@[simp] theorem get?_nil (node : Node) : node.get? [] = some node := by
  cases node <;> rfl

theorem get?_append (p q : Place) (node : Node) :
    node.get? (p ++ q) = (node.get? p).bind (get? q) := by
  induction p generalizing node with
  | nil => simp
  | cons name p ih =>
    cases node with
    | file content executable => rfl
    | link target => rfl
    | dir entries =>
      simp only [List.cons_append, get?]
      cases entries.lookup name with
      | none => rfl
      | some n => exact ih n

theorem isDir_of_get?_cons (h : node.get? (name :: q) = some n) : node.isDir = true := by
  cases node with
  | dir entries => rfl
  | file content executable => cases h
  | link target => cases h

/-- Only a directory has anything below it. -/
theorem exists_dir_of_get?_append (hq : q ≠ []) (h : node.get? (p ++ q) = some n) :
    ∃ entries, node.get? p = some (.dir entries) := by
  rw [get?_append] at h
  cases hp : node.get? p with
  | none => rw [hp] at h; cases h
  | some m =>
    rw [hp] at h
    obtain ⟨name, q, rfl⟩ := List.exists_cons_of_ne_nil hq
    cases m with
    | file content executable => cases h
    | link target => cases h
    | dir entries => exact ⟨entries, rfl⟩

theorem Valid.get? (h : node.Valid) (hp : node.get? p = some n) : n.Valid := by
  induction p generalizing node with
  | nil =>
    rw [get?_nil] at hp
    cases hp
    exact h
  | cons name p ih =>
    cases h with
    | file => cases hp
    | link => cases hp
    | dir nodup names below =>
      obtain ⟨m, hm, hn⟩ := Option.bind_eq_some_iff.1 hp
      exact ih (below _ (mem_of_lookup hm)) hn

theorem Valid.nodup (h : (Node.dir entries).Valid) : (entries.map (·.1)).Nodup := by
  cases h with
  | dir nodup => exact nodup

theorem Valid.isEntryName_of_mem {entry : String × Node} (h : (Node.dir entries).Valid)
    (hmem : entry ∈ entries) : isEntryName entry.1 = true := by
  cases h with
  | dir _ names => exact names entry hmem

theorem Valid.of_mem {entry : String × Node} (h : (Node.dir entries).Valid)
    (hmem : entry ∈ entries) : entry.2.Valid := by
  cases h with
  | dir _ _ below => exact below entry hmem

/-- The names on the way to a node are proper. -/
theorem Valid.isEntryName_of_get? {p : Place} (hv : node.Valid) (h : node.get? p = some n) :
    ∀ name ∈ p, isEntryName name = true := by
  induction p generalizing node with
  | nil => exact nofun
  | cons first p ih =>
    cases hv with
    | file => cases h
    | link => cases h
    | dir nodup names below =>
      obtain ⟨m, hm, hn⟩ := Option.bind_eq_some_iff.1 h
      have hmem := mem_of_lookup hm
      intro name hname
      rcases List.mem_cons.1 hname with rfl | hname
      · exact names _ hmem
      · exact ih (below _ hmem) hn name hname

theorem Valid.isEntryName (h : (Node.dir entries).Valid) (hn : entries.lookup name = some n) :
    isEntryName name = true :=
  h.isEntryName_of_mem (mem_of_lookup hn)

/-- An update at a place reaches the directory there as a change of one entry. -/
theorem get?_update_dir (f : Option Node → Option Node) (name : String) (hv : node.Valid)
    (h : node.get? dir = some (.dir entries)) :
    (node.update f (dir ++ [name])).get? dir = some (.dir (updateEntry name f entries)) := by
  induction dir generalizing node with
  | nil =>
    rw [get?_nil] at h
    cases h
    simp [update]
  | cons a dir ih =>
    cases hv with
    | file => cases h
    | link => cases h
    | dir nodup names below =>
      obtain ⟨m, hm, hdir⟩ := Option.bind_eq_some_iff.1 h
      have hrec := ih (below _ (mem_of_lookup hm)) hdir
      simp only [List.cons_append, update, get?, lookup_updateEntry_self nodup, hm]
      cases dir with
      | nil => simpa using hrec
      | cons b dir => simpa using hrec

/-- An update of an entry needs a directory that has it. -/
theorem update_of_not_dir (f : Option Node → Option Node) (name : String)
    (h : ∀ entries, node.get? dir ≠ some (.dir entries)) :
    node.update f (dir ++ [name]) = node := by
  induction dir generalizing node with
  | nil =>
    cases node with
    | dir entries => exact absurd rfl (h entries)
    | _ => rfl
  | cons a dir ih =>
    cases node with
    | dir entries =>
      obtain ⟨b, rest, hrest⟩ := List.exists_cons_of_ne_nil (l := dir ++ [name]) (by simp)
      rw [List.cons_append, update, updateEntry_eq_self]
      simp only [hrest]
      rw [← hrest]
      cases hlookup : entries.lookup a with
      | none => rfl
      | some below =>
        rw [Option.map_some, ih]
        intro entries' hbelow
        exact h entries' (by rw [get?, hlookup]; exact hbelow)
    | _ => rfl

/-- An update leaves alone every place that is not comparable with its own. -/
theorem get?_update_of_apart (hv : node.Valid) (hpq : ¬ p <+: q) (hqp : ¬ q <+: p) :
    (node.update f p).get? q = node.get? q := by
  induction p generalizing node q with
  | nil => exact absurd List.nil_prefix hpq
  | cons a p ih =>
    cases q with
    | nil => exact absurd List.nil_prefix hqp
    | cons b q =>
      cases hv with
      | file => rfl
      | link => rfl
      | dir nodup names below =>
        simp only [update, get?]
        by_cases hab : b = a
        · subst hab
          have hpq' : ¬ p <+: q := fun h => hpq (List.cons_prefix_cons.2 ⟨rfl, h⟩)
          have hqp' : ¬ q <+: p := fun h => hqp (List.cons_prefix_cons.2 ⟨rfl, h⟩)
          have hp : p ≠ [] := fun h => hpq' (h ▸ List.nil_prefix)
          obtain ⟨c, p, rfl⟩ := List.exists_cons_of_ne_nil hp
          rw [lookup_updateEntry_self nodup]
          cases hm : List.lookup b _ with
          | none => simp
          | some m => exact ih (below _ (mem_of_lookup hm)) hpq' hqp'
        · rw [lookup_updateEntry_of_ne hab]

end Node

/-! ## Stores -/

/-- What stands at a place, the entries of a directory aside. -/
inductive Item where
  | file (content : ByteArray) (executable : Bool)
  | link (target : String)
  | dir

instance : DecidableEq Item
  | .file content executable, .file content' executable' =>
    decidable_of_iff (content.data.toList = content'.data.toList ∧ executable = executable') <| by
      rw [Array.toList_inj, ← ByteArray.ext_iff, Item.file.injEq]
  | .link target, .link target' => decidable_of_iff (target = target') (by rw [Item.link.injEq])
  | .dir, .dir => .isTrue rfl
  | .file .., .link _ | .file .., .dir | .link _, .file .. | .link _, .dir | .dir, .file ..
  | .dir, .link _ => .isFalse Item.noConfusion

/-- Whether an item is a directory. -/
def Item.isDir : Item → Bool
  | dir => true
  | _ => false

/-- Whether a path can go on where the item stands: into a directory, or along a link. -/
def Item.LeadsOn : Item → Prop
  | file _ _ => False
  | link _ => True
  | dir => True

/-- What a node is, the entries of a directory aside. -/
def Node.item : Node → Item
  | file content executable => .file content executable
  | link target => .link target
  | dir _ => .dir

theorem Node.isDir_item (node : Node) : node.item.isDir = node.isDir := by
  cases node <;> rfl

namespace Store

variable {s : Store} {p q dir : Place} {name : String} {node : Node} {item : Item}

/-- What stands at a place. -/
def at? (s : Store) (place : Place) : Option Item :=
  (s.get? place).map Node.item

theorem valid_root (s : Store) : s.root.Valid := s.valid

theorem get?_append (s : Store) (p q : Place) : s.get? (p ++ q) = (s.get? p).bind (Node.get? q) :=
  Node.get?_append p q s.root

theorem get?_entry {entries : List (String × Node)} (hdir : s.get? dir = some (.dir entries))
    (name : String) : s.get? (dir ++ [name]) = entries.lookup name := by
  rw [get?_append, hdir]
  simp [Node.get?]

theorem at?_eq_dir_iff : s.at? p = some .dir ↔ ∃ entries, s.get? p = some (.dir entries) := by
  unfold at?
  cases s.get? p with
  | none => simp
  | some n => cases n <;> simp [Node.item]

theorem at?_eq_file_iff {content : ByteArray} {executable : Bool} :
    s.at? p = some (.file content executable) ↔ s.get? p = some (.file content executable) := by
  unfold at?
  cases s.get? p with
  | none => simp
  | some n => cases n <;> simp [Node.item]

theorem at?_eq_link_iff {target : String} :
    s.at? p = some (.link target) ↔ s.get? p = some (.link target) := by
  unfold at?
  cases s.get? p with
  | none => simp
  | some n => cases n <;> simp [Node.item]

theorem at?_eq_none_iff : s.at? p = none ↔ s.get? p = none := by
  simp [at?]

/-- Only a directory has anything below it. -/
theorem at?_eq_dir_of_below (hq : q ≠ []) (h : s.at? (p ++ q) = some item) :
    s.at? p = some .dir := by
  obtain ⟨n, hn, -⟩ := Option.map_eq_some_iff.1 h
  exact at?_eq_dir_iff.2 (Node.exists_dir_of_get?_append hq hn)

theorem at?_append_eq_none (hq : q ≠ []) (h : s.at? p ≠ some .dir) : s.at? (p ++ q) = none := by
  cases hpq : s.at? (p ++ q) with
  | none => rfl
  | some item => exact absurd (at?_eq_dir_of_below hq hpq) h

/-- Nothing is at or below a name that a directory does not have. -/
theorem at?_eq_none_of_not_mem {entries : List (String × Node)}
    (hdir : s.get? dir = some (.dir entries)) (hname : name ∉ entries.map (·.1)) (q : Place) :
    s.at? (dir ++ name :: q) = none := by
  have hlookup : entries.lookup name = none := by
    rw [List.lookup_eq_none_iff]
    intro entry hentry
    exact bne_iff_ne.2 fun heq => hname (List.mem_map.2 ⟨entry, hentry, heq.symm⟩)
  rw [at?_eq_none_iff, get?_append, hdir, Option.bind_some, Node.get?, hlookup]
  rfl

/-- What stands in a directory has a proper name. -/
theorem isEntryName_of_at? (h : s.at? (dir ++ [name]) = some item) : isEntryName name = true := by
  obtain ⟨entries, hdir⟩ := at?_eq_dir_iff.1 (at?_eq_dir_of_below (List.cons_ne_nil name []) h)
  obtain ⟨n, hn, -⟩ := Option.map_eq_some_iff.1 h
  rw [get?_append, hdir, Option.bind_some] at hn
  obtain ⟨m, hm, -⟩ := Option.bind_eq_some_iff.1 hn
  exact (Node.Valid.get? s.valid_root hdir).isEntryName hm

/-! ## The three changes -/

section Changes

theorem withRoot_eq_self (h : node.Valid) (hnode : node = s.root) : s.withRoot node h = s := by
  subst hnode
  rfl

theorem root_put (hp : p ≠ []) (hv : node.Valid) :
    (s.put p node hv).root = s.root.update (fun _ => some node) p := by
  obtain ⟨name, p, rfl⟩ := List.exists_cons_of_ne_nil hp
  rfl

theorem root_erase (hp : p ≠ []) : (s.erase p).root = s.root.update (fun _ => none) p := by
  obtain ⟨name, p, rfl⟩ := List.exists_cons_of_ne_nil hp
  rfl

@[simp] theorem cwd_put (p : Place) (hv : node.Valid) : (s.put p node hv).cwd = s.cwd := by
  unfold put withRoot
  split <;> rfl

@[simp] theorem cwd_putFile (p : Place) (content : ByteArray) (executable : Bool) :
    (s.putFile p content executable).cwd = s.cwd := cwd_put ..

@[simp] theorem cwd_putDir (p : Place) : (s.putDir p).cwd = s.cwd := cwd_put ..

@[simp] theorem cwd_erase (p : Place) : (s.erase p).cwd = s.cwd := by
  unfold erase withRoot
  split <;> rfl

@[simp] theorem fault?_putFile (p : Place) (content : ByteArray) (executable : Bool) :
    (s.putFile p content executable).fault? = s.fault? := by
  unfold putFile put withRoot
  split <;> rfl

theorem get?_put_of_apart (hv : node.Valid) (hpq : ¬ p <+: q) (hqp : ¬ q <+: p) :
    (s.put p node hv).get? q = s.get? q := by
  have hp : p ≠ [] := fun h => hpq (h ▸ List.nil_prefix)
  rw [get?, root_put hp]
  exact Node.get?_update_of_apart s.valid_root hpq hqp

theorem get?_erase_of_apart (hpq : ¬ p <+: q) (hqp : ¬ q <+: p) :
    (s.erase p).get? q = s.get? q := by
  have hp : p ≠ [] := fun h => hpq (h ▸ List.nil_prefix)
  rw [get?, root_erase hp]
  exact Node.get?_update_of_apart s.valid_root hpq hqp

section Update

variable {f : Option Node → Option Node}

/-- At and below the entry that is updated stands what the update makes of it. -/
theorem get?_update_below (hdir : s.at? dir = some .dir) (hname : isEntryName name = true)
    (q : Place) :
    (s.root.update f (dir ++ [name])).get? (dir ++ [name] ++ q) =
      (f (s.get? (dir ++ [name]))).bind (Node.get? q) := by
  obtain ⟨entries, hentries⟩ := at?_eq_dir_iff.1 hdir
  have hnodup := (Node.Valid.get? s.valid_root hentries).nodup
  have hold : s.get? (dir ++ [name]) = entries.lookup name := get?_entry hentries name
  rw [Node.get?_append, Node.get?_append, Node.get?_update_dir f name s.valid_root hentries, hold]
  simp only [Option.bind_some, Node.get?, lookup_updateEntry_self hnodup, hname, if_true]
  cases entries.lookup name <;> simp

/-- Neither at nor below the entry that is updated, the same things stand as before. -/
theorem item_get?_update_outside (hq : ¬ dir ++ [name] <+: q) :
    ((s.root.update f (dir ++ [name])).get? q).map Node.item = s.at? q := by
  by_cases hother : s.at? dir ≠ some .dir
  · rw [Node.update_of_not_dir f name fun entries heq => hother (at?_eq_dir_iff.2 ⟨entries, heq⟩)]
    rfl
  have hdir : s.at? dir = some .dir := Decidable.not_not.1 hother
  obtain ⟨entries, hentries⟩ := at?_eq_dir_iff.1 hdir
  have hparent := Node.get?_update_dir f name s.valid_root hentries
  by_cases hqp : q <+: dir ++ [name]
  · -- above the entry there were directories, and there still are
    have hdirs : q <+: dir := by
      rcases List.prefix_concat_iff.1 hqp with h | h
      · exact absurd (h ▸ List.prefix_refl _) hq
      · exact h
    obtain ⟨r, rfl⟩ := hdirs
    by_cases hr : r = []
    · subst hr
      rw [List.append_nil] at hparent hdir
      rw [List.append_nil, hparent, hdir]
      rfl
    · obtain ⟨above, habove⟩ := Node.exists_dir_of_get?_append hr hparent
      rw [habove, at?_eq_dir_of_below hr hdir]
      rfl
  · rw [Node.get?_update_of_apart s.valid_root hq hqp]
    rfl

/-- An update of one entry of a directory, place by place: the entry is what the update makes of
it, and elsewhere the same things stand as before. -/
theorem item_get?_update (hdir : s.at? dir = some .dir) (hname : isEntryName name = true)
    (hbelow : s.at? (dir ++ [name]) ≠ some .dir)
    (hnew : ∀ {old new r}, f old = some new → r ≠ [] → new.get? r = none) :
    ((s.root.update f (dir ++ [name])).get? q).map Node.item =
      if q = dir ++ [name] then (f (s.get? q)).map Node.item else s.at? q := by
  by_cases hpq : dir ++ [name] <+: q
  · obtain ⟨r, rfl⟩ := hpq
    rw [get?_update_below hdir hname]
    by_cases hr : r = []
    · subst hr
      rw [List.append_nil, if_pos rfl]
      cases f (s.get? (dir ++ [name])) <;> simp
    · have hne : dir ++ [name] ++ r ≠ dir ++ [name] := by simp [hr]
      rw [if_neg hne, at?_append_eq_none hr hbelow]
      cases hf : f (s.get? (dir ++ [name])) with
      | none => rfl
      | some new => simp [hnew hf hr]
  · have hne : q ≠ dir ++ [name] := fun heq => hpq (heq ▸ List.prefix_refl _)
    rw [if_neg hne, item_get?_update_outside hpq]

end Update

variable (hdir : s.at? dir = some .dir) (hname : isEntryName name = true)
  (hbelow : s.at? (dir ++ [name]) ≠ some .dir)

include hdir hname hbelow

theorem at?_putFile (content : ByteArray) (executable : Bool) (q : Place) :
    (s.putFile (dir ++ [name]) content executable).at? q =
      if q = dir ++ [name] then some (.file content executable) else s.at? q := by
  have hp : dir ++ [name] ≠ [] := by simp
  rw [at?, get?, putFile, root_put hp, item_get?_update hdir hname hbelow]
  · rfl
  · intro old new r hnew hr
    cases hnew
    obtain ⟨a, r, rfl⟩ := List.exists_cons_of_ne_nil hr
    rfl

theorem at?_putDir (q : Place) :
    (s.putDir (dir ++ [name])).at? q =
      if q = dir ++ [name] then some .dir else s.at? q := by
  have hp : dir ++ [name] ≠ [] := by simp
  rw [at?, get?, putDir, root_put hp, item_get?_update hdir hname hbelow]
  · rfl
  · intro old new r hnew hr
    cases hnew
    obtain ⟨a, r, rfl⟩ := List.exists_cons_of_ne_nil hr
    rfl

theorem at?_erase (q : Place) :
    (s.erase (dir ++ [name])).at? q = if q = dir ++ [name] then none else s.at? q := by
  have hp : dir ++ [name] ≠ [] := by simp
  rw [at?, get?, root_erase hp, item_get?_update hdir hname hbelow]
  · rfl
  · intro old new r hnew
    cases hnew

end Changes

end Store

end Autotree
