import Autotree.Proofs.Store.LinkFree

/-!
# Whole trees

The places below a node are those that lead from it to something (`mem_descendants`), each of them
listed once (`nodup_descendants`), and no node below another is higher than it
(`height_le_of_get?`).  So whether a store has a link can be
decided by going through its tree.
-/

namespace Autotree

namespace Node

variable {node n m : Node} {p : Place} {name : String} {entries : List (String × Node)}

/-! ## Descendants -/

theorem mem_descendants_ofEntries :
    (name :: p, n) ∈ descendants.ofEntries entries ↔
      ∃ m, (name, m) ∈ entries ∧ (p = [] ∧ n = m ∨ (p, n) ∈ m.descendants) := by
  induction entries with
  | nil => simp [descendants.ofEntries]
  | cons head rest ih =>
    obtain ⟨key, node⟩ := head
    rw [descendants.ofEntries, List.mem_append, List.mem_cons, ih]
    constructor
    · rintro ((heq | hbelow) | ⟨m, hmem, hm⟩)
      · cases heq
        exact ⟨n, List.mem_cons_self, .inl ⟨rfl, rfl⟩⟩
      · obtain ⟨⟨p', n'⟩, hmem, heq⟩ := List.mem_map.1 hbelow
        cases heq
        exact ⟨node, List.mem_cons_self, .inr hmem⟩
      · exact ⟨m, List.mem_cons_of_mem _ hmem, hm⟩
    · rintro ⟨m, hmem, hm⟩
      rcases List.mem_cons.1 hmem with heq | hmem
      · cases heq
        rcases hm with ⟨rfl, rfl⟩ | hm
        · exact .inl (.inl rfl)
        · exact .inl (.inr (List.mem_map.2 ⟨(p, n), hm, rfl⟩))
      · exact .inr ⟨m, hmem, hm⟩

theorem ne_nil_of_mem_ofEntries {e : Place × Node} (h : e ∈ descendants.ofEntries entries) :
    e.1 ≠ [] := by
  induction entries with
  | nil => simp [descendants.ofEntries] at h
  | cons head rest ih =>
    obtain ⟨key, node⟩ := head
    rw [descendants.ofEntries, List.mem_append, List.mem_cons] at h
    rcases h with (rfl | hbelow) | hrest
    · exact List.cons_ne_nil _ _
    · obtain ⟨e', -, rfl⟩ := List.mem_map.1 hbelow
      exact List.cons_ne_nil _ _
    · exact ih hrest

/-- What is below a node is what places that are not empty lead to from it. -/
theorem mem_descendants (hv : node.Valid) :
    (p, n) ∈ node.descendants ↔ p ≠ [] ∧ node.get? p = some n := by
  induction p generalizing node with
  | nil =>
    refine ⟨?_, fun h => absurd rfl h.1⟩
    intro h
    cases node with
    | file => cases h
    | link => cases h
    | dir entries => exact absurd rfl (ne_nil_of_mem_ofEntries h)
  | cons name p ih =>
    cases hv with
    | file => simp [descendants, get?]
    | link => simp [descendants, get?]
    | dir nodup names below =>
      rw [descendants, mem_descendants_ofEntries, get?, Option.bind_eq_some_iff]
      constructor
      · rintro ⟨m, hmem, hm⟩
        refine ⟨List.cons_ne_nil _ _, m, lookup_of_mem nodup hmem, ?_⟩
        rcases hm with ⟨rfl, rfl⟩ | hm
        · rw [get?_nil]
        · exact ((ih (below _ hmem)).1 hm).2
      · rintro ⟨-, m, hm, hn⟩
        refine ⟨m, mem_of_lookup hm, ?_⟩
        by_cases hp : p = []
        · subst hp
          rw [get?_nil] at hn
          exact .inl ⟨rfl, (Option.some.inj hn).symm⟩
        · exact .inr ((ih (below _ (mem_of_lookup hm))).2 ⟨hp, hn⟩)

theorem nil_not_mem_places (hv : node.Valid) : [] ∉ node.descendants.map (·.1) := by
  intro hmem
  obtain ⟨⟨p, n⟩, he, rfl⟩ := List.mem_map.1 hmem
  exact ((mem_descendants hv).1 he).1 rfl

theorem mem_names_of_mem_places
    (h : name :: p ∈ (descendants.ofEntries entries).map (·.1)) : name ∈ entries.map (·.1) := by
  obtain ⟨⟨p', n⟩, he, rfl⟩ := List.mem_map.1 h
  obtain ⟨m, hm, -⟩ := mem_descendants_ofEntries.1 he
  exact List.mem_map.2 ⟨_, hm, rfl⟩

/-- Places below different entries begin with different names. -/
theorem nodup_places_cons (hname : name ∉ entries.map (·.1)) (hv : node.Valid)
    (hnode : (node.descendants.map (·.1)).Nodup)
    (hentries : ((descendants.ofEntries entries).map (·.1)).Nodup) :
    ((descendants.ofEntries ((name, node) :: entries)).map (·.1)).Nodup := by
  have hmap : (node.descendants.map fun e => (name :: e.1, e.2)).map (·.1) =
      (node.descendants.map (·.1)).map (name :: ·) := by simp
  have hbelow : ((node.descendants.map (·.1)).map (name :: ·)).Nodup :=
    List.Pairwise.map (name :: ·) (fun p q hne heq => hne (List.cons.inj heq).2) hnode
  rw [descendants.ofEntries, List.map_append, List.map_cons, hmap, List.nodup_append,
    List.nodup_cons]
  refine ⟨⟨?_, hbelow⟩, hentries, ?_⟩
  · intro hmem
    obtain ⟨p, hp, heq⟩ := List.mem_map.1 hmem
    exact nil_not_mem_places hv ((List.cons.inj heq).2 ▸ hp)
  · rintro p hp q hq rfl
    rcases List.mem_cons.1 hp with rfl | hp
    · exact hname (mem_names_of_mem_places hq)
    · obtain ⟨r, -, rfl⟩ := List.mem_map.1 hp
      exact hname (mem_names_of_mem_places hq)

/-- Every place below a node is listed once. -/
theorem nodup_descendants (hv : node.Valid) : (node.descendants.map (·.1)).Nodup := by
  induction hv with
  | file => exact List.nodup_nil
  | link => exact List.nodup_nil
  | dir nodup names below ih =>
    rename_i entries
    rw [descendants]
    clear names
    induction entries with
    | nil => exact List.nodup_nil
    | cons head rest ihrest =>
      rw [List.map_cons, List.nodup_cons] at nodup
      have hrest := ihrest nodup.2 (fun e he => below e (List.mem_cons_of_mem _ he))
        fun e he => ih e (List.mem_cons_of_mem _ he)
      exact nodup_places_cons nodup.1 (below head List.mem_cons_self) (ih head List.mem_cons_self)
        hrest

/-! ## Height -/

theorem height_lt_of_mem {e : String × Node} (h : e ∈ entries) :
    e.2.height < (Node.dir entries).height := by
  have hle : e.2.height ≤ height.heights entries := by
    induction entries with
    | nil => cases h
    | cons head rest ih =>
      rw [height.heights]
      rcases List.mem_cons.1 h with rfl | h
      · exact Nat.le_max_left _ _
      · exact Nat.le_trans (ih h) (Nat.le_max_right _ _)
  rw [height]
  exact Nat.lt_succ_of_le hle

/-- A node below another lies at a level of the tree. -/
theorem length_add_height_le (h : node.get? p = some n) : p.length + n.height ≤ node.height := by
  induction p generalizing node with
  | nil =>
    rw [get?_nil] at h
    cases h
    rw [List.length_nil, Nat.zero_add]
  | cons name p ih =>
    cases node with
    | file => cases h
    | link => cases h
    | dir entries =>
      obtain ⟨m, hm, hn⟩ := Option.bind_eq_some_iff.1 h
      have hlt := height_lt_of_mem (mem_of_lookup hm)
      have hle := ih hn
      rw [List.length_cons]
      simp only at hlt
      omega

theorem height_le_of_get? (h : node.get? p = some n) : n.height ≤ node.height :=
  Nat.le_trans (Nat.le_add_left _ _) (length_add_height_le h)

/-- A tree is higher than what is strictly below it. -/
theorem height_lt_of_get? (h : node.get? p = some n) (hp : p ≠ []) : n.height < node.height := by
  have hpos := List.length_pos_iff.2 hp
  have hle := length_add_height_le h
  omega

/-! ## Links -/

/-- Whether a node is a symbolic link. -/
def isLink : Node → Bool
  | link _ => true
  | _ => false

theorem isLink_eq_true_iff : node.isLink = true ↔ ∃ target, node = .link target := by
  cases node <;> simp [isLink]

/-- No link stands at or below a node. -/
def LinkFree (node : Node) : Prop :=
  ∀ p target, node.get? p ≠ some (.link target)

theorem LinkFree.of_get? (h : node.LinkFree) (hget : node.get? p = some n) : n.LinkFree := by
  intro q target hlink
  refine h (p ++ q) target ?_
  rw [get?_append, hget, Option.bind_some, hlink]

theorem LinkFree.of_mem {e : String × Node} (hv : (Node.dir entries).Valid)
    (h : (Node.dir entries).LinkFree) (he : e ∈ entries) : e.2.LinkFree := by
  refine h.of_get? (p := [e.1]) ?_
  rw [get?, lookup_of_mem hv.nodup he, Option.bind_some, get?_nil]

theorem linkFree_dir_iff (hv : (Node.dir entries).Valid) :
    (Node.dir entries).LinkFree ↔ ∀ e ∈ (Node.dir entries).descendants, e.2.isLink = false := by
  constructor
  · rintro h ⟨p, n⟩ hmem
    have hget := ((mem_descendants hv).1 hmem).2
    rw [← Bool.not_eq_true, isLink_eq_true_iff]
    rintro ⟨target, rfl⟩
    exact h p target hget
  · intro h p target hlink
    have hp : p ≠ [] := by
      rintro rfl
      rw [get?_nil] at hlink
      cases hlink
    have hfalse := h (p, .link target) ((mem_descendants hv).2 ⟨hp, hlink⟩)
    cases hfalse

end Node

namespace Store

variable {s : Store}

theorem LinkFree.of_get? {place : Place} {node : Node} (hfree : s.LinkFree)
    (h : s.get? place = some node) : node.LinkFree := by
  intro p target hlink
  refine hfree.get?_ne (place ++ p) target ?_
  rw [Store.get?_append, h, Option.bind_some, hlink]

theorem linkFree_iff : s.LinkFree ↔ ∀ e ∈ s.root.descendants, e.2.isLink = false := by
  refine Iff.trans ?_ (Node.linkFree_dir_iff s.valid)
  exact forall₂_congr fun place target => not_congr at?_eq_link_iff

instance : Decidable s.LinkFree :=
  decidable_of_iff _ linkFree_iff.symm

end Store

end Autotree
