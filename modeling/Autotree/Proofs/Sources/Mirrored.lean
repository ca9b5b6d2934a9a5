import Autotree.Proofs.Sources.Partition
import Autotree.Proofs.Store.Visits

/-!
# Discovery in a copy

A scan takes a link for what it leads to; a copy takes it for a file.  So of a directory whose links
all lead to something a copy succeeds if and only if none leads to a directory
(`isDir_eq_false_of_copied`, `FreshTarget.exists_overlays`), and then what discovery finds in the
copy has the places of what it finds in the source (`copyTree_mirrors`): the copy has directories,
and other things, where the source has them (`FreshTarget.isDir_copied`), and the places of what is
listed depend on nothing else (`listed_perm_of_isDir`).
-/

namespace Autotree

namespace Store

variable {s : Store} {path : String} {p q : Place} {entries : List (String × Node)}

/-- What a copy reads is a directory where a directory is. -/
theorem CopySource.isDir_followed (h : CopySource s path p q entries) (r : Place) :
    (s.followed path p r).map Item.isDir = (s.at? (p ++ r)).map Item.isDir := by
  by_cases hlink : ∃ text, s.at? (p ++ r) = some (.link text)
  · obtain ⟨text, hto⟩ := hlink
    obtain ⟨place, content, executable, hfile, -⟩ := h.links r text hto
    rw [followed_link hto hfile, hto]
    rfl
  · rw [followed_eq_at? fun text hto => hlink ⟨text, hto⟩]

end Store

namespace FileAction

open Store Stateful

variable {s t u v : Store} {source target name : String} {p q r : Place} {levels : Nat}
  {entries : List (String × Node)} {node : Node} {text : String}

/-- A copy that succeeds copied each directory and each link that was in its source before. -/
theorem exists_copied_entry (h : copyLevels levels source target v = (.ok (), t))
    (hspares : Spares (fun _ => True) s v) (hsource : s.locate source = .ok (p, .dir entries))
    (hlookup : entries.lookup name = some node) (hleads : node.item.LeadsOn) :
    ∃ fewer node' v' w, node'.item = node.item ∧ Spares (fun _ => True) s v' ∧
      copyEntry (copyLevels fewer) source target (name, node') v' = (.ok (), w) := by
  cases levels with
  | zero => cases h
  | succ levels =>
    rcases hopen : openLevel source target v with ⟨e | listed, u⟩
    · rw [copyLevels_succ, bind_error hopen] at h
      cases h
    · obtain ⟨hmake, place, hlisted⟩ := openLevel_eq_ok hopen
      have hspares' := hspares.trans (spares_of_made hmake)
      obtain ⟨_, hsource'⟩ :=
        locate_dir_mono hspares'.keepsWays hspares'.cwd_eq hspares'.at?_ne_none hsource
      rw [hlisted] at hsource'
      cases hsource'
      -- it is among what is listed when the copy gets there
      have hat : s.at? (p ++ [name]) = some node.item := by
        rw [at?, get?_entry (get?_of_locate hsource), hlookup, Option.map_some]
      obtain ⟨node', hget, hitem⟩ := Option.map_eq_some_iff.1 (hspares'.keepsWays _ _ hat hleads)
      rw [get?_entry (get?_of_locate hlisted)] at hget
      obtain ⟨v', w, hcomes, hentry⟩ := comesTo_of_ok h hopen (mem_of_lookup hget)
      exact ⟨levels, node', v', w, hitem, hspares.trans hcomes.spares, hentry⟩

/-- A copy that succeeds copied no link to a directory. -/
theorem isDir_eq_false_of_copied (h : copyLevels levels source target v = (.ok (), t))
    (hspares : Spares (fun _ => True) s v) (hsource : s.locate source = .ok (p, .dir entries))
    (hlink : (Node.dir entries).get? r = some (.link text)) :
    s.isDir (r.foldl Path.join source) = false := by
  induction r generalizing levels source target v t p entries with
  | nil => cases hlink
  | cons name r ih =>
    obtain ⟨node, hlookup, hnode⟩ := Option.bind_eq_some_iff.1 hlink
    have hleads : node.item.LeadsOn := by
      cases node with
      | file => cases r <;> cases hnode
      | link => trivial
      | dir => trivial
    obtain ⟨fewer, node', v', w, hitem, hspares', hentry⟩ :=
      exists_copied_entry h hspares hsource hlookup hleads
    have hisDir : node'.isDir = node.isDir := by
      rw [← Node.isDir_item, hitem, Node.isDir_item]
    unfold copyEntry at hentry
    simp only [hisDir] at hentry
    rw [List.foldl_cons]
    cases node with
    | file => cases hleads
    | dir sub =>
      obtain ⟨-, u, place, listed, -, -, hlisted, -⟩ := copyLevels_eq_ok hentry
      have hlocate := locate_join hsource (fits_of_locate hlisted) hlookup fun _ => Node.noConfusion
      exact ih hentry hspares' hlocate hnode
    | link target' =>
      obtain ⟨there, content, executable, -, -, -, hfile, -⟩ :=
        copyFile_run (copied_of_copyFile hentry)
      cases r with
      | cons => cases hnode
      | nil =>
        refine eq_false_of_ne_true fun hdir => ?_
        obtain ⟨there', sub, hlocate⟩ := isDir_eq_true_iff.1 (hspares'.isDir hdir)
        rw [List.foldl_nil, hfile] at hlocate
        cases hlocate

/-! ## Fresh targets -/

/-- A target that is made where nothing was, outside of the source, and with nothing new in it. -/
structure FreshTarget (s : Store) (target : String) (p q : Place) (u : Store) : Prop where
  run : makeDirs target s = (.ok (), u)
  located : u.locate target = .ok (q, .dir [])
  absent : s.at? q = none
  outside : ¬ p <+: q
  kept : ∀ x, Under p x → u.at? x = s.at? x

/-- A name that is free in a directory outside of the source is fresh. -/
theorem freshTarget_of_missing (h : s.reachName target = .ok (.missing q)) (hp : s.at? p ≠ none)
    (hout : ¬ p <+: q) : FreshTarget s target p q (s.putDir q) := by
  have hmakes := makes_of_missing h
  obtain ⟨hnone, dir, name, rfl, hname, hdir⟩ := reachName_holds h
  have habsent : s.at? (dir ++ [name]) = none := at?_eq_none_iff.2 hnone
  obtain ⟨entries, hlocate⟩ := hmakes.located
  have hget : (s.putDir (dir ++ [name])).get? (dir ++ [name]) = some (.dir []) := by
    have hbelow := get?_update_below (f := fun _ => some (.dir [])) hdir hname []
    rw [List.append_nil] at hbelow
    rw [get?, putDir, root_put (by simp), hbelow]
    rfl
  rw [get?_of_locate hlocate] at hget
  cases hget
  refine ⟨hmakes.run, hlocate, habsent, hout, ?_⟩
  rintro x ⟨first, rest, rfl⟩
  refine hmakes.fills.outside _ fun hpre => ?_
  exact (List.prefix_or_prefix_of_prefix (List.prefix_append p _) hpre).elim hout fun hqp =>
    hp <| at?_eq_none_of_prefix habsent hqp

namespace FreshTarget

variable (h : FreshTarget s target p q u)

include h

theorem spares : Spares (fun _ => False) s u :=
  (stays_makeDirs target).run h.run (.refl s)

/-- Nothing that stood before is at or below the target. -/
theorem not_prefix {x : Place} (hx : s.at? x ≠ none) : ¬ q <+: x :=
  fun hpre => hx <| at?_eq_none_of_prefix h.absent hpre

theorem at?_top : u.at? q = some .dir :=
  at?_eq_dir_iff.2 ⟨[], get?_of_locate h.located⟩

theorem at?_below (hr : r ≠ []) : u.at? (q ++ r) = none := by
  obtain ⟨name, rest, rfl⟩ := List.exists_cons_of_ne_nil hr
  exact at?_eq_none_of_not_mem (get?_of_locate h.located) (by simp) rest

theorem receives (hsource : CopySource u source p q entries) :
    Receives u (u.followed source p) q where
  noLink r text := by
    by_cases hr : r = []
    · simp [hr, h.at?_top]
    · simp [h.at?_below hr]
  compatible r i j hi hj := by
    by_cases hr : r = []
    · rw [hr, hsource.followed_nil] at hi
      rw [hr, List.append_nil, h.at?_top] at hj
      rw [← Option.some.inj hi, ← Option.some.inj hj]
    · rw [h.at?_below hr] at hj
      cases hj

variable (hsource : s.locate source = .ok (p, .dir entries))

include hsource

/-- The source is as it was, with the order of its listings. -/
theorem get?_source : u.get? p = s.get? p := by
  have hdir : s.at? p = some .dir := at?_eq_dir_iff.2 ⟨entries, get?_of_locate hsource⟩
  have hconfined : Confined (fun _ => False) (s.OnWayOf target) s u := by
    have hmade := makeDirs_confined (T := fun _ => False) target s
    rwa [h.run] at hmade
  refine hconfined.get?_eq p fun c hc => ?_
  obtain ⟨-, hnone, hmade⟩ := hc.resolve_left id
  constructor
  · intro hpre
    have hmissing := at?_eq_none_of_prefix hnone hpre
    rw [hdir] at hmissing
    cases hmissing
  · rintro ⟨rest, rfl⟩
    cases rest with
    | nil =>
      rw [List.append_nil, hdir] at hnone
      cases hnone
    | cons name rest =>
      rw [h.kept _ ⟨name, rest, rfl⟩, hnone] at hmade
      cases hmade

theorem at?_source (r : Place) : u.at? (p ++ r) = s.at? (p ++ r) := by
  rw [at?, at?, get?_append, get?_append, h.get?_source hsource]

theorem fitBelow {base : String} (hfits : s.FitBelow p base) : u.FitBelow p base := by
  intro r hr hat
  rw [h.at?_source hsource] at hat
  exact hfits r hr hat

theorem copySource (hlinks : Sources.LinksToFiles s source (.dir entries))
    (hreadable : s.FitBelow p source) : CopySource u source p q entries where
  fits := h.fitBelow hsource hreadable
  located := by
    obtain ⟨entries', hlocate⟩ := locate_dir_mono h.spares.keepsWays h.spares.cwd_eq
      h.spares.at?_ne_none hsource
    have hget := h.get?_source hsource
    rw [get?_of_locate hlocate, get?_of_locate hsource] at hget
    cases hget
    exact hlocate
  apart := by
    refine ⟨h.not_prefix ?_, h.outside⟩
    simp [at?, get?_of_locate hsource]
  links r text hlink := by
    rw [h.at?_source hsource, at?_eq_link_iff, get?_append, get?_of_locate hsource] at hlink
    obtain ⟨place, content, executable, hfile⟩ := isFile_eq_true_iff.1 (hlinks r text hlink)
    have hat : s.at? place = some (.file content executable) :=
      at?_eq_file_iff.2 (get?_of_locate hfile)
    refine ⟨place, content, executable, ?_, h.not_prefix (by simp [hat])⟩
    refine locate_file_mono h.spares.keepsWays h.spares.cwd_eq h.spares.at?_ne_none hfile ?_
    rcases h.spares.at?_or place with heq | ⟨hnone, -⟩ | ⟨hfalse, -⟩
    · exact heq
    · rw [hat] at hnone
      cases hnone
    · exact hfalse.elim

/-- A directory whose links lead to files is copied to a fresh target. -/
theorem exists_overlays (hlinks : Sources.LinksToFiles s source (.dir entries))
    (hreadable : s.FitBelow p source) (hwritable : s.FitBelow p target) :
    ∃ t, copyTree source target s = (.ok (), t) ∧
      Overlays (u.followed source p) (fun _ => True) q u t := by
  have hcopy := h.copySource hsource hlinks hreadable
  refine exists_overlays_copyTree h.run hcopy (h.receives hcopy) ⟨[], h.located⟩
    (h.fitBelow hsource hwritable) ?_
  refine Node.height_lt_of_get? (get?_of_locate hsource) ?_
  rintro rfl
  exact h.outside List.nil_prefix

/-- A copy to a fresh target has directories where the source has them, and no links. -/
theorem isDir_copied (hlinks : Sources.LinksToFiles s source (.dir entries))
    (hreadable : s.FitBelow p source)
    (hover : Overlays (u.followed source p) (fun _ => True) q u t) (r : Place) :
    (t.at? (q ++ r)).map Item.isDir = (s.at? (p ++ r)).map Item.isDir ∧
      ∀ text, t.at? (q ++ r) ≠ some (.link text) := by
  have hcopy := h.copySource hsource hlinks hreadable
  have hat : t.at? (q ++ r) = u.followed source p r := by
    rw [hover.at?_done r trivial]
    by_cases hr : r = []
    · rw [hr, hcopy.followed_nil, Option.some_or]
    · rw [h.at?_below hr, Option.or_none]
  rw [hat]
  refine ⟨?_, hcopy.followed_ne_link r⟩
  rw [hcopy.isDir_followed, h.at?_source hsource]

end FreshTarget

end FileAction

namespace Sources

open Store FileAction

variable {s t u : Store} {base base' dir dir' path : String} {p q : Place}
  {names names' : List String} {entries entries' : List (String × Node)}

/-- Every link below a node leads to a file or a directory, where a path leads to the node. -/
def LinksResolve (s : Store) (path : String) (node : Node) : Prop :=
  ∀ p target, node.get? p = some (.link target) →
    s.isFile (p.foldl Path.join path) = true ∨ s.isDir (p.foldl Path.join path) = true

theorem forall_links_of_descendants {P : Place → Prop} (hv : (Node.dir entries).Valid)
    (h : ∀ e ∈ (Node.dir entries).descendants, e.2.isLink = true → P e.1) (p : Place)
    (target : String) (hlink : (Node.dir entries).get? p = some (.link target)) : P p := by
  have hp : p ≠ [] := by
    rintro rfl
    cases hlink
  exact h (p, .link target) ((Node.mem_descendants hv).2 ⟨hp, hlink⟩) rfl

/-- Directories list sources at the same places if directories and other things in them are at the
same places. -/
theorem listed_perm_of_isDir (hs : s.get? p = some (.dir entries))
    (ht : t.get? q = some (.dir entries'))
    (hsame : ∀ r, (t.at? (q ++ r)).map Item.isDir = (s.at? (p ++ r)).map Item.isDir) :
    (listed true (.dir entries')).Perm (listed true (.dir entries)) := by
  refine (List.perm_ext_iff_of_nodup (nodup_listed (Node.Valid.get? t.valid_root ht) true)
    (nodup_listed (Node.Valid.get? s.valid_root hs) true)).2 fun r => ?_
  rw [mem_listed_iff_at? ht, mem_listed_iff_at? hs, hsame]

/-- A scan enters only directories whose paths fit, if all paths below its directory do. -/
theorem enterable_of_fitBelow {deep : Bool} (h : s.locate path = .ok (p, .dir entries))
    (hfits : s.FitBelow p path) : Enterable deep path entries := by
  have hget := get?_of_locate h
  refine enterable_of_forall (not_refused_of_locate h) fun e he => ?_
  obtain ⟨hne, hbelow⟩ := (Node.mem_descendants (Node.Valid.get? s.valid_root hget)).1 he
  refine (hfits e.1 hne ?_).taken
  rw [at?, Store.get?_append, hget, Option.bind_some, hbelow]
  simp

/-- A directory whose links all lead to a file or a directory, and whose paths fit here and in the
target, can be copied to a fresh target if and only if none leads to a directory; then discovery
finds sources in the copy at the places where it finds them in the directory. -/
theorem copyTree_mirrors (hdir : Path.components dir = names.map .name)
    (hdir' : Path.components dir' = names'.map .name)
    (hsource : s.locate (Path.join base dir) = .ok (p, .dir entries))
    (hlinks : LinksResolve s (Path.join base dir) (.dir entries))
    (hfresh : FreshTarget s (Path.join base' dir') p q u)
    (hreadable : s.FitBelow p (Path.join base dir))
    (hwritable : s.FitBelow p (Path.join base' dir')) :
    ((∃ t, copyTree (Path.join base dir) (Path.join base' dir') s = (.ok (), t)) ↔
      LinksToFiles s (Path.join base dir) (.dir entries)) ∧
    ∀ t, copyTree (Path.join base dir) (Path.join base' dir') s = (.ok (), t) →
      ∃ found found' : List Place,
        discover base dir true s = (.ok (found.map (relativeName names)), s) ∧
        discover base' dir' true t = (.ok (found'.map (relativeName names')), t) ∧
        found'.Perm found := by
  have hfiles : ∀ t, copyTree (Path.join base dir) (Path.join base' dir') s = (.ok (), t) →
      LinksToFiles s (Path.join base dir) (.dir entries) := by
    intro t hrun r text hlink
    rw [copyTree_apply] at hrun
    refine (hlinks r text hlink).resolve_right (ne_true_of_eq_false ?_)
    exact isDir_eq_false_of_copied hrun (.refl s) hsource hlink
  refine ⟨⟨fun ⟨t, hrun⟩ => hfiles t hrun, fun hto => ?_⟩, fun t hrun => ?_⟩
  · obtain ⟨t, hrun, -⟩ := hfresh.exists_overlays hsource hto hreadable hwritable
    exact ⟨t, hrun⟩
  · have hto := hfiles t hrun
    obtain ⟨t', hrun', hover⟩ := hfresh.exists_overlays hsource hto hreadable hwritable
    rw [hrun] at hrun'
    cases hrun'
    have hcopied := hfresh.isDir_copied hsource hto hreadable hover
    obtain ⟨entries', htarget⟩ := locate_dir_mono hover.fills.keepsWays hover.fills.cwd_eq
      (hover.fills.at?_ne_none _) hfresh.located
    have hget := get?_of_locate htarget
    have hfree : (Node.dir entries').LinkFree := fun r text hlink => by
      refine (hcopied r).2 text (at?_eq_link_iff.2 ?_)
      rw [Store.get?_append, hget, Option.bind_some, hlink]
    have hbelow : t.FitBelow q (Path.join base' dir') := by
      intro r hr hat
      refine hwritable r hr fun hnone => hat ?_
      have hsame := (hcopied r).1
      rwa [hnone, Option.map_none, Option.map_eq_none_iff] at hsame
    exact ⟨_, _, discover_eq hdir hto (enterable_of_fitBelow hsource hreadable) hsource,
      discover_eq hdir' (linksToFiles_of_linkFree hfree) (enterable_of_fitBelow htarget hbelow)
        htarget,
      listed_perm_of_isDir (get?_of_locate hsource) hget fun r => (hcopied r).1⟩

/-- A directory with a link to a file elsewhere. -/
def fileLinkStore : Store :=
  let made := [["src"], ["lib"]].foldl Store.putDir Store.empty
  let files := [["src", "main.c"], ["lib", "x.c"]]
  (files.foldl (fun s p => s.putFile p .empty false) made).putLink ["src", "y.c"] "../lib/x.c"

theorem fileLinkStore_mirrored :
    ∃ t, copyTree (Path.join "." "src") (Path.join "." "out") fileLinkStore = (.ok (), t) ∧
      ∃ found : List Place,
        discover "." "out" true t = (.ok (found.map (relativeName ["out"])), t) ∧
        (found.map (relativeName ["src"])).Perm ["src/main.c", "src/y.c"] := by
  have hdir : Path.components "src" = ["src"].map .name := by decide
  have hdir' : Path.components "out" = ["out"].map .name := by decide
  have hsource : fileLinkStore.locate (Path.join "." "src") =
      .ok (["src"], .dir [("main.c", .file .empty false), ("y.c", .link "../lib/x.c")]) := rfl
  have hv := Node.Valid.get? fileLinkStore.valid_root (get?_of_locate hsource)
  have hlinks : LinksResolve fileLinkStore (Path.join "." "src")
      (.dir [("main.c", .file .empty false), ("y.c", .link "../lib/x.c")]) :=
    forall_links_of_descendants hv (by decide)
  have hto : LinksToFiles fileLinkStore (Path.join "." "src")
      (.dir [("main.c", .file .empty false), ("y.c", .link "../lib/x.c")]) :=
    forall_links_of_descendants hv (by decide)
  have hreach : fileLinkStore.reachName (Path.join "." "out") = .ok (.missing ["out"]) := rfl
  obtain ⟨hcopies, hfound⟩ := copyTree_mirrors hdir hdir' hsource hlinks
    (freshTarget_of_missing hreach (by decide) (by decide))
    (fitBelow_of_descendants (get?_of_locate hsource) (by decide +kernel))
    (fitBelow_of_descendants (get?_of_locate hsource) (by decide +kernel))
  obtain ⟨t, hrun⟩ := hcopies.2 hto
  obtain ⟨found, found', hdiscover, hdiscover', hperm⟩ := hfound t hrun
  have hvalue : discover "." "src" true fileLinkStore =
      (.ok ["src/main.c", "src/y.c"], fileLinkStore) := by rfl
  rw [hvalue] at hdiscover
  refine ⟨t, hrun, found', hdiscover', ?_⟩
  rw [Except.ok.inj (Prod.mk.inj hdiscover).1]
  exact hperm.map _

/-- The same directory with a link to a directory besides. -/
def dirLinkStore : Store :=
  fileLinkStore.putLink ["src", "lib"] "../lib"

/-- Discovery goes through the link to a directory, which no copy does. -/
theorem dirLinkStore_not_copied :
    discover "." "src" true dirLinkStore =
        (.ok ["src/main.c", "src/y.c", "src/lib/x.c"], dirLinkStore) ∧
      dirLinkStore.reachName (Path.join "." "out") = .ok (.missing ["out"]) ∧
      ∀ t, copyTree (Path.join "." "src") (Path.join "." "out") dirLinkStore ≠ (.ok (), t) := by
  refine ⟨by rfl, rfl, fun t hrun => ?_⟩
  have hsource : dirLinkStore.locate (Path.join "." "src") = .ok (["src"], .dir
      [("main.c", .file .empty false), ("y.c", .link "../lib/x.c"), ("lib", .link "../lib")]) := rfl
  have hlink : (Node.dir [("main.c", .file .empty false), ("y.c", .link "../lib/x.c"),
      ("lib", .link "../lib")]).get? ["lib"] = some (.link "../lib") := rfl
  rw [copyTree_apply] at hrun
  have hnot := isDir_eq_false_of_copied hrun (.refl _) hsource hlink
  have hdir : dirLinkStore.isDir (["lib"].foldl Path.join (Path.join "." "src")) = true := by decide
  rw [hdir] at hnot
  cases hnot

end Sources

end Autotree
