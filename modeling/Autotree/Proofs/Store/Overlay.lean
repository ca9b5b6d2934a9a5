import Autotree.Proofs.Store.Fills
import Autotree.Proofs.Store.Tree

/-!
# Copies as overlays

A copy of a directory onto one that is apart from it succeeds if every path on both sides fits and
no directory of one of them has the name of a file of the other (`copiesDir_copyLevels`).  It leaves
the target overlaid by the source: at each place below is what the source has there, or else what
was there before.  The
source of a copy is read through links to files, which `followed` does; where no link stands it is
the tree at the place.

`Overlays g done q s t` says this of a part of the places, those that are done.  Its closure under
sequencing carries the copy of a list of entries, and the whole theorem for one level is the
induction hypothesis of the next.
-/

namespace Autotree

namespace Reach

variable {s : Store} {reach : Reach}

theorem item?_eq_at? (h : reach.HoldsIn s) : reach.item? = s.at? reach.place := by
  cases reach with
  | missing place => exact (Store.at?_eq_none_iff.2 h.1).symm
  | found place node =>
    have hnode : s.get? place = some node := h
    rw [item?, Reach.place, Store.at?, hnode, Option.map_some]

end Reach

namespace Store

variable {s t u : Store} {p q place r : Place} {source target path name : String}
  {entries : List (String × Node)} {g : Place → Option Item} {done done' : Place → Prop}
  {item : Item} {content : ByteArray} {executable : Bool}

/-! ## Overlays -/

/-- The places below `q` that are done have what `g` says, or else what they had; all others are as
they were. -/
structure Overlays (g : Place → Option Item) (done : Place → Prop) (q : Place) (s t : Store) :
    Prop where
  fills : Fills q s t
  at?_done : ∀ r, done r → t.at? (q ++ r) = (g r).or (s.at? (q ++ r))
  at?_left : ∀ r, ¬ done r → t.at? (q ++ r) = s.at? (q ++ r)
  /-- What is there already is not changed. -/
  eq_self : (∀ r item, done r → g r = some item → s.at? (q ++ r) = some item) → t = s

namespace Overlays

/-- There is nothing to do where it is done before. -/
theorem refl (h : ∀ r item, done r → g r = some item → s.at? (q ++ r) = some item) :
    Overlays g done q s s where
  fills := .refl s
  at?_done r hr := by
    cases hg : g r with
    | none => rw [Option.none_or]
    | some item => rw [Option.some_or, h r item hr hg]
  at?_left _ _ := rfl
  eq_self _ := rfl

theorem trans (h : Overlays g done q s t) (h' : Overlays g done' q t u) :
    Overlays g (fun r => done r ∨ done' r) q s u where
  fills := h.fills.trans h'.fills
  at?_done r hr := by
    by_cases hr' : done' r
    · rw [h'.at?_done r hr']
      by_cases hfirst : done r
      · rw [h.at?_done r hfirst, ← Option.or_assoc, Option.or_self]
      · rw [h.at?_left r hfirst]
    · rw [h'.at?_left r hr', h.at?_done r (hr.resolve_right hr')]
  at?_left r hr := by
    rw [h'.at?_left r fun hr' => hr (.inr hr'), h.at?_left r fun hr' => hr (.inl hr')]
  eq_self hsame := by
    obtain rfl := h.eq_self fun r item hr => hsame r item (.inl hr)
    exact h'.eq_self fun r item hr => hsame r item (.inr hr)

/-- Places count as done where there is nothing to do. -/
theorem of_none (h : Overlays g done q s t) (hdone : ∀ r, done r → done' r)
    (hnone : ∀ r, done' r → ¬ done r → g r = none) : Overlays g done' q s t where
  fills := h.fills
  at?_done r hr := by
    by_cases hr' : done r
    · exact h.at?_done r hr'
    · rw [h.at?_left r hr', hnone r hr hr', Option.none_or]
  at?_left r hr := h.at?_left r fun hr' => hr (hdone r hr')
  eq_self hsame := h.eq_self fun r item hr => hsame r item (hdone r hr)

/-- What is done for one entry of a directory. -/
theorem of_entry (h : Overlays (fun r => g (name :: r)) (fun _ => True) (q ++ [name]) s t) :
    Overlays g ([name] <+: ·) q s t where
  fills := h.fills.mono
  at?_done := by
    rintro r ⟨r, rfl⟩
    rw [← List.append_assoc, h.at?_done r trivial]
    rfl
  at?_left r hr := h.fills.outside _ fun hpre => hr ((List.prefix_append_right_inj q).1 hpre)
  eq_self hsame := h.eq_self fun r item _ hitem => by
    rw [List.append_assoc]
    exact hsame _ item (List.prefix_append [name] r) hitem

theorem of_makes (h : FileAction.Makes path q s t) (hg : g [] = some .dir) :
    Overlays g (· = []) q s t where
  fills := h.fills
  at?_done := by
    rintro r rfl
    rw [List.append_nil, h.at?_eq, if_pos rfl, hg, Option.some_or]
  at?_left r hr := by
    rw [h.at?_eq, if_neg (by simpa using hr)]
  eq_self hsame := h.eq_self (by simpa using hsame [] .dir rfl hg)

theorem of_putFile {dir : Place} (hdir : s.at? dir = some .dir) (hname : isEntryName name = true)
    (hold : s.at? (dir ++ [name]) = none ∨
      ∃ old mode, s.at? (dir ++ [name]) = some (.file old mode))
    (hg : g [] = some (.file content executable)) (hleaf : ∀ r, r ≠ [] → g r = none) :
    Overlays g (fun _ => True) (dir ++ [name]) s
      (s.putFile (dir ++ [name]) content executable) where
  fills := fills_putFile hdir hname hold content executable
  at?_done r _ := by
    have hbelow : s.at? (dir ++ [name]) ≠ some .dir := by
      rcases hold with hnone | ⟨old, mode, hfile⟩
      · simp [hnone]
      · simp [hfile]
    rw [at?_putFile hdir hname hbelow]
    by_cases hr : r = []
    · rw [if_pos (by simp [hr]), hr, hg, Option.some_or]
    · rw [if_neg (by simpa using hr), hleaf r hr, Option.none_or]
  at?_left r hr := absurd trivial hr
  eq_self hsame := putFile_eq_self (by simpa using hsame [] _ trivial hg)

end Overlays

/-! ## What is read and where it goes -/

/-- What a copy reads at a place in a directory: what stands there, or what the link there leads
to. -/
def followed (s : Store) (path : String) (place r : Place) : Option Item :=
  match s.at? (place ++ r) with
  | some (.link _) =>
    match s.locate (r.foldl Path.join path) with
    | .ok (_, node) => some node.item
    | .error _ => none
  | item? => item?

theorem followed_eq_at? (h : ∀ text, s.at? (place ++ r) ≠ some (.link text)) :
    s.followed path place r = s.at? (place ++ r) := by
  unfold followed
  split
  · next text hlink => exact absurd hlink (h text)
  · rfl

theorem followed_link {text : String} {there : Place} (h : s.at? (place ++ r) = some (.link text))
    (hfile : s.locate (r.foldl Path.join path) = .ok (there, .file content executable)) :
    s.followed path place r = some (.file content executable) := by
  rw [followed, h]
  simp only [hfile]
  rfl

theorem followed_join (path name : String) (place r : Place) :
    s.followed (Path.join path name) (place ++ [name]) r = s.followed path place (name :: r) := by
  rw [followed, followed, List.append_assoc]
  rfl

/-- What is below a place can be named behind a path: every path that comes of joining names to it
fits. -/
def FitBelow (s : Store) (p : Place) (base : String) : Prop :=
  ∀ r, r ≠ [] → s.at? (p ++ r) ≠ none → Fits (r.foldl Path.join base)

namespace FitBelow

variable {base : String}

theorem entry (h : s.FitBelow p base) (hname : s.at? (p ++ [name]) ≠ none) :
    Fits (Path.join base name) :=
  h [name] (List.cons_ne_nil name []) hname

theorem enter (h : s.FitBelow p base) (name : String) :
    s.FitBelow (p ++ [name]) (Path.join base name) := by
  intro r _ hr
  rw [List.append_assoc] at hr
  exact h (name :: r) (List.cons_ne_nil name r) hr

/-- Changes elsewhere name nothing new. -/
theorem of_fills (h : s.FitBelow p base) (hfills : Fills q s t) (hapart : Apart q p) :
    t.FitBelow p base := by
  intro r hr
  have hat : t.at? (p ++ r) = s.at? (p ++ r) :=
    hfills.outside _ (by simpa using hapart.symm.not_prefix_append r [])
  rw [hat]
  exact h r hr

end FitBelow

/-- A directory that is copied to a place apart from it.  Its links lead to files, none of which is
at or below that place. -/
structure CopySource (s : Store) (path : String) (p q : Place) (entries : List (String × Node)) :
    Prop where
  located : s.locate path = .ok (p, .dir entries)
  apart : Apart q p
  fits : s.FitBelow p path
  links : ∀ r text, s.at? (p ++ r) = some (.link text) → ∃ place content executable,
    s.locate (r.foldl Path.join path) = .ok (place, .file content executable) ∧ ¬ q <+: place

namespace CopySource

theorem valid (h : CopySource s path p q entries) : (Node.dir entries).Valid :=
  Node.Valid.get? s.valid_root (get?_of_locate h.located)

theorem at?_entry (h : CopySource s path p q entries) {node : Node} (he : (name, node) ∈ entries) :
    s.at? (p ++ [name]) = some node.item := by
  rw [at?, get?_entry (get?_of_locate h.located), lookup_of_mem h.valid.nodup he, Option.map_some]

theorem fits_entry (h : CopySource s path p q entries) {node : Node} (he : (name, node) ∈ entries) :
    Fits (Path.join path name) :=
  h.fits.entry (by simp [h.at?_entry he])

theorem followed_nil (h : CopySource s path p q entries) : s.followed path p [] = some .dir := by
  have hdir : s.at? (p ++ []) = some .dir := by
    rw [List.append_nil]
    exact at?_eq_dir_iff.2 ⟨entries, get?_of_locate h.located⟩
  rw [followed_eq_at? fun text => by rw [hdir]; exact nofun, hdir]

theorem followed_of_not_mem (h : CopySource s path p q entries)
    (hname : name ∉ entries.map (·.1)) (r : Place) : s.followed path p (name :: r) = none := by
  have hnone := at?_eq_none_of_not_mem (get?_of_locate h.located) hname r
  rw [followed_eq_at? (by simp [hnone]), hnone]

/-- What is read is what stands there, unless it is a link, and then it is a file. -/
theorem followed_or (h : CopySource s path p q entries) (r : Place) :
    s.followed path p r = s.at? (p ++ r) ∨
      ∃ content executable, s.followed path p r = some (.file content executable) := by
  by_cases hlink : ∃ text, s.at? (p ++ r) = some (.link text)
  · obtain ⟨text, hto⟩ := hlink
    obtain ⟨place, content, executable, hfile, -⟩ := h.links r text hto
    exact .inr ⟨content, executable, followed_link hto hfile⟩
  · exact .inl (followed_eq_at? fun text hto => hlink ⟨text, hto⟩)

theorem followed_ne_link (h : CopySource s path p q entries) (r : Place) (text : String) :
    s.followed path p r ≠ some (.link text) := by
  intro hread
  rcases h.followed_or r with hat | ⟨content, executable, hfile⟩
  · obtain ⟨place, content, executable, hfile, -⟩ := h.links r text (hat.symm.trans hread)
    rw [followed_link (hat.symm.trans hread) hfile] at hread
    cases hread
  · rw [hfile] at hread
    cases hread

/-- Changes at and below the target do not reach the source. -/
theorem of_fills (h : CopySource s path p q entries) (hfills : Fills q s t) :
    CopySource t path p q entries where
  located := hfills.locate_dir h.located h.apart
  apart := h.apart
  fits := h.fits.of_fills hfills h.apart
  links r text hlink := by
    obtain ⟨place, content, executable, hlocate, hplace⟩ :=
      h.links r text (hfills.link_of_link _ text hlink)
    exact ⟨place, content, executable, hfills.locate_file hlocate hplace, hplace⟩

theorem followed_of_fills (h : CopySource s path p q entries) (hfills : Fills q s t) :
    t.followed path p = s.followed path p := by
  funext r
  have hat : t.at? (p ++ r) = s.at? (p ++ r) :=
    hfills.outside _ (by simpa using h.apart.symm.not_prefix_append r [])
  by_cases hlink : ∃ text, s.at? (p ++ r) = some (.link text)
  · obtain ⟨text, hto⟩ := hlink
    obtain ⟨place, content, executable, hlocate, hplace⟩ := h.links r text hto
    rw [followed_link (hat.trans hto) (hfills.locate_file hlocate hplace),
      followed_link hto hlocate]
  · have hto : ∀ text, s.at? (p ++ r) ≠ some (.link text) := fun text hto => hlink ⟨text, hto⟩
    rw [followed_eq_at? hto, followed_eq_at? (by rwa [hat]), hat]

/-- A directory in the source. -/
theorem enter (h : CopySource s path p q entries) {sub : List (String × Node)}
    (he : (name, .dir sub) ∈ entries) :
    CopySource s (Path.join path name) (p ++ [name]) (q ++ [name]) sub where
  located := locate_join h.located (h.fits_entry he) (lookup_of_mem h.valid.nodup he)
    fun _ => Node.noConfusion
  apart := h.apart.append [name] [name]
  fits := h.fits.enter name
  links r text hlink := by
    rw [List.append_assoc] at hlink
    obtain ⟨place, content, executable, hlocate, hplace⟩ := h.links (name :: r) text hlink
    exact ⟨place, content, executable, hlocate, fun hpre =>
      hplace ((List.prefix_append q [name]).trans hpre)⟩

end CopySource

/-- A place that what is copied can go to: no link stands there or below, and a directory stands
only where a directory is to be. -/
structure Receives (s : Store) (g : Place → Option Item) (q : Place) : Prop where
  noLink : ∀ r text, s.at? (q ++ r) ≠ some (.link text)
  compatible : ∀ r i j, g r = some i → s.at? (q ++ r) = some j → (i = .dir ↔ j = .dir)

namespace Receives

theorem enter (h : Receives s g q) (name : String) :
    Receives s (fun r => g (name :: r)) (q ++ [name]) where
  noLink r := by
    rw [List.append_assoc]
    exact h.noLink (name :: r)
  compatible r := by
    rw [List.append_assoc]
    exact h.compatible (name :: r)

theorem of_overlays (h : Receives s g q) (hover : Overlays g done q s t) : Receives t g q where
  noLink r text ht := h.noLink r text (hover.fills.link_of_link _ text ht)
  compatible r i j hi hj := by
    by_cases hr : done r
    · rw [hover.at?_done r hr, hi, Option.some_or] at hj
      rw [Option.some.inj hj]
    · rw [hover.at?_left r hr] at hj
      exact h.compatible r i j hi hj

theorem of_dir (h : Receives s g q) (hg : g r = some .dir) :
    s.at? (q ++ r) = none ∨ s.at? (q ++ r) = some .dir := by
  cases hat : s.at? (q ++ r) with
  | none => exact .inl rfl
  | some item => exact .inr (congrArg some ((h.compatible r .dir item hg hat).1 rfl))

theorem of_file (h : Receives s g q) (hg : g r = some (.file content executable)) :
    s.at? (q ++ r) = none ∨ ∃ old mode, s.at? (q ++ r) = some (.file old mode) := by
  cases hat : s.at? (q ++ r) with
  | none => exact .inl rfl
  | some item =>
    cases item with
    | file old mode => exact .inr ⟨old, mode, rfl⟩
    | link text => exact absurd hat (h.noLink r text)
    | dir => exact nomatch (h.compatible r _ _ hg hat).2 rfl

end Receives

end Store

namespace FileAction

open Store Stateful

variable {s t u : Store} {source target name : String} {p q place : Place} {levels : Nat}
  {entries rest : List (String × Node)} {entry : String × Node} {g : Place → Option Item}
  {reach : Reach} {content : ByteArray} {executable : Bool}

/-! ## One level of a copy -/

/-- Copying a directory succeeds where its target can be made, and overlays it by what is read. -/
def CopiesDir (levels : Nat) : Prop :=
  ∀ s u source target p q entries, makeDirs target s = (.ok (), u) →
    CopySource u source p q entries → Receives u (u.followed source p) q →
    (∃ entries, u.locate target = .ok (q, .dir entries)) → u.FitBelow p target →
    (Node.dir entries).height ≤ levels →
    ∃ t, copyLevels levels source target s = (.ok (), t) ∧
      Overlays (u.followed source p) (fun _ => True) q u t

/-- A target whose name is that of a directory or of nothing can be made. -/
theorem CopiesDir.run (hdirs : CopiesDir levels) (hreach : s.reachName target = .ok reach)
    (hsource : CopySource s source p reach.place entries)
    (hreceives : Receives s (s.followed source p) reach.place) (hfits : s.FitBelow p target)
    (hlevels : (Node.dir entries).height ≤ levels) :
    ∃ t, copyLevels levels source target s = (.ok (), t) ∧
      Overlays (s.followed source p) (fun _ => True) reach.place s t := by
  have htop := hreceives.of_dir hsource.followed_nil
  rw [List.append_nil, ← Reach.item?_eq_at? (reachName_holds hreach)] at htop
  obtain ⟨u, hmakes⟩ := makes_of_reachName hreach htop
  have hover : Overlays (s.followed source p) (· = []) reach.place s u :=
    .of_makes hmakes hsource.followed_nil
  have hread := hsource.followed_of_fills hmakes.fills
  have hreceives' := hreceives.of_overlays hover
  rw [← hread] at hreceives'
  obtain ⟨t, hrun, hover'⟩ := hdirs s u source target p reach.place entries hmakes.run
    (hsource.of_fills hmakes.fills) hreceives' hmakes.located
    (hfits.of_fills hmakes.fills hsource.apart) hlevels
  rw [hread] at hover'
  exact ⟨t, hrun, (hover.trans hover').of_none (fun _ _ => trivial)
    fun r _ hr => absurd (.inr trivial) hr⟩

/-- A copy goes on with the entries of the source once the target is made. -/
theorem copyLevels_apply (hmake : makeDirs target s = (.ok (), u))
    (hlocate : u.locate source = .ok (p, .dir entries)) :
    copyLevels (levels + 1) source target s =
      copyEntries (copyLevels levels) source target entries u := by
  rw [copyLevels, bind_ok hmake, bind_ok (list_eq_ok.2 ⟨rfl, p, hlocate⟩)]

section Entries

variable (hg : s.followed source p = g) (hreceives : Receives s g q)
  (htarget : ∃ entries, s.locate target = .ok (q, .dir entries))

include hg hreceives htarget

/-- Copying a file, or what a link leads to. -/
theorem exists_overlays_copyFile (hname : isEntryName name = true)
    (hfits : Fits (Path.join target name))
    (hfile : s.locate (Path.join source name) = .ok (place, .file content executable))
    (hplace : ¬ q <+: place) (hitem : g [name] = some (.file content executable))
    (hleaf : s.at? (p ++ [name]) ≠ some .dir) :
    ∃ t, copyFile (Path.join source name) (Path.join target name) s = (.ok (), t) ∧
      Overlays g ([name] <+: ·) q s t := by
  obtain ⟨below, htarget⟩ := htarget
  obtain ⟨reach, hreach, hreachplace, hreachitem⟩ :=
    (opens_of_locate htarget).reachName_join hname hfits
  have hold := hreceives.of_file hitem
  have hlink : ∀ text, reach.item? ≠ some (.link text) := fun text => by
    rw [hreachitem]
    exact hreceives.noLink [name] text
  have hwrite := reachFile_of_reachName hreach
    (endsInSlash_join_name (isStep_of_isEntryName hname) target) hlink
  refine ⟨_, copyFile_apply hfile hwrite (by rwa [hreachitem]) ?_, ?_⟩
  · rw [hreachplace]
    rintro rfl
    exact hplace (List.prefix_append q [name])
  · rw [hreachplace]
    refine .of_entry (.of_putFile (at?_eq_dir_iff.2 ⟨below, get?_of_locate htarget⟩) hname hold
      hitem fun r hr => ?_)
    -- nothing is below a file, nor below a link
    have hnone : s.at? (p ++ name :: r) = none := by
      rw [List.append_cons]
      exact at?_append_eq_none hr hleaf
    rw [← hg, followed_eq_at? (by simp [hnone]), hnone]

variable (hsource : CopySource s source p q entries) (hfits : s.FitBelow p target)
  (hlevels : (Node.dir entries).height ≤ levels + 1)

include hsource hfits hlevels

theorem exists_overlays_copyEntry (hdirs : CopiesDir levels) (he : entry ∈ entries) :
    ∃ t, copyEntry (copyLevels levels) source target entry s = (.ok (), t) ∧
      Overlays g ([entry.1] <+: ·) q s t := by
  have hheight := Node.height_lt_of_mem he
  obtain ⟨name, node⟩ := entry
  have hname : isEntryName name = true := hsource.valid.isEntryName_of_mem he
  have hlookup := lookup_of_mem hsource.valid.nodup he
  have hat := hsource.at?_entry he
  have hnamed : Fits (Path.join target name) := hfits.entry (by simp [hat])
  unfold copyEntry
  cases node with
  | file content executable =>
    refine exists_overlays_copyFile hg hreceives htarget hname hnamed
      (locate_join hsource.located (hsource.fits_entry he) hlookup fun _ => Node.noConfusion)
      (by simpa using hsource.apart.symm.not_prefix_append [name] []) ?_ (by simp [hat, Node.item])
    rw [← hg, followed_eq_at? (by simp [hat, Node.item]), hat]
    rfl
  | link text =>
    obtain ⟨place, content, executable, hfile, hplace⟩ := hsource.links [name] text hat
    exact exists_overlays_copyFile hg hreceives htarget hname hnamed hfile hplace
      (hg ▸ followed_link hat hfile) (by simp [hat, Node.item])
  | dir sub =>
    obtain ⟨below, htarget⟩ := htarget
    obtain ⟨reach, hreach, hplace, -⟩ := (opens_of_locate htarget).reachName_join hname hnamed
    have hread : s.followed (Path.join source name) (p ++ [name]) = fun r => g (name :: r) := by
      funext r
      rw [followed_join, hg]
    have hsub := hsource.enter he
    have hreceives' := hreceives.enter name
    rw [← hread] at hreceives'
    rw [← hplace] at hsub hreceives'
    obtain ⟨t, hrun, hover⟩ := hdirs.run hreach hsub hreceives' (hfits.enter name)
      (by simp only at hheight; omega)
    rw [hread, hplace] at hover
    exact ⟨t, hrun, .of_entry hover⟩

theorem exists_overlays_copyEntries (hdirs : CopiesDir levels) (hrest : ∀ e ∈ rest, e ∈ entries) :
    ∃ t, copyEntries (copyLevels levels) source target rest s = (.ok (), t) ∧
      Overlays g (fun r => ∃ e ∈ rest, [e.1] <+: r) q s t := by
  induction rest generalizing s with
  | nil => exact ⟨s, rfl, .refl (by simp)⟩
  | cons entry rest ih =>
    obtain ⟨hentry, hothers⟩ := List.forall_mem_cons.1 hrest
    obtain ⟨u, hfirst, hover⟩ :=
      exists_overlays_copyEntry hg hreceives htarget hsource hfits hlevels hdirs hentry
    -- the source is as it was, and the target is still there
    obtain ⟨below, htarget⟩ := htarget
    have htarget' :=
      locate_dir_mono hover.fills.keepsWays hover.fills.cwd_eq (hover.fills.at?_ne_none _) htarget
    obtain ⟨t, hrun, hover'⟩ := ih ((hsource.followed_of_fills hover.fills).trans hg)
      (hreceives.of_overlays hover) htarget' (hsource.of_fills hover.fills)
      (hfits.of_fills hover.fills hsource.apart) hothers
    refine ⟨t, ?_, ?_⟩
    · rw [copyEntries_cons, bind_ok hfirst, hrun]
    · simpa only [List.exists_mem_cons_iff] using hover.trans hover'

/-- Copying all entries of a directory overlays a directory. -/
theorem exists_overlays_copyListed (hdirs : CopiesDir levels) :
    ∃ t, copyEntries (copyLevels levels) source target entries s = (.ok (), t) ∧
      Overlays g (fun _ => True) q s t := by
  obtain ⟨t, hrun, hover⟩ :=
    exists_overlays_copyEntries hg hreceives htarget hsource hfits hlevels hdirs fun _ => id
  obtain ⟨below, htarget⟩ := htarget
  have htop : Overlays g (· = []) q s s := by
    refine .refl ?_
    rintro r item rfl hitem
    rw [← hg, hsource.followed_nil] at hitem
    rw [List.append_nil, ← hitem]
    exact at?_eq_dir_iff.2 ⟨below, get?_of_locate htarget⟩
  refine ⟨t, hrun, (htop.trans hover).of_none (fun _ _ => trivial) fun r _ hr => ?_⟩
  cases r with
  | nil => exact absurd (.inl rfl) hr
  | cons name r =>
    rw [← hg]
    refine hsource.followed_of_not_mem (fun hname => hr (.inr ?_)) r
    obtain ⟨e, he, rfl⟩ := List.mem_map.1 hname
    exact ⟨e, he, List.prefix_append [e.1] r⟩

end Entries

/-- A directory is copied with all its levels. -/
theorem copiesDir_copyLevels (levels : Nat) : CopiesDir levels := by
  induction levels with
  | zero =>
    intro s u source target p q entries hmake hsource hreceives htarget hfits hlevels
    exact absurd hlevels (Nat.not_succ_le_zero _)
  | succ levels ih =>
    intro s u source target p q entries hmake hsource hreceives htarget hfits hlevels
    rw [copyLevels_apply hmake hsource.located]
    exact exists_overlays_copyListed rfl hreceives htarget hsource hfits hlevels ih

/-- A copy succeeds whose target can be made, and overlays it by what is read. -/
theorem exists_overlays_copyTree (hmake : makeDirs target s = (.ok (), u))
    (hsource : CopySource u source p q entries) (hreceives : Receives u (u.followed source p) q)
    (htarget : ∃ entries, u.locate target = .ok (q, .dir entries)) (hfits : u.FitBelow p target)
    (hheight : (Node.dir entries).height < s.height) :
    ∃ t, copyTree source target s = (.ok (), t) ∧
      Overlays (u.followed source p) (fun _ => True) q u t := by
  rw [copyTree_apply]
  exact copiesDir_copyLevels _ s u source target p q entries hmake hsource hreceives htarget hfits
    (by omega)

end FileAction

end Autotree
