import Autotree.Proofs.BuildTree.Clean
import Autotree.Proofs.BuildTree.History
import Autotree.Proofs.Store.Ways

/-!
# Generating and cleaning

Generating changes what is at or below the build directory, and makes the directories that are
missing on the way there; cleaning a build directory that generating made gives the store back, up
to those directories (`clean_undoes_generate`).  A path that goes through its own build directory
before it ends there is no such way: the directory cannot be removed by it
(`clean_leaves_directories`).
-/

namespace Autotree.BuildTree

open Autotree.Action FileAction Machine Stateful Store

variable {m : Manifest} {prepared : Prepared} {σ τ : Machine} {s t u : Store} {cwd : Place}
  {names : List String} {name dir path text : String} {host : Host}

/-! ## What a write changes -/

/-- The entries of a build tree that a write changes. -/
def writtenNames : List String :=
  copiedNames ++ [Layout.configureFile, Layout.makeFile]

theorem keeps_writeAtomic_within (hname : isEntryName name = true) (hmem : name ∈ names)
    (text : String) :
    Keeps (Within names cwd dir) (onStore (writeAtomic (Path.join dir name) text)) := by
  apply keeps_onStore_within
  intro s hfree hcwd
  rcases hwrite : writeAtomic (Path.join dir name) text s with ⟨e | _, t⟩
  · obtain ⟨r, u, place, hensure, hunmoved, hplace⟩ := writeAtomic_error hwrite
    have hway : OnlyWay dir s (ensureDir (parentOf (Path.join dir name)) s).2 :=
      ensureDir_onlyWay hname hfree
    rw [hensure] at hway
    have hdir : place = placeIn cwd dir := by
      rw [hplace (hway.linkFree hfree), placeOf_eq, hway.cwd_eq, hcwd, placeIn_parentOf_join hname]
    refine (confined_of_onlyWay hway hcwd).trans ⟨hunmoved.cwd_eq, ?_, ?_, ?_⟩
    · exact fun q => .inl (hunmoved.at?_eq q)
    · intro q target hlink
      rwa [hunmoved.at?_eq] at hlink
    · intro q hq
      refine hunmoved.get?_eq q fun hpre => ?_
      rw [hdir] at hpre
      exact (hq _ (.inl ⟨name, hmem, List.prefix_refl _⟩)).2 (hpre.trans (List.prefix_append _ _))
  · exact confined_of_replaced hname hmem hfree hcwd hwrite

/-- Replacing the two descriptors. -/
def writeDescriptors (m : Manifest) (configure makefile : String) (g : Generation) :
    Action Generation := do
  onStore (writeAtomic (Path.join m.buildDir Layout.configureFile) configure)
  onStore (writeAtomic (Path.join m.buildDir Layout.makeFile) makefile)
  log .info ("wrote " ++ Layout.configureFile ++ " and " ++ Layout.makeFile)
  return g

/-- What a write does once the sources are copied. -/
def finish (m : Manifest) (prepared : Prepared) : Action Generation := do
  let layout ← discoverLayout m.buildDir
  let configure ← ofExcept .host (Descriptor.configure prepared.project m.build.libs)
  installMacros m.macroDir m.buildDir
  writeDescriptors m configure
    (Descriptor.makefile prepared.project m.build prepared.defines layout)
    ⟨prepared.project, prepared.defines, layout, m.buildDir⟩

theorem write_eq (m : Manifest) (prepared : Prepared) :
    write m prepared = copySources m.root m.buildDir >>= fun _ => finish m prepared := rfl

theorem keeps_writeDescriptors (m : Manifest) (configure makefile : String) (g : Generation) :
    Keeps (Within [Layout.configureFile, Layout.makeFile] cwd m.buildDir)
      (writeDescriptors m configure makefile g) := by
  refine Keeps.bind Within.trans
    (keeps_writeAtomic_within isEntryName_configureFile (by decide) _) fun _ => ?_
  refine Keeps.bind Within.trans
    (keeps_writeAtomic_within isEntryName_makeFile (by decide) _) fun _ => ?_
  exact Keeps.bind Within.trans (keeps_log_within _ _) fun _ => Keeps.pure Within.refl _

theorem keeps_finish (m : Manifest) (prepared : Prepared) :
    Keeps (Within laterNames cwd m.buildDir) (finish m prepared) := by
  refine Keeps.bind Within.trans (fun σ => .of_store_eq (keeps_discoverLayout _ σ)) fun layout => ?_
  refine Keeps.bind Within.trans (fun σ => ?_) fun configure => ?_
  · rw [ofExcept_apply]
    exact .refl σ
  refine Keeps.bind Within.trans (fun σ => (keeps_installMacros _ _ σ).mono (by decide)) fun _ => ?_
  exact fun σ => (keeps_writeDescriptors m _ _ _ σ).mono (by decide)

theorem keeps_write (m : Manifest) (prepared : Prepared) :
    Keeps (Within writtenNames cwd m.buildDir) (write m prepared) :=
  Keeps.bind Within.trans (fun σ => (keeps_copySources _ _ σ).mono (by decide))
    fun _ σ => (keeps_finish m prepared σ).mono (by decide)

/-- Where no link stands, generating changes entries of the build tree, and makes directories on
the way to it. -/
theorem generate_confined (hfree : σ.store.LinkFree) (hhost : host.LeavesFiles) (m : Manifest) :
    Confined (InEntries writtenNames (σ.store.placeOf m.buildDir)) (OnWay σ.store.cwd m.buildDir)
      σ.store (generate m host σ).2.store := by
  rcases generate_store_or_write m hhost σ with hsame | ⟨prepared, τ, hstore, hwrite⟩
  · rw [hsame]
    exact .refl _
  · rw [hwrite, ← hstore, placeOf_eq]
    exact keeps_write m prepared τ (hstore ▸ hfree) rfl

/-! ## The way to a build tree that was made -/

/-- The path comes to the place that it stands for, or below it, with its last step only, and that
is a name. -/
def ComesLast (cwd : Place) (path : String) : Prop :=
  ∃ front last, steps path = front ++ [last] ∧ isEntryName last = true ∧
    ∀ xs, xs <+: front → ¬ placeIn cwd path <+: follow (startOf path cwd) xs

theorem ComesLast.not_prefix (h : ComesLast cwd path) {xs : List String} (hxs : xs <+: steps path)
    (hne : xs ≠ steps path) : ¬ placeIn cwd path <+: follow (startOf path cwd) xs := by
  obtain ⟨front, last, hsteps, -, hbefore⟩ := h
  rw [hsteps] at hxs hne
  exact hbefore xs ((List.prefix_concat_iff.1 hxs).resolve_left hne)

theorem ComesLast.ne_empty (h : ComesLast cwd path) : path ≠ "" := by
  rintro rfl
  obtain ⟨front, last, hsteps, -⟩ := h
  simp [steps_empty] at hsteps

/-- So does every path that ends in a name and never goes up. -/
theorem comesLast_of_not_mem {front : List String} {last : String}
    (hsteps : steps path = front ++ [last]) (hlast : isEntryName last = true) (hup : ".." ∉ front)
    (cwd : Place) : ComesLast cwd path := by
  refine ⟨front, last, hsteps, hlast, ?_⟩
  rintro xs ⟨ys, rfl⟩ hpre
  have hys : ".." ∉ ys := fun hmem => hup (List.mem_append_right _ hmem)
  have hbelow := (prefix_follow hys (follow (startOf path cwd) xs)).length_le
  have hlength := hpre.length_le
  rw [placeIn, hsteps, follow_append, follow_append, follow_cons, follow_nil,
    stepFrom_of_isEntryName hlast, List.length_append, List.length_singleton] at hlength
  omega

/-- Changes below a build tree leave the way to it open. -/
theorem opened_of_confined (hlast : ComesLast cwd dir) (h : Opened cwd dir s)
    (hchange : Confined (InEntries names (placeIn cwd dir)) (OnWay cwd dir) s t) :
    Opened cwd dir t := by
  have hkeep : ∀ ys, ys <+: steps dir → ∀ item, s.at? (follow (startOf dir cwd) ys) = some item →
      t.at? (follow (startOf dir cwd) ys) = some item := by
    intro ys hys item hitem
    refine hchange.at?_eq_some (fun hin => ?_) hitem
    by_cases hall : ys = steps dir
    · obtain ⟨name, -, hpre⟩ := hin
      rw [hall] at hpre
      have hlength := hpre.length_le
      simp only [placeIn, List.length_append, List.length_singleton] at hlength
      omega
    · exact hlast.not_prefix hys hall hin.below
  refine ⟨h.taken, ?_, h.way.mono fun ys hys => hkeep ys hys _⟩
  obtain ⟨item, hitem⟩ := Option.ne_none_iff_exists'.1 h.home
  have hstart := hkeep [] List.nil_prefix item hitem
  rw [follow_nil] at hstart
  rw [hstart]
  exact Option.some_ne_none item

section Opening

variable (hfree : s.LinkFree) (hlast : ComesLast s.cwd dir) (hname : isEntryName name = true)

include hfree hlast hname

/-- Making an entry of a build tree that is missing leaves the tree missing, or opens the way to
it. -/
theorem opens_of_makeDirs_error {e : Failure} (hnone : s.at? (s.placeOf dir) = none)
    (h : makeDirs (Path.join dir name) s = (.error e, t)) :
    t.at? (s.placeOf dir) = none ∨ Opened s.cwd dir t := by
  obtain ⟨hstep, hdot, -⟩ := isEntryName_iff.1 hname
  obtain ⟨parent, dots, hparent, hsteps, hdots⟩ := exists_parent (steps_join_name hstep dir) hdot
  have hstart : startOf parent s.cwd = startOf dir s.cwd := by
    rw [startOf_parent hparent, startOf_join_name hstep]
  have hbefore : ∀ q, BeforeOn s.cwd parent q → ¬ s.placeOf dir <+: q := by
    rintro q ⟨xs, hxs, hne, rfl⟩
    rw [hstart]
    refine hlast.not_prefix (hsteps ▸ hxs.trans (List.prefix_append _ _)) ?_
    intro hall
    rw [hall, hsteps] at hxs hne
    exact hne (hxs.eq_of_length_le (by simp))
  have hne : parent ≠ "" := by
    rintro rfl
    obtain ⟨front, last, hfront, hlastName, -⟩ := hlast
    rw [steps_empty, List.nil_append] at hsteps
    have hmem : last ∈ dots := by rw [← hsteps, hfront]; simp
    exact (isEntryName_iff.1 hlastName).2.1 (hdots last hmem)
  obtain ⟨fuel, hfuel⟩ : ∃ fuel, (Path.join dir name).length = fuel + 1 := by
    refine Nat.exists_eq_add_one.2 (Nat.pos_of_ne_zero fun hzero => ?_)
    exact join_ne_empty hstep.1 (String.length_eq_zero_iff.1 hzero)
  rw [FileAction.makeDirs, ofOutcome_apply, hfuel] at h
  rcases hmakes : s.makeDirs (fuel + 2) (Path.join dir name) with ⟨e' | _, t'⟩
  · rw [hmakes] at h
    cases h
    rcases makeDirs_error hfree hparent hne hmakes with hbounds | ⟨htaken, hopened⟩
    · left
      rcases hbounds.at?_or (s.placeOf dir) with heq | hfalse | ⟨hon, -⟩
      · exact heq.trans hnone
      · exact hfalse.elim
      · exact absurd (List.prefix_refl _) (hbefore _ hon)
    · right
      obtain ⟨-, hhome, hway⟩ := hopened
      rw [hstart] at hhome hway
      refine ⟨not_refused_of_foldl_join (List.forall_mem_singleton.2 hname) hlast.ne_empty htaken,
        hhome, ?_⟩
      rw [hsteps]
      exact wayTo_append.2 ⟨hway, wayTo_of_dots hdots⟩
  · rw [hmakes] at h
    cases h

theorem opens_of_makeDirs_ok (h : makeDirs (Path.join dir name) s = (.ok (), t)) :
    Opened s.cwd dir t := by
  have hstep := isStep_of_isEntryName hname
  rw [FileAction.makeDirs, ofOutcome_apply] at h
  rcases hmakes : s.makeDirs ((Path.join dir name).length + 1) (Path.join dir name) with
    ⟨e' | _, t'⟩
  · rw [hmakes] at h
    cases h
  · rw [hmakes] at h
    cases h
    obtain ⟨htaken, hhome, hway⟩ := opened_of_makeDirs hfree (join_ne_empty hstep.1) hmakes
    rw [startOf_join_name hstep] at hhome hway
    rw [steps_join_name hstep] at hway
    exact ⟨not_refused_of_foldl_join (List.forall_mem_singleton.2 hname) hlast.ne_empty htaken,
      hhome, (wayTo_append.1 hway).1⟩

end Opening

/-- A write into a build tree that is missing leaves it missing, or opens the way to it. -/
theorem opens_of_write (hfree : σ.store.LinkFree) (hlast : ComesLast σ.store.cwd m.buildDir)
    (hnone : σ.store.at? (σ.store.placeOf m.buildDir) = none) (prepared : Prepared) :
    (write m prepared σ).2.store.at? (σ.store.placeOf m.buildDir) = none ∨
      Opened σ.store.cwd m.buildDir (write m prepared σ).2.store := by
  have hsource : isEntryName Layout.sourceDir = true := by decide
  rw [write_eq]
  by_cases hdir : σ.store.isDir (Path.join m.root Layout.sourceDir) = true
  · have hcopies : copySources m.root m.buildDir σ = mirror m.root m.buildDir σ := by
      rw [copySources_apply, if_pos hdir]
    have hcopy := onStore_apply (copyTree (Path.join m.root Layout.sourceDir)
      (Path.join m.buildDir Layout.sourceDir)) σ
    rw [copyTree_apply] at hcopy
    rcases copyLevels_begins σ.store.cwd (σ.store.height + pathLimit)
      (Path.join m.root Layout.sourceDir) (Path.join m.buildDir Layout.sourceDir) σ.store with
      ⟨e, hstop⟩ | ⟨e, t, hmake, hstop⟩ | ⟨t, hmake, hrest⟩
    · rw [hstop] at hcopy
      rw [bind_error (hcopies.trans (bind_error hcopy))]
      exact .inl hnone
    · rw [hstop] at hcopy
      rw [bind_error (hcopies.trans (bind_error hcopy))]
      exact opens_of_makeDirs_error hfree hlast hsource hnone hmake
    · right
      -- from the directory that was made on, everything is confined to entries of the tree
      have hcopied : Within writtenNames σ.store.cwd m.buildDir { σ with store := t }
          (onStore (copyTree (Path.join m.root Layout.sourceDir)
            (Path.join m.buildDir Layout.sourceDir)) σ).2 := by
        rw [hcopy]
        generalize copyLevels _ _ _ σ.store = run at hrest ⊢
        exact bounded_of_join hsource (by decide) hrest
      have hall : Within writtenNames σ.store.cwd m.buildDir { σ with store := t }
          (write m prepared σ).2 := by
        refine Keeps.bind_from id Within.trans ?_ fun _ τ =>
          (keeps_finish m prepared τ).mono (by decide)
        rw [hcopies]
        exact Keeps.bind_from id Within.trans hcopied fun _ τ =>
          (keeps_mirrorHeaders _ _ τ).mono (by decide)
      have hmade := FileAction.makeDirs_confined (T := fun _ => False)
        (Path.join m.buildDir Layout.sourceDir) σ.store
      rw [hmake] at hmade
      exact opened_of_confined hlast (opens_of_makeDirs_ok hfree hlast hsource hmake)
        (hall (hmade.linkFree hfree) hmade.cwd_eq)
  · have hstop : copySources m.root m.buildDir σ =
        (.error (.sourceNotFound (Path.join m.root Layout.sourceDir)), σ) := by
      rw [copySources_apply, if_neg hdir]
    rw [bind_error hstop]
    exact .inl hnone

/-! ## Cleaning up -/

theorem at?_of_opened (h : Opened s.cwd path s) (hlast : ComesLast s.cwd path) :
    s.at? (s.placeOf path) = some .dir := by
  obtain ⟨front, last, hsteps, hname, -⟩ := hlast
  have hway := h.way
  rw [hsteps] at hway
  rw [placeOf, hsteps, follow_append]
  exact ((wayTo_append.1 hway).2.1 hname).1

/-- A path with an open way leads to its directory, whatever becomes of a link or a slash at its
end. -/
theorem reachFrom_of_opened (h : Opened s.cwd path s) (hlast : ComesLast s.cwd path)
    (slash : Bool) :
    ∃ entries, s.reachFrom false linkLimit slash (startOf path s.cwd) (steps path) =
      .ok (.found (s.placeOf path) (.dir entries)) := by
  obtain ⟨found, hfound, hreach⟩ :=
    h.way.reachFrom_eq false linkLimit slash (fun _ => isStep_of_mem_steps) h.home
  obtain ⟨entries, hentries⟩ := at?_eq_dir_iff.1 (at?_of_opened h hlast)
  rw [placeOf] at hentries ⊢
  rw [hentries] at hfound
  cases hfound
  exact ⟨entries, hreach⟩

theorem reach_of_opened (h : Opened s.cwd path s) (hlast : ComesLast s.cwd path) :
    ∃ entries, s.reach false path = .ok (.found (s.placeOf path) (.dir entries)) := by
  rw [Store.reach, if_neg h.taken]
  exact reachFrom_of_opened h hlast _

/-- Emptying the directory leaves the way to it open. -/
theorem opened_putDir (h : Opened s.cwd path s) (hlast : ComesLast s.cwd path) :
    Opened s.cwd path (s.putDir (s.placeOf path)) := by
  have hempty := at?_putDir_tree (at?_of_opened h hlast)
  have hkeep : ∀ ys, ys <+: steps path →
      (s.putDir (s.placeOf path)).at? (follow (startOf path s.cwd) ys) =
        s.at? (follow (startOf path s.cwd) ys) := by
    intro ys hys
    rw [hempty, if_neg]
    rintro ⟨hpre, hne⟩
    exact hlast.not_prefix hys (fun hall => hne (by rw [hall]; rfl)) hpre
  refine ⟨h.taken, ?_, h.way.mono fun ys hys hdir => (hkeep ys hys).trans hdir⟩
  have hstart := hkeep [] List.nil_prefix
  rw [follow_nil] at hstart
  rw [hstart]
  exact h.home

/-- A directory with an open way is removed with everything below it. -/
theorem removeAll_of_opened (hlast : ComesLast s.cwd path) (h : Opened s.cwd path s) :
    s.removeAll path = (.ok (), (s.putDir (s.placeOf path)).erase (s.placeOf path)) := by
  have hplace : (s.putDir (s.placeOf path)).placeOf path = s.placeOf path := by
    rw [placeOf_eq, placeOf_eq, cwd_putDir]
  obtain ⟨entries, hreach⟩ := reach_of_opened h hlast
  obtain ⟨entries', hreach'⟩ := reachFrom_of_opened (s := s.putDir (s.placeOf path))
    (by rw [cwd_putDir]; exact opened_putDir h hlast) (by rw [cwd_putDir]; exact hlast) false
  have hremove : (s.putDir (s.placeOf path)).removeEmptied path =
      .ok ((s.putDir (s.placeOf path)).erase (s.placeOf path)) := by
    obtain ⟨front, last, hsteps, hname, -⟩ := hlast
    obtain ⟨-, hdot, hup⟩ := isEntryName_iff.1 hname
    have hreachName : (s.putDir (s.placeOf path)).reachName path =
        .ok (.found (s.placeOf path) (.dir entries')) := by
      rw [reachName, if_neg h.taken, hreach', hplace]
    rw [removeEmptied, hsteps, List.getLast?_concat]
    simp only [if_neg hdot, if_neg hup, hreachName]
  rw [removeAll, hreach]
  simp only [hremove]

theorem clean_of_none (hfree : σ.store.LinkFree)
    (hnone : σ.store.at? (σ.store.placeOf m.buildDir) = none) :
    (clean m σ).1 = .ok none ∧ (clean m σ).2.store = σ.store := by
  refine clean_of_not_exists ?_
  rw [exists?]
  rcases hlocate : σ.store.locate m.buildDir with e | ⟨place, node⟩
  · rfl
  · rw [at?_eq_none_iff, get?_placeOf_of_locate hfree hlocate] at hnone
    cases hnone

theorem clean_of_opened (hlast : ComesLast σ.store.cwd m.buildDir)
    (h : Opened σ.store.cwd m.buildDir σ.store) :
    (clean m σ).1 = .ok (some m.buildDir) ∧ (clean m σ).2.store.cwd = σ.store.cwd ∧
      ∀ q, (clean m σ).2.store.at? q =
        if σ.store.placeOf m.buildDir <+: q then none else σ.store.at? q := by
  have hdir := at?_of_opened h hlast
  have hplace : σ.store.placeOf m.buildDir ≠ [] := by
    obtain ⟨front, last, hsteps, hname, -⟩ := hlast
    rw [placeOf, hsteps, follow_append, follow_cons, follow_nil, stepFrom_of_isEntryName hname]
    exact List.append_ne_nil_of_right_ne_nil _ (List.cons_ne_nil _ _)
  obtain ⟨entries, hreach⟩ := reach_of_opened h hlast
  have hexists : σ.store.exists? m.buildDir = true := by
    rw [exists?, locate_of_reach hreach]
    rfl
  obtain ⟨hresult, hstore⟩ := clean_of_exists hexists
  rw [removeAll_of_opened hlast h] at hresult hstore
  refine ⟨hresult, by rw [hstore]; simp, ?_⟩
  intro q
  have htop : (σ.store.putDir (σ.store.placeOf m.buildDir)).at? (σ.store.placeOf m.buildDir) =
      some .dir := by
    rw [at?_putDir_tree hdir, if_neg fun hboth => hboth.2 rfl, hdir]
  rw [hstore, at?_erase_tree htop hplace, at?_putDir_tree hdir]
  split
  · rfl
  · next hout => rw [if_neg fun hboth => hout hboth.1]

/-- A build tree that is missing is still missing after generating, or the way to it is open. -/
theorem opens_of_generate (hfree : σ.store.LinkFree) (hhost : host.LeavesFiles)
    (hlast : ComesLast σ.store.cwd m.buildDir)
    (hnone : σ.store.at? (σ.store.placeOf m.buildDir) = none) :
    (generate m host σ).2.store.at? (σ.store.placeOf m.buildDir) = none ∨
      Opened σ.store.cwd m.buildDir (generate m host σ).2.store := by
  rcases generate_store_or_write m hhost σ with hsame | ⟨prepared, τ, hstore, hwrite⟩
  · rw [hsame]
    exact .inl hnone
  · rw [hwrite]
    rw [← hstore] at hfree hlast hnone ⊢
    exact opens_of_write hfree hlast hnone prepared

/-- Generating changes what is at or below the build directory, and makes directories that its path
leads through.  If nothing was there and the path comes there only at its end, cleaning gives the
store back, up to those directories, and tells whether there was a build directory; cleaning again
finds nothing.  A file has one place: one that is also known under a name outside of the build
directory is not among these stores. -/
theorem clean_undoes_generate (m : Manifest) (host : Host) (σ : Machine)
    (hfree : σ.store.LinkFree) (hhost : host.LeavesFiles) :
    let tree := σ.store.placeOf m.buildDir
    let τ := (generate m host σ).2
    let υ := (clean m τ).2
    (∀ q, τ.store.at? q = σ.store.at? q ∨ tree <+: q ∨
      OnWay σ.store.cwd m.buildDir q ∧ Made σ.store τ.store q) ∧
    (σ.store.at? tree = none → ComesLast σ.store.cwd m.buildDir →
      (∀ q, υ.store.at? q = σ.store.at? q ∨
        ¬ tree <+: q ∧ OnWay σ.store.cwd m.buildDir q ∧ Made σ.store υ.store q) ∧
      (clean m τ).1 = .ok (if τ.store.at? tree = none then none else some m.buildDir) ∧
      (clean m υ).1 = .ok none ∧ (clean m υ).2.store = υ.store) := by
  intro tree τ υ
  have hchange := generate_confined hfree hhost m
  have hframe : ∀ q, τ.store.at? q = σ.store.at? q ∨ tree <+: q ∨
      OnWay σ.store.cwd m.buildDir q ∧ Made σ.store τ.store q := by
    intro q
    rcases hchange.at?_or q with heq | hin | hmade
    · exact .inl heq
    · exact .inr (.inl hin.below)
    · exact .inr (.inr hmade)
  refine ⟨hframe, fun hnone hlast => ?_⟩
  have hcwd : τ.store.cwd = σ.store.cwd := hchange.cwd_eq
  have hfree' : τ.store.LinkFree := hchange.linkFree hfree
  have hplace : τ.store.placeOf m.buildDir = tree := by rw [placeOf_eq, hcwd]; rfl
  -- what was cleaned is the tree, as far as there is one
  have hcleaned : (clean m τ).1 =
        .ok (if τ.store.at? tree = none then none else some m.buildDir) ∧
      υ.store.cwd = σ.store.cwd ∧
      ∀ q, υ.store.at? q = if tree <+: q then none else τ.store.at? q := by
    rcases opens_of_generate hfree hhost hlast hnone with hmissing | hopen
    · obtain ⟨hresult, hstore⟩ := clean_of_none (m := m) hfree' (by rw [hplace]; exact hmissing)
      refine ⟨by rw [hresult, if_pos hmissing], (congrArg Store.cwd hstore).trans hcwd, ?_⟩
      intro q
      rw [show υ.store = τ.store from hstore]
      split
      · next hin => exact at?_eq_none_of_prefix hmissing hin
      · rfl
    · rw [← hcwd] at hlast hopen
      obtain ⟨hresult, hcwd', hat⟩ := clean_of_opened hlast hopen
      rw [hplace] at hat
      have hdir := at?_of_opened hopen hlast
      rw [hplace] at hdir
      refine ⟨by rw [hresult, hdir]; rfl, hcwd'.trans hcwd, hat⟩
  obtain ⟨hresult, hcwd', hat⟩ := hcleaned
  have hgone : υ.store.at? (υ.store.placeOf m.buildDir) = none := by
    rw [placeOf_eq, hcwd', ← placeOf_eq, hat, if_pos (List.prefix_refl _)]
  have hfree'' : υ.store.LinkFree := by
    intro q target hlink
    rw [hat] at hlink
    split at hlink
    · cases hlink
    · exact hfree' q target hlink
  refine ⟨?_, hresult, clean_of_none hfree'' hgone⟩
  intro q
  by_cases hin : tree <+: q
  · left
    rw [hat, if_pos hin, at?_eq_none_of_prefix hnone hin]
  · have hsame : υ.store.at? q = τ.store.at? q := by rw [hat, if_neg hin]
    rcases hframe q with heq | hbelow | ⟨hway, hbefore, hafter⟩
    · exact .inl (hsame.trans heq)
    · exact absurd hbelow hin
    · exact .inr ⟨hin, hway, hbefore, hsame.trans hafter⟩

theorem comesLast_small : ComesLast smallStore.cwd smallManifest.buildDir := by
  have hsteps : steps smallManifest.buildDir = ["p"] ++ ["build"] := by decide
  exact comesLast_of_not_mem hsteps (by decide) (by decide) _

theorem clean_undoes_small_generate :
    smallStore.LinkFree ∧ readyHost.LeavesFiles ∧
    smallStore.at? (smallStore.placeOf smallManifest.buildDir) = none ∧
    ComesLast smallStore.cwd smallManifest.buildDir ∧
    (∀ q, (clean smallManifest (generate smallManifest readyHost smallMachine).2).2.store.at? q =
        smallStore.at? q ∨
      ¬ smallStore.placeOf smallManifest.buildDir <+: q ∧
        OnWay smallStore.cwd smallManifest.buildDir q ∧
        Made smallStore
          (clean smallManifest (generate smallManifest readyHost smallMachine).2).2.store q) ∧
    (clean smallManifest (generate smallManifest readyHost smallMachine).2).1 =
      .ok (some "/p/build") := by
  have hfree : smallStore.LinkFree := by decide +kernel
  have hnone : smallStore.at? (smallStore.placeOf smallManifest.buildDir) = none := by
    decide +kernel
  obtain ⟨-, hround⟩ :=
    clean_undoes_generate smallManifest readyHost smallMachine hfree leavesFiles_readyHost
  obtain ⟨hback, hresult, -⟩ := hround hnone comesLast_small
  refine ⟨hfree, leavesFiles_readyHost, hnone, comesLast_small, hback, hresult.trans ?_⟩
  rw [if_neg (by decide +kernel)]
  decide +kernel

/-- The small project with a path to its build tree that leads astray first, and through the tree
itself at its end. -/
def strayManifest : Manifest :=
  { smallManifest with build := { buildDir := "gone/../build/." } }

/-- A directory that is made on a way is not always above the build tree, and one whose path does
not end in its name stays behind. -/
theorem clean_leaves_directories :
    let tree := smallStore.placeOf strayManifest.buildDir
    let τ := (generate strayManifest readyHost smallMachine).2
    let υ := (clean strayManifest τ).2
    smallStore.LinkFree ∧ smallStore.at? tree = none ∧
    (∀ path ∈ [Path.join strayManifest.root Layout.sourceDir,
        Path.join strayManifest.root Layout.includeDir, strayManifest.macroDir],
      Apart (smallStore.placeOf path) tree) ∧
    (¬ ∀ q, τ.store.at? q = smallStore.at? q ∨ tree <+: q ∨ q <+: tree) ∧
    ¬ ∀ q, υ.store.at? q = smallStore.at? q ∨ q <+: tree ∧ q ≠ tree := by
  intro tree τ υ
  refine ⟨by decide +kernel, by decide +kernel, by unfold Apart; decide +kernel, ?_, ?_⟩
  · intro h
    have hgone := h ["p", "gone"]
    revert hgone
    decide +kernel
  · intro h
    have hbuild := h ["p", "build"]
    revert hbuild
    decide +kernel

end Autotree.BuildTree
