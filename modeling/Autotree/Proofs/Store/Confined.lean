import Autotree.Proofs.Action
import Autotree.Proofs.Store.LinkFree

/-!
# Changes within bounds

`Confined T W s t` bounds a change of the store: what stands somewhere is the same before and
after, except at the places in `T`, and except for new directories at the places in `W`.  The
relation is closed under sequencing, so an action is confined as soon as its steps are.  Making a
directory with its ancestors is confined to new directories, which the first steps of the path
name unless a link leads away from them (`makeDirs_confined`).
-/

namespace Autotree

namespace Store

variable {T T' W W' : Place → Prop} {s t u : Store} {p q dir place : Place} {name path : String}
  {item : Item}

/-- A directory that stands in the second store where nothing stands in the first. -/
def Made (s t : Store) (place : Place) : Prop :=
  s.at? place = none ∧ t.at? place = some .dir

/-- The change from `s` to `t` is confined to the places in `T` and to new directories in `W`. -/
structure Confined (T W : Place → Prop) (s t : Store) : Prop where
  cwd_eq : t.cwd = s.cwd
  at?_or : ∀ q, t.at? q = s.at? q ∨ T q ∨ (W q ∧ Made s t q)
  /-- No link is added. -/
  link_of_link : ∀ q target, t.at? q = some (.link target) → s.at? q = some (.link target)
  /-- A tree that no change can reach is the same, with the order of its listings. -/
  get?_eq : ∀ q, (∀ c, T c ∨ (W c ∧ Made s t c) → ¬ c <+: q ∧ ¬ q <+: c) → t.get? q = s.get? q

namespace Confined

theorem refl (s : Store) : Confined T W s s :=
  ⟨rfl, fun _ => .inl rfl, fun _ _ => id, fun _ _ => rfl⟩

theorem mono (h : Confined T W s t) (hT : ∀ q, T q → T' q) (hW : ∀ q, W q → W' q ∨ T' q) :
    Confined T' W' s t where
  cwd_eq := h.cwd_eq
  at?_or q := by
    rcases h.at?_or q with h | h | ⟨h, hmade⟩
    · exact .inl h
    · exact .inr (.inl (hT q h))
    · rcases hW q h with h | h
      · exact .inr (.inr ⟨h, hmade⟩)
      · exact .inr (.inl h)
  link_of_link := h.link_of_link
  get?_eq q hq := by
    refine h.get?_eq q fun c hc => hq c ?_
    rcases hc with hc | ⟨hc, hmade⟩
    · exact .inl (hT c hc)
    · rcases hW c hc with hc | hc
      · exact .inr ⟨hc, hmade⟩
      · exact .inl hc

theorem trans (h : Confined T W s t) (h' : Confined T W t u) : Confined T W s u where
  cwd_eq := h'.cwd_eq.trans h.cwd_eq
  at?_or q := by
    rcases h.at?_or q with h | h | ⟨hW, hs, ht⟩
    · rcases h'.at?_or q with h' | h' | ⟨hW, ht, hu⟩
      · exact .inl (h'.trans h)
      · exact .inr (.inl h')
      · exact .inr (.inr ⟨hW, h ▸ ht, hu⟩)
    · exact .inr (.inl h)
    · rcases h'.at?_or q with h' | h' | ⟨-, ht', -⟩
      · exact .inr (.inr ⟨hW, hs, h'.trans ht⟩)
      · exact .inr (.inl h')
      · rw [ht] at ht'
        cases ht'
  link_of_link q target hu := h.link_of_link q target (h'.link_of_link q target hu)
  get?_eq q hq := by
    -- a directory that the first change made, the second one left or reached itself
    have ht : t.get? q = s.get? q := by
      refine h.get?_eq q fun c hc => ?_
      rcases hc with hc | ⟨hW, hs, ht⟩
      · exact hq c (.inl hc)
      · rcases h'.at?_or c with h' | h' | ⟨-, ht', -⟩
        · exact hq c (.inr ⟨hW, hs, h'.trans ht⟩)
        · exact hq c (.inl h')
        · rw [ht] at ht'
          cases ht'
    have hu : u.get? q = t.get? q := by
      refine h'.get?_eq q fun c hc => ?_
      rcases hc with hc | ⟨hW, ht, hu⟩
      · exact hq c (.inl hc)
      · rcases h.at?_or c with h | h | ⟨-, -, ht'⟩
        · exact hq c (.inr ⟨hW, h ▸ ht, hu⟩)
        · exact hq c (.inl h)
        · rw [ht] at ht'
          cases ht'
    exact hu.trans ht

/-- A change of what stands at one place is confined to it. -/
theorem of_place {item? : Option Item} (hcwd : t.cwd = s.cwd)
    (hat : ∀ q, t.at? q = if q = place then item? else s.at? q)
    (hlink : ∀ target, item? ≠ some (.link target))
    (hget : ∀ q, ¬ place <+: q → ¬ q <+: place → t.get? q = s.get? q)
    (hplace : T place ∨ W place ∧ Made s t place) : Confined T W s t where
  cwd_eq := hcwd
  at?_or q := by
    rw [hat]
    split
    · next heq =>
      subst heq
      exact .inr hplace
    · exact .inl rfl
  link_of_link q target h := by
    rw [hat] at h
    split at h
    · exact absurd h (hlink target)
    · exact h
  get?_eq q hq := (hq place hplace).elim (hget q)

theorem linkFree (h : Confined T W s t) (hfree : s.LinkFree) : t.LinkFree :=
  fun q target ht => hfree q target (h.link_of_link q target ht)

/-- What stands outside the bounds stays. -/
theorem at?_eq_some (h : Confined T W s t) (hT : ¬ T q) (hs : s.at? q = some item) :
    t.at? q = some item := by
  rcases h.at?_or q with h | h | ⟨-, hnone, -⟩
  · exact h.trans hs
  · exact absurd h hT
  · rw [hs] at hnone
    cases hnone

end Confined

/-! ## Single changes -/

section Changes

variable (hdir : s.at? dir = some .dir) (hname : isEntryName name = true)

include hdir hname

theorem putDir_confined (hnone : s.at? (dir ++ [name]) = none) (hW : W (dir ++ [name])) :
    Confined T W s (s.putDir (dir ++ [name])) := by
  have hbelow : s.at? (dir ++ [name]) ≠ some .dir := by simp [hnone]
  have hat := at?_putDir hdir hname hbelow
  have hmade : Made s (s.putDir (dir ++ [name])) (dir ++ [name]) :=
    ⟨hnone, by rw [hat, if_pos rfl]⟩
  exact .of_place (cwd_putDir _) hat nofun (fun _ => get?_put_of_apart _) (.inr ⟨hW, hmade⟩)

variable (hbelow : s.at? (dir ++ [name]) ≠ some .dir) (hT : T (dir ++ [name]))

include hbelow hT

theorem putFile_confined (content : ByteArray) (executable : Bool) :
    Confined T W s (s.putFile (dir ++ [name]) content executable) :=
  .of_place (cwd_putFile ..) (at?_putFile hdir hname hbelow content executable) nofun
    (fun _ => get?_put_of_apart _) (.inl hT)

theorem erase_confined : Confined T W s (s.erase (dir ++ [name])) :=
  .of_place (cwd_erase _) (at?_erase hdir hname hbelow) nofun (fun _ => get?_erase_of_apart)
    (.inl hT)

end Changes

/-! ## Making directories -/

theorem makeDir_eq_ok (h : s.makeDir path = .ok t) :
    ∃ place, s.reachName path = .ok (.missing place) ∧ t = s.putDir place := by
  unfold makeDir at h
  split at h
  · cases h
  · cases h
  · next place hreach =>
    cases h
    exact ⟨place, hreach, rfl⟩

/-- The places where a path may need new directories: those on its way, unless links lead away. -/
def OnWayOf (s : Store) (path : String) (place : Place) : Prop :=
  s.LinkFree → OnWay s.cwd path place

theorem makeDir_confined (h : s.makeDir path = .ok t) : Confined T (s.OnWayOf path) s t := by
  obtain ⟨place, hreach, rfl⟩ := makeDir_eq_ok h
  obtain ⟨hnone, dir, name, rfl, hname, hdir⟩ := reachName_holds hreach
  refine putDir_confined hdir hname (at?_eq_none_iff.2 hnone) fun hfree => ?_
  have hplace : dir ++ [name] = s.placeOf path := reachName_place hfree hreach
  rw [hplace]
  exact onWay_placeIn s.cwd path

theorem makeDirs_confined (s : Store) (fuel : Nat) (path : String) :
    Confined T (s.OnWayOf path) s (s.makeDirs fuel path).2 := by
  induction fuel generalizing s path with
  | zero => exact .refl s
  | succ fuel ih =>
    rw [makeDirs]
    split
    · exact .refl s
    · split
      · next hmake => exact makeDir_confined hmake
      · split
        · exact .refl s
        · next parent hparent =>
          have hway : Confined T (s.OnWayOf path) s (s.makeDirs fuel parent).2 :=
            (ih s parent).mono (fun _ => id) fun q hq => .inl fun hfree =>
              (hq hfree).of_parent hparent
          split
          · next t hmakes =>
            rw [hmakes] at hway
            exact hway
          · next t hmakes =>
            rw [hmakes] at hway
            split
            · next u hmake =>
              refine hway.trans ((makeDir_confined hmake).mono (fun _ => id) fun q hq => .inl ?_)
              intro hfree
              rw [← hway.cwd_eq]
              exact hq (hway.linkFree hfree)
            · split <;> exact hway
      · split <;> exact .refl s

/-- A directory that was made with its ancestors was made last, or was there by then. -/
theorem makeDirs_eq_ok {fuel : Nat} (hpath : path ≠ "")
    (h : s.makeDirs (fuel + 1) path = (.ok (), t)) :
    ∃ u, u.cwd = s.cwd ∧ (s.LinkFree → u.LinkFree) ∧
      (u.makeDir path = .ok t ∨ u.isDir path = true ∧ t = u) := by
  rw [makeDirs, if_neg hpath] at h
  split at h
  · next hmake =>
    cases h
    exact ⟨s, rfl, id, .inl hmake⟩
  · split at h
    · cases h
    · next parent hparent =>
      split at h
      · cases h
      · next u hmakes =>
        have hway := s.makeDirs_confined fuel parent (T := fun _ => False)
        rw [hmakes] at hway
        refine ⟨u, hway.cwd_eq, hway.linkFree, ?_⟩
        split at h
        · next hmake =>
          cases h
          exact .inl hmake
        · split at h
          · next hdir =>
            cases h
            exact .inr ⟨hdir, rfl⟩
          · cases h
  · split at h
    · next hdir =>
      cases h
      exact ⟨s, rfl, id, .inr ⟨hdir, rfl⟩⟩
    · cases h

/-- A path over something that is missing is one that the system takes. -/
theorem not_refused_of_makeDir (hpath : path ≠ "") (h : s.makeDir path = .error .noEntry) :
    ¬ Refused path := by
  intro hrefused
  rw [makeDir, reachName, if_pos hrefused, refusal, if_neg hpath] at h
  cases h

/-- Where a directory could not be made, nothing changed but by making the one above it. -/
theorem makeDirs_eq_error {fuel : Nat} {e : Errno}
    (h : s.makeDirs (fuel + 1) path = (.error e, t)) :
    t = s ∨ ¬ Refused path ∧ ∃ parent, Path.parent? path = some parent ∧
      (s.makeDirs fuel parent = (.error e, t) ∨ s.makeDirs fuel parent = (.ok (), t)) := by
  rw [makeDirs] at h
  split at h
  · cases h
  next hpath =>
  · split at h
    · cases h
    · next hmake =>
      have htaken := not_refused_of_makeDir hpath hmake
      split at h
      · cases h
        exact .inl rfl
      · next parent hparent =>
        split at h
        · next u hmakes =>
          cases h
          exact .inr ⟨htaken, parent, hparent, .inl hmakes⟩
        · next u hmakes =>
          split at h
          · cases h
          · split at h
            · cases h
            · cases h
              exact .inr ⟨htaken, parent, hparent, .inr hmakes⟩
    · split at h
      · cases h
      · cases h
        exact .inl rfl

theorem at?_of_makeDir (hfree : s.LinkFree) (h : s.makeDir path = .ok t) :
    t.at? (s.placeOf path) = some .dir := by
  obtain ⟨place, hreach, rfl⟩ := makeDir_eq_ok h
  obtain ⟨hnone, dir, name, rfl, hname, hdir⟩ := reachName_holds hreach
  have hplace : dir ++ [name] = s.placeOf path := reachName_place hfree hreach
  rw [← hplace, at?_putDir hdir hname (by simp [at?, hnone]), if_pos rfl]

/-- Where no link stands, a directory that was made is at the place that its path names. -/
theorem at?_of_makeDirs {fuel : Nat} (hfree : s.LinkFree) (hpath : path ≠ "")
    (h : s.makeDirs (fuel + 1) path = (.ok (), t)) : t.at? (s.placeOf path) = some .dir := by
  obtain ⟨u, hcwd, hlinks, hlast⟩ := makeDirs_eq_ok hpath h
  have hplace : s.placeOf path = u.placeOf path := by rw [placeOf_eq, placeOf_eq, hcwd]
  rw [hplace]
  rcases hlast with hmake | ⟨hdir, rfl⟩
  · exact at?_of_makeDir (hlinks hfree) hmake
  · exact at?_placeOf_of_isDir (hlinks hfree) hdir

end Store

namespace FileAction

open Store

variable {T : Place → Prop} {s t : Store} {path : String}

theorem ofOutcome_apply (context : String) (run : Store → Except Errno Unit × Store) (s : Store) :
    ofOutcome context run s =
      ((run s).1.mapError fun e => .file context (.system e), (run s).2) := by
  unfold ofOutcome
  rcases run s with ⟨e | _, t⟩ <;> rfl

theorem makeDirs_confined (path : String) (s : Store) :
    Confined T (s.OnWayOf path) s (makeDirs path s).2 := by
  rw [makeDirs, ofOutcome_apply]
  exact s.makeDirs_confined (path.length + 1) path

theorem at?_of_makeDirs (hfree : s.LinkFree) (hpath : path ≠ "")
    (h : makeDirs path s = (.ok (), t)) : t.at? (s.placeOf path) = some .dir := by
  rw [makeDirs, ofOutcome_apply] at h
  rcases hmakes : s.makeDirs (path.length + 1) path with ⟨e | _, u⟩
  · rw [hmakes] at h
    cases h
  · rw [hmakes] at h
    cases h
    exact s.at?_of_makeDirs hfree hpath hmakes

theorem ensureDir_confined (path : String) (s : Store) :
    Confined T (s.OnWayOf path) s (ensureDir path s).2 := by
  unfold ensureDir
  rw [Stateful.get_bind]
  split
  · exact .refl s
  · exact makeDirs_confined path s

end FileAction

end Autotree
