import CircuitFixtures.Proofs.Files.Following

/-!
# What is written can be read

A file that is written is read back at the same path (`FileTree.read_write`), and written a second
time it leaves the tree as it is (`FileTree.write_again`). The directories around a path are there
once they have been made (`FileTree.isDirectory_makePath`), and making them again does nothing
(`FileTree.makePath_of_isDirectory`). Writing takes no directory away (`FileTree.kept_write`).
-/

namespace CircuitFixtures

namespace FileTree

variable {t t' : FileTree} {cwd d : Names} {p : Path} {content : List UInt8}

/-- The last segment of the path names an entry of the directory under `d`, which need not be
there. -/
structure Points (t : FileTree) (cwd : Names) (p : Path) (d : Names) : Prop where
  noFault : pathFault? p = none
  reached : t.follow (start cwd p) (target p).before = .ok d
  directory : t.find? d = some .directory
  fileName : FileName (target p).last

/-- The names of the entry that a path in the directory under `d` points to. -/
def named (p : Path) (d : Names) : Names :=
  d ++ [(target p).last]

theorem Points.isEntry (h : t.Points cwd p d) : IsEntry (named p d) :=
  isEntry_append.2 h.fileName

theorem points_of_follow (hfault : pathFault? p = none)
    (hfollow : t.follow (start cwd p) ((target p).before ++ [[]]) = .ok d)
    (hlast : ¬ (Path.isIdle (target p).last || (target p).last = Path.up) = true)
    (hfits : nameFits (target p).last = true) : t.Points cwd p d := by
  obtain ⟨hreached, hdirectory⟩ := follow_slash_eq_ok_iff.1 hfollow
  exact ⟨hfault, hreached, hdirectory, fileName_target hfault hlast hfits⟩

theorem Points.kept (h : t.Points cwd p d) (hkept : Kept t t') : t'.Points cwd p d :=
  { h with
    reached := follow_kept hkept h.reached h.directory
    directory := hkept d h.directory }

theorem Points.reached_slash (h : t.Points cwd p d) :
    t.follow (start cwd p) ((target p).before ++ [[]]) = .ok d :=
  follow_slash_eq_ok_iff.2 ⟨h.reached, h.directory⟩

/-- A path leads to the entry it points to, if that is there and is a directory wherever slashes
stand behind the path. -/
theorem Points.locate_eq (h : t.Points cwd p d) {entry : Entry}
    (hentry : t.find? (named p d) = some entry)
    (hslash : (target p).slash = false ∨ entry = .directory) :
    t.locate cwd p = .ok (named p d) := by
  obtain ⟨k, hsegments, hk⟩ := segments_target h.fileName.ne_nil
  refine locate_eq_ok_iff.2 ⟨h.noFault, ?_⟩
  rw [hsegments, follow_append_eq_ok_iff]
  refine ⟨d, h.reached, follow_cons_eq_ok_iff.2 ⟨h.directory, named p d, ?_, ?_⟩⟩
  · refine .down h.fileName.notIdle h.fileName.notUp h.fileName.fits ?_
    rw [← named, hentry]
    exact Option.some_ne_none _
  · rcases hslash with hslash | rfl
    · rw [hk hslash]
      rfl
    · exact follow_slashes hentry

/-! ## Files -/

theorem write_eq_ok_iff :
    t.write cwd p content = .ok t' ↔
      ∃ d, ∃ h : t.Points cwd p d, (target p).slash = false ∧
        t.find? (named p d) ≠ some .directory ∧
        t' = t.put (named p d) (.file content) h.isEntry := by
  rw [write]
  constructor
  · intro h
    split at h
    · cases h
    · rename_i hfault
      dsimp only at h
      split at h
      · cases h
      · rename_i d hd
        split at h
        · cases h
        · rename_i hslash
          split at h
          · cases h
          · rename_i hlast
            split at h
            · rename_i hfits
              split at h
              · cases h
              · rename_i hfree
                exact ⟨d, points_of_follow hfault hd hlast hfits, by simpa using hslash, hfree,
                  (Except.ok.inj h).symm⟩
            · cases h
  · rintro ⟨d, h, hslash, hfree, rfl⟩
    split
    · rename_i hfault
      rw [h.noFault] at hfault
      cases hfault
    · simp only [h.reached_slash, hslash, h.fileName.notIdle, h.fileName.notUp, h.fileName.fits]
      simp only [Bool.or_self, decide_false, Bool.false_eq_true, if_false, dite_false, dite_true]
      split
      · rename_i hdirectory
        exact absurd hdirectory hfree
      · rfl

theorem kept_write (h : t.write cwd p content = .ok t') : Kept t t' := by
  obtain ⟨d, hpoints, -, hfree, rfl⟩ := write_eq_ok_iff.1 h
  exact kept_put hpoints.isEntry fun hdirectory => absurd hdirectory hfree

/-- A file is read back at the path where it is written. -/
theorem read_write (h : t.write cwd p content = .ok t') : t'.read cwd p = .ok content := by
  have hkept := kept_write h
  obtain ⟨d, hpoints, hslash, hfree, rfl⟩ := write_eq_ok_iff.1 h
  have hentry : (t.put (named p d) (.file content) hpoints.isEntry).find? (named p d) =
      some (.file content) := by
    rw [find?_put, if_pos rfl]
  rw [read, entryAt, (hpoints.kept hkept).locate_eq hentry (.inl hslash)]
  simp only [hentry]

private theorem ext_entries (h : t.entries = t'.entries) : t = t' := by
  cases t
  cases t'
  cases h
  rfl

theorem put_put (t : FileTree) {names : Names} (h : IsEntry names) (e e' : Entry) :
    (t.put names e h).put names e' h = t.put names e' h := by
  have hothers : (t.put names e h).others names = t.others names := by
    simp [others, put]
  exact ext_entries (congrArg (List.cons (names, e')) hothers)

/-- What stands there already can be written again. -/
theorem write_again (h : t.write cwd p content = .ok t') : t'.write cwd p content = .ok t' := by
  have hkept := kept_write h
  obtain ⟨d, hpoints, hslash, hfree, rfl⟩ := write_eq_ok_iff.1 h
  refine write_eq_ok_iff.2 ⟨d, hpoints.kept hkept, hslash, ?_, (put_put _ _ _ _).symm⟩
  rw [find?_put, if_pos rfl]
  exact fun heq => Entry.noConfusion (Option.some.inj heq)

/-! ## Directories -/

theorem makeDirectory_eq_ok_iff :
    t.makeDirectory cwd p = .ok t' ↔
      ∃ d, ∃ h : t.Points cwd p d, t.find? (named p d) = none ∧
        t' = t.put (named p d) .directory h.isEntry := by
  rw [makeDirectory]
  constructor
  · intro h
    split at h
    · cases h
    · rename_i hfault
      dsimp only at h
      split at h
      · cases h
      · rename_i d hd
        split at h
        · cases h
        · rename_i hlast
          split at h
          · rename_i hfits
            split at h
            · cases h
            · rename_i hfree
              exact ⟨d, points_of_follow hfault hd hlast hfits, by simpa [named] using hfree,
                (Except.ok.inj h).symm⟩
          · cases h
  · rintro ⟨d, h, hfree, rfl⟩
    split
    · rename_i hfault
      rw [h.noFault] at hfault
      cases hfault
    · rw [named] at hfree
      simp [h.reached_slash, h.fileName.notIdle, h.fileName.notUp, h.fileName.fits, hfree, named]

theorem kept_makeDirectory (h : t.makeDirectory cwd p = .ok t') : Kept t t' := by
  obtain ⟨d, hpoints, -, rfl⟩ := makeDirectory_eq_ok_iff.1 h
  exact kept_put hpoints.isEntry fun _ => rfl

theorem isDirectory_makeDirectory (h : t.makeDirectory cwd p = .ok t') :
    t'.isDirectory cwd p = true := by
  have hkept := kept_makeDirectory h
  obtain ⟨d, hpoints, -, rfl⟩ := makeDirectory_eq_ok_iff.1 h
  have hentry : (t.put (named p d) .directory hpoints.isEntry).find? (named p d) =
      some .directory := by
    rw [find?_put, if_pos rfl]
  exact isDirectory_iff.2 ⟨_, (hpoints.kept hkept).locate_eq hentry (.inr rfl), hentry⟩

/-- A directory that is there cannot be made. -/
theorem makeDirectory_of_isDirectory (h : t.isDirectory cwd p = true) :
    t.makeDirectory cwd p = .error .exists := by
  obtain ⟨d, hlocate, hd⟩ := isDirectory_iff.1 h
  obtain ⟨hfault, hfollow⟩ := locate_eq_ok_iff.1 hlocate
  rw [makeDirectory]
  split
  · rename_i hsome
    rw [hfault] at hsome
    cases hsome
  · by_cases hlast : (target p).last = []
    · have hstart := directory_of_follow hfollow hd
      have hend : t.follow (start cwd p) ([] ++ [[]]) = .ok (start cwd p) :=
        follow_slash_eq_ok_iff.2 ⟨rfl, hstart⟩
      simp only [before_target hlast, hend, hlast]
      rfl
    · obtain ⟨k, hsegments, -⟩ := segments_target hlast
      rw [hsegments, follow_append_eq_ok_iff] at hfollow
      obtain ⟨middle, hmiddle, hrest⟩ := hfollow
      obtain ⟨hdirectory, next, hstep, -⟩ := follow_cons_eq_ok_iff.1 hrest
      have hend := follow_slash_eq_ok_iff.2 ⟨hmiddle, hdirectory⟩
      simp only [hend]
      cases hstep with
      | stay hidle => simp [hidle]
      | up hidle hup => simp [hup]
      | down hidle hup hfits hfound => simp [hidle, hup, hfits, Option.isSome_iff_ne_none.2 hfound]

theorem eq_of_ensureDirectory (h : t.ensureDirectory cwd p = .ok t') :
    t.makeDirectory cwd p = .ok t' ∨ t' = t := by
  rw [ensureDirectory] at h
  split at h
  · rename_i hmake
    cases h
    exact .inl hmake
  · split at h
    · exact .inr (Except.ok.inj h).symm
    · cases h

theorem isDirectory_ensureDirectory (h : t.ensureDirectory cwd p = .ok t') :
    t'.isDirectory cwd p = true := by
  rw [ensureDirectory] at h
  split at h
  · rename_i hmake
    cases h
    exact isDirectory_makeDirectory hmake
  · split at h
    · rename_i hthere
      cases h
      exact hthere
    · cases h

/-- What holds of a tree and stays true when one directory of a list is made holds behind the whole
list, also where one of them cannot be made. -/
theorem makeDirectories_preserves {P : FileTree → Prop} {ps : List Path} {r : Except FileFault Unit}
    (hmake : ∀ p ∈ ps, ∀ t t', P t → t.makeDirectory cwd p = .ok t' → P t') (ht : P t)
    (h : t.makeDirectories cwd ps = (t', r)) : P t' := by
  induction ps generalizing t' r with
  | nil =>
    cases h
    exact ht
  | cons p ps ih =>
    obtain ⟨hfirst, hrest⟩ := List.forall_mem_cons.1 hmake
    rw [makeDirectories] at h
    split at h
    · cases h
      exact ht
    · split at h
      · rename_i hmade
        cases h
        exact hfirst _ _ ht hmade
      · split at h
        · rename_i hparents
          cases h
          exact ih hrest hparents
        · rename_i hparents
          have hparent := ih hrest hparents
          split at h
          · rename_i hensure
            cases h
            rcases eq_of_ensureDirectory hensure with hmade | rfl
            · exact hfirst _ _ hparent hmade
            · exact hparent
          · cases h
            exact hparent
      · cases h
        exact ht

theorem isDirectory_makeDirectories {ps : List Path}
    (h : t.makeDirectories cwd (p :: ps) = (t', .ok ())) (hp : p.chars.isEmpty = false) :
    t'.isDirectory cwd p = true := by
  rw [makeDirectories, hp] at h
  simp only [Bool.false_eq_true, if_false] at h
  split at h
  · rename_i hmake
    cases h
    exact isDirectory_makeDirectory hmake
  · split at h
    · cases h
    · split at h
      · rename_i hensure
        cases h
        exact isDirectory_ensureDirectory hensure
      · cases h
  · cases hthere : t.isDirectory cwd p with
    | true =>
      rw [hthere] at h
      cases h
      exact hthere
    | false =>
      rw [hthere] at h
      cases h

/-- The directory is there once it has been made with those around it. -/
theorem isDirectory_makePath (h : t.makePath cwd p = (t', .ok ())) (hp : p.chars.isEmpty = false) :
    t'.isDirectory cwd p = true :=
  isDirectory_makeDirectories h hp

/-- Where the directory is there, nothing has to be made. -/
theorem makePath_of_isDirectory (h : t.isDirectory cwd p = true) :
    t.makePath cwd p = (t, .ok ()) := by
  rw [makePath, Path.ancestors, makeDirectories, makeDirectory_of_isDirectory h]
  simp [h]

end FileTree

end CircuitFixtures
