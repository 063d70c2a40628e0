import CircuitFixtures.Proofs.Files.Writing

/-!
# What operations change

Writing a file changes the one entry that the path leads to (`FileTree.find?_write`). Making the
directories of a list adds some of them where there was nothing (`FileTree.grows_makeDirectories`),
also when one of them cannot be made.
-/

namespace CircuitFixtures

namespace FileTree

variable {t t' t'' : FileTree} {cwd d names : Names} {p : Path} {ps qs : List Path}
variable {content : List UInt8} {r : Except FileFault Unit}

/-- A directory is found at the same path as long as directories are kept. -/
theorem locate_kept (hkept : Kept t t') (h : t.locate cwd p = .ok d)
    (hd : t.find? d = some .directory) : t'.locate cwd p = .ok d := by
  obtain ⟨hfault, hfollow⟩ := locate_eq_ok_iff.1 h
  exact locate_eq_ok_iff.2 ⟨hfault, follow_kept hkept hfollow hd⟩

/-- What is written stands where the path leads, and nothing changes anywhere else. -/
theorem find?_write (h : t.write cwd p content = .ok t') :
    ∃ d, t'.locate cwd p = .ok d ∧ t'.find? d = some (.file content) ∧
      ∀ names, names ≠ d → t'.find? names = t.find? names := by
  have hkept := kept_write h
  obtain ⟨d, hpoints, hslash, -, rfl⟩ := write_eq_ok_iff.1 h
  have hentry : (t.put (named p d) (.file content) hpoints.isEntry).find? (named p d) =
      some (.file content) := by
    rw [find?_put, if_pos rfl]
  refine ⟨named p d, (hpoints.kept hkept).locate_eq hentry (.inl hslash), hentry, ?_⟩
  intro names hne
  rw [find?_put, if_neg hne]

/-! ## Trees that grow -/

/-- In `t'` there are the entries of `t`, and directories that paths of a list lead to. -/
def Grows (cwd : Names) (ps : List Path) (t t' : FileTree) : Prop :=
  ∀ names, t'.find? names = t.find? names ∨
    t.find? names = none ∧ t'.find? names = some .directory ∧
      ∃ p ∈ ps, t'.locate cwd p = .ok names

theorem Grows.refl (cwd : Names) (ps : List Path) (t : FileTree) : Grows cwd ps t t :=
  fun _ => .inl rfl

theorem Grows.kept (h : Grows cwd ps t t') : Kept t t' := by
  intro names hnames
  rcases h names with hsame | ⟨hnone, -, -⟩
  · rw [hsame, hnames]
  · rw [hnames] at hnone
    cases hnone

theorem Grows.mono (h : Grows cwd ps t t') (hsub : ∀ p ∈ ps, p ∈ qs) : Grows cwd qs t t' := by
  intro names
  rcases h names with hsame | ⟨hnone, hmade, p, hp, hlocate⟩
  · exact .inl hsame
  · exact .inr ⟨hnone, hmade, p, hsub p hp, hlocate⟩

theorem Grows.trans (h : Grows cwd ps t t') (h' : Grows cwd ps t' t'') : Grows cwd ps t t'' := by
  intro names
  rcases h names with hsame | ⟨hnone, hmade, p, hp, hlocate⟩
  · rw [← hsame]
    exact h' names
  · have hstill := h'.kept names hmade
    exact .inr ⟨hnone, hstill, p, hp, locate_kept h'.kept hlocate hmade⟩

theorem grows_makeDirectory (h : t.makeDirectory cwd p = .ok t') : Grows cwd [p] t t' := by
  have hkept := kept_makeDirectory h
  obtain ⟨d, hpoints, hfree, rfl⟩ := makeDirectory_eq_ok_iff.1 h
  have hentry : (t.put (named p d) .directory hpoints.isEntry).find? (named p d) =
      some .directory := by
    rw [find?_put, if_pos rfl]
  intro names
  by_cases hnames : names = named p d
  · subst hnames
    have hlocate := (hpoints.kept hkept).locate_eq hentry (.inr rfl)
    exact .inr ⟨hfree, hentry, p, List.mem_cons_self, hlocate⟩
  · left
    rw [find?_put, if_neg hnames]

/-- Only directories of the list are made, also where one of them cannot be. -/
theorem grows_makeDirectories (h : t.makeDirectories cwd ps = (t', r)) : Grows cwd ps t t' := by
  refine makeDirectories_preserves (P := Grows cwd ps t) ?_ (.refl cwd ps t) h
  intro p hp t₁ t₂ hgrows hmade
  refine hgrows.trans ((grows_makeDirectory hmade).mono fun q hq => ?_)
  rw [List.mem_singleton.1 hq]
  exact hp

end FileTree

end CircuitFixtures
