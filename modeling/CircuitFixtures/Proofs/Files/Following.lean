import CircuitFixtures.Files.Tree

/-!
# Where paths lead

A path is followed segment by segment; `FileTree.Step` is what one segment does, and a path that
goes on leads where its rest leads from there (`FileTree.follow_append_eq_ok_iff`). Up to its last
segment a path only passes through directories, so it leads to the same directory in every tree that
keeps the directories of the first (`FileTree.follow_kept`), whatever becomes of the files.
-/

namespace CircuitFixtures

namespace FileTree

variable {t t' : FileTree} {names d : Names} {s : Path.Segment} {ss : List Path.Segment}

/-- Where one segment leads from a directory. -/
inductive Step (t : FileTree) (names : Names) (s : Path.Segment) : Names → Prop where
  | stay (idle : Path.isIdle s = true) : Step t names s names
  | up (idle : Path.isIdle s = false) (up : s = Path.up) : Step t names s names.dropLast
  | down (idle : Path.isIdle s = false) (up : s ≠ Path.up) (fits : nameFits s = true)
    (found : t.find? (names ++ [s]) ≠ none) : Step t names s (names ++ [s])

/-- Each segment needs a directory to start from. -/
theorem follow_cons_eq_ok_iff :
    t.follow names (s :: ss) = .ok d ↔
      t.find? names = some .directory ∧ ∃ next, t.Step names s next ∧ t.follow next ss = .ok d := by
  rw [follow]
  constructor
  · intro h
    split at h
    · cases h
    · cases h
    · rename_i hdirectory
      refine ⟨hdirectory, ?_⟩
      split at h
      · rename_i hidle
        exact ⟨names, .stay hidle, h⟩
      · rename_i hidle
        rw [Bool.not_eq_true] at hidle
        split at h
        · rename_i hup
          exact ⟨_, .up hidle hup, h⟩
        · rename_i hup
          split at h
          · cases h
          · rename_i hfits
            split at h
            · cases h
            · rename_i hfound
              exact ⟨_, .down hidle hup (by simpa using hfits) (by simpa using hfound), h⟩
  · rintro ⟨hdirectory, next, hstep, h⟩
    rw [hdirectory]
    cases hstep with
    | stay hidle => simpa [hidle] using h
    | up hidle hup =>
      subst hup
      simpa [hidle] using h
    | down hidle hup hfits hfound => simpa [hidle, hup, hfits, hfound] using h

/-- A path that goes on leads where its rest leads from the entry behind the first segments. -/
theorem follow_append_eq_ok_iff {rs : List Path.Segment} :
    t.follow names (ss ++ rs) = .ok d ↔
      ∃ middle, t.follow names ss = .ok middle ∧ t.follow middle rs = .ok d := by
  induction ss generalizing names with
  | nil =>
    constructor
    · exact fun h => ⟨names, rfl, h⟩
    · rintro ⟨middle, hmiddle, h⟩
      cases hmiddle
      exact h
  | cons s ss ih =>
    rw [List.cons_append, follow_cons_eq_ok_iff]
    constructor
    · rintro ⟨hdirectory, next, hstep, h⟩
      obtain ⟨middle, hmiddle, hrest⟩ := ih.1 h
      exact ⟨middle, follow_cons_eq_ok_iff.2 ⟨hdirectory, next, hstep, hmiddle⟩, hrest⟩
    · rintro ⟨middle, hmiddle, hrest⟩
      obtain ⟨hdirectory, next, hstep, h⟩ := follow_cons_eq_ok_iff.1 hmiddle
      exact ⟨hdirectory, next, hstep, ih.2 ⟨middle, h, hrest⟩⟩

/-- What leads to a directory starts from one. -/
theorem directory_of_follow (h : t.follow names ss = .ok d) (hd : t.find? d = some .directory) :
    t.find? names = some .directory := by
  cases ss with
  | nil =>
    cases h
    exact hd
  | cons s ss => exact (follow_cons_eq_ok_iff.1 h).1

theorem follow_empty_segment : t.follow names [[]] = .ok d ↔
    t.find? names = some .directory ∧ names = d := by
  rw [follow_cons_eq_ok_iff]
  constructor
  · rintro ⟨hdirectory, next, hstep, h⟩
    cases h
    cases hstep with
    | stay => exact ⟨hdirectory, rfl⟩
    | up hidle => cases hidle
    | down hidle => cases hidle
  · rintro ⟨hdirectory, rfl⟩
    exact ⟨hdirectory, names, .stay rfl, rfl⟩

/-- A slash behind a path leads no further, but needs a directory. -/
theorem follow_slash_eq_ok_iff :
    t.follow names (ss ++ [[]]) = .ok d ↔
      t.follow names ss = .ok d ∧ t.find? d = some .directory := by
  rw [follow_append_eq_ok_iff]
  constructor
  · rintro ⟨middle, hmiddle, h⟩
    obtain ⟨hdirectory, rfl⟩ := follow_empty_segment.1 h
    exact ⟨hmiddle, hdirectory⟩
  · rintro ⟨h, hd⟩
    exact ⟨d, h, follow_empty_segment.2 ⟨hd, rfl⟩⟩

/-- Segments that say nothing lead nowhere else. -/
theorem follow_idle (hd : t.find? d = some .directory) (h : ∀ s ∈ ss, Path.isIdle s = true) :
    t.follow d ss = .ok d := by
  induction ss with
  | nil => rfl
  | cons s ss ih =>
    obtain ⟨hs, hss⟩ := List.forall_mem_cons.1 h
    exact follow_cons_eq_ok_iff.2 ⟨hd, d, .stay hs, ih hss⟩

theorem follow_slashes {k : Nat} (h : t.find? d = some .directory) :
    t.follow d (List.replicate k []) = .ok d := by
  refine follow_idle h fun s hs => ?_
  rw [List.eq_of_mem_replicate hs]
  rfl

/-! ## Trees that keep directories -/

/-- What is a directory in `t` is one in `t'`. -/
def Kept (t t' : FileTree) : Prop :=
  ∀ names, t.find? names = some .directory → t'.find? names = some .directory

theorem kept_put {entry : Entry} (hnames : IsEntry names)
    (h : t.find? names = some .directory → entry = .directory) :
    Kept t (t.put names entry hnames) := by
  intro other hother
  rw [find?_put]
  split
  · rename_i heq
    subst heq
    rw [h hother]
  · exact hother

/-- All that stands on the way to a directory is a directory, and so is kept. -/
theorem follow_kept (hkept : Kept t t') (h : t.follow names ss = .ok d)
    (hd : t.find? d = some .directory) : t'.follow names ss = .ok d := by
  induction ss generalizing names with
  | nil => exact h
  | cons s ss ih =>
    obtain ⟨hdirectory, next, hstep, hnext⟩ := follow_cons_eq_ok_iff.1 h
    refine follow_cons_eq_ok_iff.2 ⟨hkept _ hdirectory, next, ?_, ih hnext⟩
    cases hstep with
    | stay hidle => exact .stay hidle
    | up hidle hup => exact .up hidle hup
    | down hidle hup hfits _ =>
      refine .down hidle hup hfits ?_
      rw [hkept _ (directory_of_follow hnext hd)]
      exact Option.some_ne_none _

/-! ## Directories that a path leads to -/

theorem locate_eq_ok_iff {cwd : Names} {p : Path} :
    t.locate cwd p = .ok d ↔
      pathFault? p = none ∧ t.follow (start cwd p) p.segments = .ok d := by
  rw [locate]
  cases pathFault? p <;> simp

theorem isDirectory_iff {cwd : Names} {p : Path} :
    t.isDirectory cwd p = true ↔
      ∃ d, t.locate cwd p = .ok d ∧ t.find? d = some .directory := by
  rw [isDirectory, entryAt]
  cases hlocate : t.locate cwd p with
  | error e => simp
  | ok d => cases hd : t.find? d with
    | none => simp [hd]
    | some entry => cases entry <;> simp [hd]

theorem isDirectory_kept {cwd : Names} {p : Path} (hkept : Kept t t')
    (h : t.isDirectory cwd p = true) : t'.isDirectory cwd p = true := by
  obtain ⟨d, hlocate, hd⟩ := isDirectory_iff.1 h
  obtain ⟨hfault, hfollow⟩ := locate_eq_ok_iff.1 hlocate
  exact isDirectory_iff.2
    ⟨d, locate_eq_ok_iff.2 ⟨hfault, follow_kept hkept hfollow hd⟩, hkept d hd⟩

/-! ## The last segment of a path -/

private theorem segments_ofReversed {slash : Bool} {ss : List Path.Segment}
    (h : (Target.ofReversed slash ss).last ≠ []) :
    ∃ k, ss = List.replicate k [] ++ (Target.ofReversed slash ss).last ::
        (Target.ofReversed slash ss).before.reverse ∧
      ((Target.ofReversed slash ss).slash = false → k = 0 ∧ slash = false) := by
  induction ss generalizing slash with
  | nil => exact absurd rfl h
  | cons s ss ih =>
    rw [Target.ofReversed] at h ⊢
    split
    · rename_i hs
      rw [if_pos hs] at h
      obtain ⟨k, hss, hslash⟩ := ih h
      refine ⟨k + 1, ?_, fun h => absurd (hslash h).2 Bool.noConfusion⟩
      rw [List.replicate_succ, List.cons_append, ← hss, hs]
    · exact ⟨0, by simp, fun h => ⟨rfl, h⟩⟩

/-- A path is its target, with the slashes behind it. -/
theorem segments_target {p : Path} (h : (target p).last ≠ []) :
    ∃ k, p.segments = (target p).before ++ (target p).last :: List.replicate k [] ∧
      ((target p).slash = false → k = 0) := by
  obtain ⟨k, hss, hslash⟩ := segments_ofReversed h
  refine ⟨k, ?_, fun h => (hslash h).1⟩
  have hsegments := congrArg List.reverse hss
  rwa [List.reverse_reverse, List.reverse_append, List.reverse_cons, List.reverse_reverse,
    List.reverse_replicate, List.append_assoc] at hsegments

private theorem before_ofReversed {slash : Bool} {ss : List Path.Segment}
    (h : (Target.ofReversed slash ss).last = []) :
    (Target.ofReversed slash ss).before = [] := by
  induction ss generalizing slash with
  | nil => rfl
  | cons s ss ih =>
    rw [Target.ofReversed] at h ⊢
    split
    · rename_i hs
      rw [if_pos hs] at h
      exact ih h
    · rename_i hs
      rw [if_neg hs] at h
      exact absurd h hs

/-- Without a last segment a path has none at all. -/
theorem before_target {p : Path} (h : (target p).last = []) : (target p).before = [] :=
  before_ofReversed h

end FileTree

end CircuitFixtures
