import CircuitFixtures.Proofs.Files.Following
import CircuitFixtures.Proofs.Files.Segments

/-!
# The directories around a path

Of an absolute path all of them are absolute (`Path.isAbsolute_of_mem_parents`), and there is one
unless the path says nothing but where the root is (`Path.exists_parent`). A path that leads to a
file says more, so a file has a directory around it (`FileTree.exists_parent_of_isFile`). The
directories around a path are the innermost one and those around that (`Path.parents_of_parent?`).
-/

namespace CircuitFixtures

namespace Path

variable {p q : Path}

theorem segments_of_isAbsolute (h : p.isAbsolute = true) :
    ∃ ss, ss ≠ [] ∧ p.segments = [] :: ss := by
  obtain ⟨cs⟩ := p
  cases cs with
  | nil => cases h
  | cons c cs =>
    have hc : c = '/' := by simpa [isAbsolute] using h
    subst hc
    exact ⟨split cs, split_ne_nil cs, by simp [segments, split]⟩

theorem dropIdle_suffix (ss : List Segment) : dropIdle ss <:+ ss := by
  fun_induction dropIdle ss with
  | case1 => exact List.suffix_refl _
  | case2 => exact List.suffix_refl _
  | case3 s ss _ _ ih => exact ih.trans (List.suffix_cons s ss)
  | case4 => exact List.suffix_refl _

/-- What is left when segments in front are taken away stands at the end. -/
theorem suffix_of_mem_parentsOf {ss rs : List Segment} (h : rs ∈ parentsOf ss) :
    rs <:+ ss ∧ rs ≠ [] := by
  fun_induction parentsOf ss with
  | case1 => cases h
  | case2 => cases h
  | case3 r s ss _ ih =>
    obtain ⟨hsuffix, hne⟩ := ih h
    exact ⟨hsuffix.trans (List.suffix_cons r (s :: ss)), hne⟩
  | case4 r s ss _ ih =>
    rcases List.mem_cons.1 h with rfl | h
    · exact ⟨List.suffix_cons r (s :: ss), List.cons_ne_nil s ss⟩
    · obtain ⟨hsuffix, hne⟩ := ih h
      exact ⟨hsuffix.trans (List.suffix_cons r (s :: ss)), hne⟩

theorem isAbsolute_ofReversed (rs : List Segment) :
    (ofReversed true (rs ++ [[]])).isAbsolute = true := by
  rw [ofReversed]
  split
  · rfl
  · rename_i hroot
    have hrs : rs.reverse ≠ [] := by
      intro hnil
      rw [List.reverse_eq_nil_iff] at hnil
      simp [hnil] at hroot
    obtain ⟨s, ss, hss⟩ := List.exists_cons_of_ne_nil hrs
    rw [List.reverse_append, List.reverse_singleton, hss]
    rfl

theorem isAbsolute_of_mem_parents (h : p.isAbsolute = true) (hq : q ∈ p.parents) :
    q.isAbsolute = true := by
  simp only [parents, h, Bool.true_or, if_true] at hq
  obtain ⟨rs, hrs, rfl⟩ := List.mem_map.1 hq
  obtain ⟨ss, -, hss⟩ := segments_of_isAbsolute h
  obtain ⟨hsuffix, hne⟩ := suffix_of_mem_parentsOf hrs
  have hend := hsuffix.trans (dropIdle_suffix _)
  rw [hss, List.reverse_cons, List.suffix_concat_iff] at hend
  rcases hend with hnil | ⟨front, rfl, -⟩
  · exact absurd hnil hne
  · exact isAbsolute_ofReversed front

/-- A single segment is left only where no other one says anything. -/
theorem idle_of_length_dropIdle {ss : List Segment} (hlast : ss.getLast? = some [])
    (h : (dropIdle ss).length ≤ 1) : ∀ s ∈ ss, isIdle s = true := by
  fun_induction dropIdle ss with
  | case1 => simp
  | case2 s =>
    have hs : s = [] := by simpa using hlast
    simp [hs, isIdle]
  | case3 s ss hne hidle ih =>
    cases ss with
    | nil => exact absurd rfl hne
    | cons r ss =>
      rw [List.getLast?_cons_cons] at hlast
      exact List.forall_mem_cons.2 ⟨hidle, ih hlast h⟩
  | case4 s ss hne =>
    cases ss with
    | nil => exact absurd rfl hne
    | cons r ss => simp at h

theorem parentsOf_ne_nil {ss : List Segment} (h : 1 < ss.length) : parentsOf ss ≠ [] := by
  fun_induction parentsOf ss with
  | case1 => simp at h
  | case2 => simp at h
  | case3 r s ss hidle ih =>
    apply ih
    cases ss with
    | nil => simp at hidle
    | cons _ _ => simp
  | case4 => exact List.cons_ne_nil _ _

theorem exists_parent (h : p.isAbsolute = true) (hp : ∃ s ∈ p.segments, isIdle s = false) :
    ∃ q, p.parent? = some q := by
  obtain ⟨ss, -, hss⟩ := segments_of_isAbsolute h
  have hlast : p.segments.reverse.getLast? = some [] := by
    rw [hss, List.reverse_cons, List.getLast?_append]
    rfl
  have hlong : 1 < (dropIdle p.segments.reverse).length := by
    refine Nat.lt_of_not_le fun hle => ?_
    obtain ⟨s, hs, hidle⟩ := hp
    rw [idle_of_length_dropIdle hlast hle s (List.mem_reverse.2 hs)] at hidle
    cases hidle
  obtain ⟨rs, rest, hrs⟩ := List.exists_cons_of_ne_nil (parentsOf_ne_nil hlong)
  refine ⟨ofReversed true rs, ?_⟩
  simp [parent?, parents, h, hrs]

/-! ## Around the innermost one -/

theorem parentsOf_eq_cons {ss rs : List Segment} {rest : List (List Segment)}
    (h : parentsOf ss = rs :: rest) : rest = parentsOf rs ∧ dropIdle rs = rs := by
  fun_induction parentsOf ss with
  | case1 => cases h
  | case2 => cases h
  | case3 _ _ _ _ ih => exact ih h
  | case4 r s ss hkeep _ =>
    cases h
    refine ⟨rfl, ?_⟩
    cases ss with
    | nil => rfl
    | cons s' ss =>
      have hidle : isIdle s = false := by simpa using hkeep
      simp [dropIdle, hidle]

theorem parents_of_segments {rs : List Segment} (h : q.segments = rs.reverse)
    (hdrop : dropIdle rs = rs) :
    q.parents = (parentsOf rs).map (ofReversed q.isAbsolute) ++
      if q.isAbsolute || q.chars.isEmpty then [] else [⟨[]⟩] := by
  rw [parents, h, List.reverse_reverse, hdrop]
  split <;> simp

theorem isAbsolute_unsplit {s : Segment} {ss : List Segment} (hs : '/' ∉ s)
    (h : s = [] → ss ≠ []) :
    (⟨unsplit (s :: ss)⟩ : Path).isAbsolute = s.isEmpty ∧ (unsplit (s :: ss)).isEmpty = false := by
  cases s with
  | nil =>
    cases ss with
    | nil => exact absurd rfl (h rfl)
    | cons r rs => exact ⟨rfl, rfl⟩
  | cons c cs =>
    have hc : c ≠ '/' := fun heq => hs (heq ▸ List.mem_cons_self)
    cases ss <;> exact ⟨by simpa [unsplit, isAbsolute] using hc, rfl⟩

/-- The first segment says whether a path is absolute. -/
theorem isAbsolute_of_segments {s : Segment} {ss : List Segment} (h : p.segments = s :: ss)
    (hp : p.chars ≠ []) : p.isAbsolute = s.isEmpty := by
  have hchars : p.chars = unsplit (s :: ss) := by rw [← h, unsplit_segments]
  have hsome : s = [] → ss ≠ [] := by
    rintro rfl rfl
    exact hp hchars
  have hs : '/' ∉ s := not_mem_of_mem_segments (h ▸ List.mem_cons_self)
  simpa [isAbsolute, hchars] using (isAbsolute_unsplit hs hsome).1

/-- What is left of a path has those directories around it that have been left of the path. -/
theorem parents_ofReversed {rs : List Segment} (hne : rs ≠ []) (hdrop : dropIdle rs = rs)
    (hsuffix : rs <:+ p.segments.reverse) (hp : p.chars ≠ []) :
    (ofReversed p.isAbsolute rs).parents =
      (parentsOf rs).map (ofReversed p.isAbsolute) ++ if p.isAbsolute then [] else [⟨[]⟩] := by
  have hfront : rs.reverse <+: p.segments := by simpa using List.reverse_prefix.2 hsuffix
  have hslash : ∀ s ∈ rs.reverse, '/' ∉ s := fun s hs =>
    not_mem_of_mem_segments (hfront.subset hs)
  have hne' : rs.reverse ≠ [] := by simpa using hne
  obtain ⟨s, ss, hss⟩ := List.exists_cons_of_ne_nil hne'
  have hfirst : p.isAbsolute = s.isEmpty := by
    obtain ⟨rest, hrest⟩ := hfront
    rw [hss, List.cons_append] at hrest
    exact isAbsolute_of_segments hrest.symm hp
  by_cases hroot : rs = [[]]
  · subst hroot
    cases hss
    rw [hfirst]
    rfl
  · have hpath : ofReversed p.isAbsolute rs = ⟨unsplit rs.reverse⟩ := by simp [ofReversed, hroot]
    have hsome : s = [] → ss ≠ [] := by
      rintro rfl rfl
      exact hroot (by simpa using congrArg List.reverse hss)
    obtain ⟨habsolute, hnonempty⟩ := isAbsolute_unsplit (hslash s (hss ▸ List.mem_cons_self)) hsome
    have hsegments := split_unsplit hne' hslash
    rw [hpath, parents_of_segments hsegments hdrop, hss, habsolute, hnonempty, ← hfirst]
    simp

/-- The directories around a path are the innermost one and those around that. -/
theorem parents_of_parent? (h : p.parent? = some q) : p.parents = q :: q.parents := by
  rw [parent?] at h
  cases hrest : parentsOf (dropIdle p.segments.reverse) with
  | nil =>
    simp only [parents, hrest, List.map_nil, List.nil_append] at h ⊢
    split at h
    · cases h
    · rename_i hnot
      cases h
      rw [if_neg hnot]
      rfl
  | cons rs rest =>
    obtain ⟨rfl, hdrop⟩ := parentsOf_eq_cons hrest
    obtain ⟨hmem, hne⟩ := suffix_of_mem_parentsOf (hrest ▸ List.mem_cons_self)
    have hsuffix := hmem.trans (dropIdle_suffix _)
    have hp : p.chars ≠ [] := by
      intro hempty
      rw [segments, hempty] at hrest
      cases hrest
    have hparents : p.parents = ofReversed p.isAbsolute rs ::
        ((parentsOf rs).map (ofReversed p.isAbsolute) ++ if p.isAbsolute then [] else [⟨[]⟩]) := by
      cases habsolute : p.isAbsolute <;> simp [parents, hrest, habsolute, hp]
    rw [hparents] at h ⊢
    rw [← parents_ofReversed hne hdrop hsuffix hp]
    cases h
    rfl

end Path

namespace FileTree

variable {t : FileTree} {cwd : Names} {p : Path}

theorem isFile_iff : t.isFile cwd p = true ↔ ∃ content, t.read cwd p = .ok content := by
  rw [isFile, read]
  cases t.entryAt cwd p with
  | error e => simp
  | ok entry => cases entry <;> simp

/-- The root is no file. -/
theorem exists_parent_of_isFile (hp : p.isAbsolute = true) (h : t.isFile cwd p = true) :
    ∃ q, p.parent? = some q := by
  cases hall : p.segments.all Path.isIdle with
  | false =>
    obtain ⟨s, hs, hidle⟩ := List.all_eq_false.1 hall
    exact Path.exists_parent hp ⟨s, hs, Bool.not_eq_true _ ▸ hidle⟩
  | true =>
    have hroot : t.find? [] = some .directory := rfl
    have hfollow := follow_idle hroot (List.all_eq_true.1 hall)
    obtain ⟨content, hread⟩ := isFile_iff.1 h
    rw [read, entryAt, locate] at hread
    cases hfault : pathFault? p with
    | some e => simp [hfault] at hread
    | none => simp [hfault, start, hp, hfollow, hroot] at hread

end FileTree

end CircuitFixtures
