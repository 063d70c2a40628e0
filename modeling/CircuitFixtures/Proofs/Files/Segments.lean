import CircuitFixtures.Files.Path

/-!
# Texts and segments

A text is split at its slashes and nowhere else: segments hold none (`Path.not_mem_of_mem_split`),
and segments that hold none are found again in their text (`Path.split_unsplit`). So the segments of
a path that is seen from a directory are those of the directory and its own (`Path.segments_join`),
and a text behind a path goes to its last segment (`Path.split_append`).
-/

namespace CircuitFixtures.Path

variable {cs ds : List Char} {s : Segment} {ss : List Segment} {p q : Path}

/-- A text without slashes is one segment. -/
theorem split_of_not_mem (h : '/' ∉ cs) : split cs = [cs] := by
  induction cs with
  | nil => rfl
  | cons c cs ih =>
    rw [List.mem_cons, not_or] at h
    rw [split, if_neg (Ne.symm h.1), ih h.2]

theorem isAbsolute_of_not_mem (h : '/' ∉ cs) : isAbsolute ⟨cs⟩ = false := by
  cases cs with
  | nil => rfl
  | cons c cs =>
    have hc : '/' ≠ c := fun heq => h (heq ▸ List.mem_cons_self)
    simpa [isAbsolute] using hc.symm

theorem split_append_slash (cs ds : List Char) : split (cs ++ '/' :: ds) = split cs ++ split ds := by
  induction cs with
  | nil => simp [split]
  | cons c cs ih =>
    rw [List.cons_append, split, split, ih]
    split
    · rfl
    · obtain ⟨r, rs, hrs⟩ := List.exists_cons_of_ne_nil (split_ne_nil cs)
      rw [hrs]
      rfl

/-- Segments are found again in their text. -/
theorem split_unsplit (hne : ss ≠ []) (h : ∀ s ∈ ss, '/' ∉ s) : split (unsplit ss) = ss := by
  fun_induction unsplit ss with
  | case1 => exact absurd rfl hne
  | case2 s => exact split_of_not_mem (h s List.mem_cons_self)
  | case3 s ss hss ih =>
    obtain ⟨hs, hrest⟩ := List.forall_mem_cons.1 h
    rw [split_append_slash, split_of_not_mem hs, ih hss hrest]
    rfl

/-- A text without slashes that stands behind another goes to its last segment. -/
theorem split_append (h : '/' ∉ ds) :
    ∃ before last, split cs = before ++ [last] ∧ split (cs ++ ds) = before ++ [last ++ ds] := by
  induction cs with
  | nil => exact ⟨[], [], rfl, split_of_not_mem h⟩
  | cons c cs ih =>
    obtain ⟨before, last, hcs, hds⟩ := ih
    rw [List.cons_append, split, split, hcs, hds]
    split
    · exact ⟨[] :: before, last, rfl, rfl⟩
    · cases before with
      | nil => exact ⟨[], c :: last, rfl, rfl⟩
      | cons r rs => exact ⟨(c :: r) :: rs, last, rfl, rfl⟩

/-- A path that is seen from a directory has the segments of the directory in front of its own, but
for an empty one behind which the directory ends. -/
theorem segments_join (h : q.isAbsolute = false) :
    ∃ before, (p.join q).segments = before ++ q.segments ∧
      (p.segments = before ∨ p.segments = before ++ [[]]) := by
  rw [join, h]
  simp only [Bool.false_eq_true, if_false]
  split
  · rename_i hend
    rw [Bool.or_eq_true, List.isEmpty_iff, beq_iff_eq, List.getLast?_eq_some_iff] at hend
    rcases hend with hempty | ⟨front, hfront⟩
    · refine ⟨[], by rw [hempty]; rfl, .inr ?_⟩
      rw [segments, hempty]
      rfl
    · refine ⟨split front, ?_, .inr ?_⟩
      · rw [segments, hfront, List.append_assoc, List.singleton_append, split_append_slash]
        rfl
      · rw [segments, hfront, split_append_slash]
        rfl
  · exact ⟨p.segments, split_append_slash p.chars q.chars, .inl rfl⟩

end CircuitFixtures.Path
