import CircuitFixtures.Proofs.Files.Below
import CircuitFixtures.Proofs.Files.Writing
import CircuitFixtures.Proofs.Text.Utf8

/-!
# Names in directories

A name with an extension is taken apart into the parts it was put together from
(`Path.stemAndExtension_append`, `Path.eq_of_extension?`).

A directory shows the names of the entries right under it, each once (`FileTree.mem_namesIn_iff`,
`FileTree.nodup_namesIn`), and no others (`FileTree.fileName_of_mem_namesIn`). Such a name, seen
from a path of the directory, leads to its entry, unless the two together are too long for a path
(`FileTree.locate_join`).
-/

namespace CircuitFixtures

namespace Path

variable {name before behind : Segment}

theorem cutAtDot_of_not_mem (h : '.' ∉ behind) : cutAtDot behind = none := by
  induction behind with
  | nil => rfl
  | cons c cs ih =>
    rw [List.mem_cons, not_or] at h
    rw [cutAtDot, ih h.2]
    exact if_neg (Ne.symm h.1)

theorem cutAtDot_append (h : '.' ∉ behind) :
    cutAtDot (before ++ '.' :: behind) = some (before, behind) := by
  induction before with
  | nil =>
    rw [List.nil_append, cutAtDot, cutAtDot_of_not_mem h]
    rfl
  | cons c cs ih => rw [List.cons_append, cutAtDot, ih]

theorem eq_of_cutAtDot (h : cutAtDot name = some (before, behind)) :
    name = before ++ '.' :: behind := by
  induction name generalizing before with
  | nil => cases h
  | cons c cs ih =>
    rw [cutAtDot] at h
    split at h
    · rename_i hcut
      cases h
      rw [ih hcut, List.cons_append]
    · split at h
      · rename_i hdot
        cases h
        rw [hdot, List.nil_append]
      · cases h

/-- What stands in front of an extension is the stem, if it is there at all. -/
theorem stemAndExtension_append (hstem : before ≠ []) (hne : behind ≠ []) (hdot : '.' ∉ behind) :
    stemAndExtension (before ++ '.' :: behind) = (before, some behind) := by
  have hup : before ++ '.' :: behind ≠ up := by
    intro heq
    have hlength := congrArg List.length heq
    have hbefore := List.length_pos_iff.2 hstem
    have hbehind := List.length_pos_iff.2 hne
    rw [List.length_append, List.length_cons, up, List.length_cons, List.length_singleton] at hlength
    omega
  rw [stemAndExtension, if_neg hup, cutAtDot_append hdot]
  exact if_neg hstem

theorem eq_of_extension? (h : extension? name = some behind) :
    stem name ≠ [] ∧ name = stem name ++ '.' :: behind := by
  rw [extension?] at h
  rw [stem]
  unfold stemAndExtension at h ⊢
  split at h
  · cases h
  · rename_i hup
    rw [if_neg hup]
    split at h
    · cases h
    · rename_i before' behind' hcut
      split at h
      · cases h
      · rename_i hstem
        cases h
        rw [if_neg hstem]
        exact ⟨hstem, eq_of_cutAtDot hcut⟩

end Path

namespace FileName

variable {name : Path.Segment} {p : Path}

theorem isAbsolute_eq (h : FileName name) : Path.isAbsolute ⟨name⟩ = false :=
  Path.isAbsolute_of_not_mem h.noSlash

theorem segments_eq (h : FileName name) : Path.segments ⟨name⟩ = [name] :=
  Path.split_of_not_mem h.noSlash

theorem chars_join (h : FileName name) (p : Path) :
    (p.join ⟨name⟩).chars = p.chars ++ name ∨ (p.join ⟨name⟩).chars = p.chars ++ '/' :: name := by
  rw [Path.join, h.isAbsolute_eq, if_neg Bool.false_ne_true]
  split
  · exact .inl rfl
  · exact .inr rfl

/-- The size of a path with a name behind it is at least the length of the two. -/
theorem le_size_join (h : FileName name) {n : Nat} (hn : n ≤ p.chars.length + name.length) :
    n ≤ (p.join ⟨name⟩).toString.utf8ByteSize := by
  rw [Path.toString, Utf8.utf8ByteSize_ofList]
  refine Nat.le_trans hn (Nat.le_trans ?_ (Utf8.length_le_size _))
  rcases h.chars_join p with heq | heq
  · exact Nat.le_of_eq (by rw [heq, List.length_append])
  · rw [heq, List.length_append, List.length_cons]
    omega

end FileName

namespace FileTree

variable {t : FileTree} {cwd d : Names} {name : Path.Segment} {p : Path}

/-! ## The names that a directory shows -/

theorem lookup_eq_some_iff {names : Names} {entry : Entry} :
    t.entries.lookup names = some entry ↔ (names, entry) ∈ t.entries := by
  rw [List.lookup_eq_some_iff]
  constructor
  · rintro ⟨before, behind, heq, -⟩
    rw [heq]
    exact List.mem_append_right before List.mem_cons_self
  · intro hmem
    obtain ⟨before, behind, heq⟩ := List.append_of_mem hmem
    refine ⟨before, behind, heq, fun q hq => ?_⟩
    have hnodup := t.nodup
    rw [heq, List.map_append, List.map_cons, List.nodup_append] at hnodup
    exact bne_iff_ne.2 (hnodup.2.2 q.1 (List.mem_map_of_mem hq) names List.mem_cons_self).symm

theorem find?_child {entry : Entry} :
    t.find? (d ++ [name]) = some entry ↔ (d ++ [name], entry) ∈ t.entries := by
  rw [find?, if_neg (List.append_ne_nil_of_right_ne_nil d (List.cons_ne_nil name [])),
    lookup_eq_some_iff]

theorem nameIn?_eq_some_iff {names : Names} : nameIn? d names = some name ↔ names = d ++ [name] := by
  rw [nameIn?]
  cases hlast : names.getLast? with
  | none =>
    rw [List.getLast?_eq_none_iff.1 hlast]
    simp
  | some last =>
    obtain ⟨front, rfl⟩ := List.getLast?_eq_some_iff.1 hlast
    simp

theorem mem_namesIn_iff : name ∈ t.namesIn d ↔ ∃ entry, t.find? (d ++ [name]) = some entry := by
  simp only [namesIn, List.mem_filterMap, nameIn?_eq_some_iff, find?_child]
  constructor
  · rintro ⟨⟨names, entry⟩, hmem, rfl⟩
    exact ⟨entry, hmem⟩
  · rintro ⟨entry, hmem⟩
    exact ⟨_, hmem, rfl⟩

/-- A directory shows no other names. -/
theorem fileName_of_mem_namesIn (h : name ∈ t.namesIn d) : FileName name := by
  obtain ⟨entry, hentry⟩ := mem_namesIn_iff.1 h
  exact isEntry_append.1 (t.isEntry _ (find?_child.1 hentry))

theorem nodup_namesIn (t : FileTree) (d : Names) : (t.namesIn d).Nodup := by
  refine List.Pairwise.filterMap _ ?_ (List.pairwise_map.1 t.nodup)
  intro q q' hne name hname name' hname' heq
  rw [nameIn?_eq_some_iff] at hname hname'
  exact hne (by rw [hname, hname', heq])

/-! ## Names seen from a path of the directory -/

theorem pathFault?_join (hp : pathFault? p = none) (hname : FileName name) :
    pathFault? (p.join ⟨name⟩) =
      if pathLimit ≤ (p.join ⟨name⟩).toString.utf8ByteSize then some .nameTooLong else none := by
  have hend := not_mem_of_pathFault? hp
  have hchars : (p.join ⟨name⟩).chars.contains '\x00' = false ∧
      (p.join ⟨name⟩).chars.isEmpty = false := by
    rcases hname.chars_join p with heq | heq
    · rw [heq]
      simp [hend, hname.noEnd, hname.ne_nil]
    · rw [heq]
      simp [hend, hname.noEnd]
  rw [pathFault?, hchars.1, hchars.2, if_neg Bool.false_ne_true, if_neg Bool.false_ne_true]

theorem follow_join (hdir : t.follow (start cwd p) p.segments = .ok d)
    (hdirectory : t.find? d = some .directory) (hname : FileName name)
    (hentry : t.find? (d ++ [name]) ≠ none) :
    t.follow (start cwd (p.join ⟨name⟩)) (p.join ⟨name⟩).segments = .ok (d ++ [name]) := by
  obtain ⟨before, hjoin, hp⟩ := Path.segments_join (p := p) hname.isAbsolute_eq
  have hbefore : t.follow (start cwd p) before = .ok d := by
    rcases hp with hp | hp
    · rwa [← hp]
    · rw [hp] at hdir
      exact (follow_slash_eq_ok_iff.1 hdir).1
  rw [start, Path.isAbsolute_join_eq hname.isAbsolute_eq, ← start, hjoin, hname.segments_eq,
    follow_append_eq_ok_iff]
  refine ⟨d, hbefore, follow_cons_eq_ok_iff.2 ⟨hdirectory, d ++ [name], ?_, rfl⟩⟩
  exact .down hname.notIdle hname.notUp hname.fits hentry

/-- A name in a directory leads to its entry from any path of the directory, as far as the path
stays short enough. -/
theorem locate_join (hdir : t.locate cwd p = .ok d) (hdirectory : t.find? d = some .directory)
    (hname : FileName name) (hentry : t.find? (d ++ [name]) ≠ none) :
    t.locate cwd (p.join ⟨name⟩) =
      if pathLimit ≤ (p.join ⟨name⟩).toString.utf8ByteSize then .error .nameTooLong
      else .ok (d ++ [name]) := by
  obtain ⟨hfault, hfollow⟩ := locate_eq_ok_iff.1 hdir
  rw [locate, pathFault?_join hfault hname, follow_join hfollow hdirectory hname hentry]
  by_cases hlong : pathLimit ≤ (p.join ⟨name⟩).toString.utf8ByteSize
  · rw [if_pos hlong, if_pos hlong]
  · rw [if_neg hlong, if_neg hlong]

end FileTree

end CircuitFixtures
