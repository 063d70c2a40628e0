import CircuitFixtures.Proofs.Files.Following
import CircuitFixtures.Proofs.Files.Segments

/-!
# Paths that stay below a directory

`Path.Inside` compares clean paths, `Path.Below` counts how deep a path stands below where it
starts. A path that is seen from a directory is inside it for every directory exactly when it stands
below where it starts and never above it on the way (`Path.forall_inside_join_iff`). Such a path
leads nowhere else in a tree either (`FileTree.locate_join_of_below`).
-/

namespace CircuitFixtures

namespace Path

variable {p q : Path} {s : Segment} {ss rs : List Segment} {n m : Nat}

/-! ## Depths -/

/-- The depth behind a segment; `none` when it goes up from where the path starts. -/
def depthBehind (n : Nat) (s : Segment) : Option Nat :=
  if isIdle s then some n
  else if s = up then if n = 0 then none else some (n - 1)
  else some (n + 1)

/-- The depth behind segments. -/
def depth (n : Nat) : List Segment → Option Nat
  | [] => some n
  | s :: ss =>
    match depthBehind n s with
    | none => none
    | some m => depth m ss

/-- A relative path that ends below where it starts and goes above it nowhere. -/
def Below (q : Path) : Prop :=
  q.isAbsolute = false ∧ ∃ n, depth 0 q.segments = some (n + 1)

/-- The clean path has the clean directory in front of some more segments, and these do not go
up. -/
def Inside (p q : Path) : Prop :=
  q.isAbsolute = p.isAbsolute ∧
    ∃ rest, rest ≠ [] ∧ rest.head? ≠ some up ∧ q.cleanSegments = p.cleanSegments ++ rest

theorem depth_append : depth n (ss ++ rs) = (depth n ss).bind (depth · rs) := by
  induction ss generalizing n with
  | nil => rfl
  | cons s ss ih =>
    rw [List.cons_append, depth, depth]
    cases depthBehind n s with
    | none => rfl
    | some m => exact ih

theorem depthBehind_name (hidle : isIdle s = false) (hup : s ≠ up) (n : Nat) :
    depthBehind n s = some (n + 1) := by
  rw [depthBehind, hidle, if_neg Bool.false_ne_true, if_neg hup]

/-! ## Clean segments -/

/-- A stack that has so many segments behind those of a directory. -/
def Stacked (dir stack : List Segment) (n : Nat) : Prop :=
  ∃ more, stack = more ++ dir ∧ more.length = n ∧ up ∉ more

variable {absolute : Bool} {dir stack : List Segment} {name : Segment}

theorem stacked_self (dir : List Segment) : Stacked dir dir 0 :=
  ⟨[], rfl, rfl, List.not_mem_nil⟩

theorem Stacked.push (h : Stacked dir stack n) (hdepth : depthBehind n s = some m) :
    Stacked dir (push absolute stack s) m := by
  obtain ⟨more, rfl, rfl, hmore⟩ := h
  rw [depthBehind] at hdepth
  unfold Path.push
  split
  · rename_i hidle
    rw [if_pos hidle] at hdepth
    cases hdepth
    exact ⟨more, rfl, rfl, hmore⟩
  · rename_i hidle
    rw [if_neg hidle] at hdepth
    split
    · rename_i hup
      rw [if_pos hup] at hdepth
      cases more with
      | nil => cases hdepth
      | cons t more =>
        cases hdepth
        rw [List.mem_cons, not_or] at hmore
        exact ⟨more, by simp [Ne.symm hmore.1], rfl, hmore.2⟩
    · rename_i hup
      rw [if_neg hup] at hdepth
      cases hdepth
      refine ⟨s :: more, rfl, rfl, ?_⟩
      rw [List.mem_cons, not_or]
      exact ⟨Ne.symm hup, hmore⟩

theorem Stacked.pushAll (absolute : Bool) (h : Stacked dir stack n) (hdepth : depth n ss = some m) :
    Stacked dir (ss.foldl (Path.push absolute) stack) m := by
  induction ss generalizing stack n with
  | nil =>
    cases hdepth
    exact h
  | cons s ss ih =>
    rw [depth] at hdepth
    split at hdepth
    · cases hdepth
    · rename_i hs
      exact ih (h.push hs) hdepth

/-! ## Segments that go above the directory -/

theorem mem_pushAll (h : name ∈ ss.foldl (push absolute) stack) :
    name ∈ stack ∨ name ∈ ss ∨ name = up := by
  induction ss generalizing stack with
  | nil => exact .inl h
  | cons s ss ih =>
    have hpush : name ∈ push absolute stack s → name ∈ stack ∨ name = s ∨ name = up := by
      unfold push
      grind
    grind

theorem count_push_le (hs : s ≠ name) (hup : up ≠ name) :
    (push absolute stack s).count name ≤ stack.count name := by
  unfold push
  grind

/-- A directory in the root is gone behind segments that go above it. -/
theorem not_mem_pushAll (hup : up ≠ name) (hss : name ∉ ss) (h : Stacked [name] stack n)
    (hcount : stack.count name ≤ 1) (hdepth : depth n ss = none) :
    name ∉ ss.foldl (push true) stack := by
  induction ss generalizing stack n with
  | nil => cases hdepth
  | cons s ss ih =>
    rw [List.mem_cons, not_or] at hss
    rw [depth] at hdepth
    split at hdepth
    · rename_i hs
      obtain ⟨more, rfl, rfl, -⟩ := h
      have hgone : more = [] ∧ push true (more ++ [name]) s = [] := by
        unfold push
        grind [depthBehind]
      rw [List.foldl_cons, hgone.2]
      intro hmem
      rcases mem_pushAll hmem with hmem | hmem | rfl
      · cases hmem
      · exact hss.2 hmem
      · exact hup rfl
    · rename_i hs
      have hle : (push true stack s).count name ≤ stack.count name :=
        count_push_le (Ne.symm hss.1) hup
      exact ih hss.2 (h.push hs) (Nat.le_trans hle hcount) hdepth

/-! ## Paths seen from a directory -/

theorem isAbsolute_join_eq (h : q.isAbsolute = false) :
    (p.join q).isAbsolute = p.isAbsolute := by
  rw [join, h, if_neg Bool.false_ne_true]
  obtain ⟨cs⟩ := p
  cases cs with
  | nil => simpa [isAbsolute] using h
  | cons c cs => split <;> rfl

theorem cleanSegments_join (h : q.isAbsolute = false) :
    (p.join q).cleanSegments =
      (q.segments.foldl (push p.isAbsolute) p.cleanSegments.reverse).reverse := by
  obtain ⟨before, hjoin, hp⟩ := segments_join (p := p) h
  have hbefore : before.foldl (push p.isAbsolute) [] = p.cleanSegments.reverse := by
    rw [cleanSegments, List.reverse_reverse]
    rcases hp with hp | hp
    · rw [hp]
    · rw [hp, List.foldl_append]
      rfl
  rw [cleanSegments, isAbsolute_join_eq h, hjoin, List.foldl_append, hbefore]

theorem inside_join_of_below (h : q.Below) : Inside p (p.join q) := by
  obtain ⟨hrelative, n, hdepth⟩ := h
  refine ⟨isAbsolute_join_eq hrelative, ?_⟩
  obtain ⟨more, hstack, hlength, hup⟩ :=
    (stacked_self p.cleanSegments.reverse).pushAll p.isAbsolute hdepth
  refine ⟨more.reverse, ?_, ?_, ?_⟩
  · intro hnil
    rw [List.reverse_eq_nil_iff.1 hnil] at hlength
    cases hlength
  · intro hhead
    exact hup (List.mem_reverse.1 (List.mem_of_mem_head? hhead))
  · rw [cleanSegments_join hrelative, hstack, List.reverse_append, List.reverse_reverse]

theorem length_le_of_mem_split {cs : List Char} (h : s ∈ split cs) : s.length ≤ cs.length := by
  induction cs generalizing s with
  | nil => simp_all [split]
  | cons c cs ih =>
    rw [split] at h
    split at h
    · rcases List.mem_cons.1 h with rfl | h
      · exact Nat.zero_le _
      · exact Nat.le_succ_of_le (ih h)
    · obtain ⟨r, rs, hrs⟩ := List.exists_cons_of_ne_nil (split_ne_nil cs)
      rw [hrs] at h ih
      rcases List.mem_cons.1 h with rfl | h
      · exact Nat.succ_le_succ (ih List.mem_cons_self)
      · exact Nat.le_succ_of_le (ih (List.mem_cons_of_mem r h))

/-- A directory in the root with a name longer than the path. -/
def elsewhere (q : Path) : Segment :=
  List.replicate (q.chars.length + 3) 'a'

theorem elsewhere_not_mem (q : Path) : elsewhere q ∉ q.segments := by
  intro h
  have hle := length_le_of_mem_split h
  rw [elsewhere, List.length_replicate] at hle
  omega

theorem up_ne_elsewhere (q : Path) : up ≠ elsewhere q := by
  intro h
  have hlength := congrArg List.length h
  simp [up, elsewhere] at hlength

theorem cleanSegments_elsewhere (q : Path) : cleanSegments ⟨'/' :: elsewhere q⟩ = [elsewhere q] := by
  have hname : '/' ∉ elsewhere q := fun h => absurd (List.eq_of_mem_replicate h) (by decide)
  have hidle : isIdle (elsewhere q) = false := by
    simp [isIdle, elsewhere, List.replicate_succ]
  have hsegments : segments ⟨'/' :: elsewhere q⟩ = [[], elsewhere q] := by
    rw [segments, split, if_pos rfl, split_of_not_mem hname]
  have hfirst : push true [] [] = [] := rfl
  have hpush : push true [] (elsewhere q) = [elsewhere q] := by
    rw [push, hidle, if_neg Bool.false_ne_true, if_neg (up_ne_elsewhere q).symm]
  rw [cleanSegments, hsegments, show isAbsolute ⟨'/' :: elsewhere q⟩ = true from rfl,
    List.foldl_cons, List.foldl_cons, hfirst, hpush]
  rfl

/-- A path that does not stay below where it starts leaves some directory. -/
theorem not_inside_elsewhere (h : ¬ q.Below) :
    ¬ Inside ⟨'/' :: elsewhere q⟩ (join ⟨'/' :: elsewhere q⟩ q) := by
  rintro ⟨-, rest, hrest, -, hclean⟩
  rw [cleanSegments_elsewhere] at hclean
  have hmem : elsewhere q ∈ (join ⟨'/' :: elsewhere q⟩ q).cleanSegments := by
    rw [hclean]
    exact List.mem_cons_self
  cases habsolute : q.isAbsolute with
  | true =>
    rw [join, if_pos habsolute, cleanSegments, List.mem_reverse] at hmem
    rcases mem_pushAll hmem with hmem | hmem | hmem
    · cases hmem
    · exact elsewhere_not_mem q hmem
    · exact up_ne_elsewhere q hmem.symm
  | false =>
    rw [cleanSegments_join habsolute, cleanSegments_elsewhere, List.mem_reverse,
      List.reverse_singleton] at hmem
    rw [cleanSegments_join habsolute, cleanSegments_elsewhere, List.reverse_singleton] at hclean
    have hstacked := stacked_self [elsewhere q]
    cases hdepth : depth 0 q.segments with
    | none =>
      exact not_mem_pushAll (up_ne_elsewhere q) (elsewhere_not_mem q) hstacked
        List.count_le_length hdepth hmem
    | some n => cases n with
      | zero =>
        obtain ⟨more, hstack, hlength, -⟩ := hstacked.pushAll true hdepth
        rw [List.length_eq_zero_iff.1 hlength] at hstack
        rw [show isAbsolute ⟨'/' :: elsewhere q⟩ = true from rfl, hstack] at hclean
        exact hrest (List.append_cancel_left (hclean.symm.trans (List.append_nil _).symm))
      | succ n => exact h ⟨habsolute, n, hdepth⟩

/-- Seen from every directory, a path is inside it exactly when it stays below where it starts. -/
theorem forall_inside_join_iff : (∀ p, Inside p (p.join q)) ↔ q.Below := by
  constructor
  · intro h
    exact Classical.byContradiction fun hbelow => not_inside_elsewhere hbelow (h _)
  · intro h p
    exact inside_join_of_below h

end Path

/-! ## Where such paths lead -/

namespace FileTree

open CircuitFixtures.Path (depth depthBehind)

variable {t : FileTree} {cwd names d r next : Names} {s : Path.Segment} {ss : List Path.Segment}
variable {m : Nat}

theorem Step.below (hdepth : depthBehind r.length s = some m) (h : t.Step (d ++ r) s next) :
    ∃ r', next = d ++ r' ∧ r'.length = m := by
  rw [depthBehind] at hdepth
  cases h with
  | stay hidle =>
    rw [if_pos hidle] at hdepth
    cases hdepth
    exact ⟨r, rfl, rfl⟩
  | up hidle hup =>
    rw [hidle, if_neg Bool.false_ne_true, if_pos hup] at hdepth
    split at hdepth
    · cases hdepth
    · rename_i hne
      cases hdepth
      have hr : r ≠ [] := fun hnil => hne (List.length_eq_zero_iff.2 hnil)
      exact ⟨r.dropLast, List.dropLast_append_of_ne_nil hr, List.length_dropLast⟩
  | down hidle hup _ _ =>
    rw [hidle, if_neg Bool.false_ne_true, if_neg hup] at hdepth
    cases hdepth
    exact ⟨r ++ [s], List.append_assoc d r [s], List.length_append⟩

theorem follow_below (hdepth : depth r.length ss = some m) (h : t.follow (d ++ r) ss = .ok names) :
    ∃ r', names = d ++ r' ∧ r'.length = m := by
  induction ss generalizing r with
  | nil =>
    cases hdepth
    cases h
    exact ⟨r, rfl, rfl⟩
  | cons s ss ih =>
    rw [depth] at hdepth
    split at hdepth
    · cases hdepth
    · rename_i hs
      obtain ⟨-, next, hstep, hnext⟩ := follow_cons_eq_ok_iff.1 h
      obtain ⟨r', rfl, rfl⟩ := hstep.below hs
      exact ih hdepth hnext

/-- A path that stays below where it starts leads from a directory to what is under it. -/
theorem locate_join_of_below {p q : Path} (hq : q.Below)
    (h : t.locate cwd (p.join q) = .ok names) :
    ∃ d rest, t.follow (start cwd p) p.segments = .ok d ∧ rest ≠ [] ∧ names = d ++ rest := by
  obtain ⟨hrelative, n, hdepth⟩ := hq
  obtain ⟨-, hfollow⟩ := locate_eq_ok_iff.1 h
  obtain ⟨before, hjoin, hp⟩ := Path.segments_join (p := p) hrelative
  rw [start, Path.isAbsolute_join_eq hrelative, ← start, hjoin, follow_append_eq_ok_iff] at hfollow
  obtain ⟨d, hbefore, hrest⟩ := hfollow
  obtain ⟨rest, rfl, hlength⟩ :=
    follow_below (r := []) hdepth (by rwa [List.append_nil])
  refine ⟨d, rest, ?_, ?_, rfl⟩
  · rcases hp with hp | hp
    · rw [hp]
      exact hbefore
    · obtain ⟨s, ss, hss⟩ := List.exists_cons_of_ne_nil (Path.split_ne_nil q.chars)
      rw [Path.segments, hss] at hrest
      rw [hp]
      exact follow_slash_eq_ok_iff.2 ⟨hbefore, (follow_cons_eq_ok_iff.1 hrest).1⟩
  · rintro rfl
    cases hlength

end FileTree

end CircuitFixtures
