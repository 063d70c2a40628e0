import CircuitFixtures.Proofs.Files.Below
import CircuitFixtures.Proofs.Files.Parents
import Mathlib.Data.List.Infix
import Mathlib.Logic.Relation

/-!
# Components of paths

The components of a path are the segments that say something. A path from the root is cleaned by
steps that need no order (`Path.Reduces`): what does not go on is the clean path, whichever steps
are taken (`Path.reduces_cleanSegments`, `Path.eq_cleanSegments`). The directories around such a path
are those of the initial parts of its components, the longest one first
(`Path.components_ancestors`).
-/

namespace CircuitFixtures.Path

variable {p q : Path} {s : Segment} {ss rs stack : List Segment} {absolute : Bool}

/-- The segments without those that say nothing. -/
def telling (ss : List Segment) : List Segment :=
  ss.filter (fun s => !isIdle s)

def components (p : Path) : List Segment :=
  telling p.segments

/-- A segment that names an entry. -/
structure IsName (s : Segment) : Prop where
  notIdle : isIdle s = false
  notUp : s ≠ up

theorem IsName.ne_dot (h : IsName s) : s ≠ ['.'] := by
  rintro rfl
  cases h.notIdle

theorem telling_eq_self (h : ∀ s ∈ ss, IsName s) : telling ss = ss :=
  List.filter_eq_self.2 fun s hs => by rw [(h s hs).notIdle]; rfl

@[simp]
theorem telling_cons_idle (h : isIdle s = true) : telling (s :: ss) = telling ss := by
  simp [telling, h]

@[simp]
theorem telling_cons (h : isIdle s = false) : telling (s :: ss) = s :: telling ss := by
  simp [telling, h]

theorem telling_reverse : telling ss.reverse = (telling ss).reverse :=
  List.filter_reverse

/-! ## Cleaning -/

/-- One step to a shorter path from the root. What says nothing is left out, a name and the step up
behind it take each other back, and above the root there is nothing. -/
inductive Reduces : List Segment → List Segment → Prop where
  | idle (before behind : List Segment) {s : Segment} :
      isIdle s = true → Reduces (before ++ s :: behind) (before ++ behind)
  | back (before behind : List Segment) {s : Segment} :
      IsName s → Reduces (before ++ s :: up :: behind) (before ++ behind)
  | root (behind : List Segment) : Reduces (up :: behind) behind

theorem push_idle (h : isIdle s = true) : push absolute stack s = stack := by
  unfold push
  rw [if_pos h]

theorem push_name (h : IsName s) : push absolute stack s = s :: stack := by
  unfold push
  rw [h.notIdle, if_neg Bool.false_ne_true, if_neg h.notUp]

theorem push_root_up : push true [] up = [] := rfl

theorem push_back (h : IsName s) : push absolute (s :: stack) up = stack := by
  unfold push
  rw [if_neg (by decide), if_pos rfl]
  exact if_neg h.notUp

/-- No step changes what is left in the end. -/
theorem Reduces.pushAll_eq (h : Reduces ss rs) :
    ss.foldl (push true) [] = rs.foldl (push true) [] := by
  cases h with
  | idle before behind hs => rw [List.foldl_append, List.foldl_append, List.foldl_cons, push_idle hs]
  | back before behind hs =>
    rw [List.foldl_append, List.foldl_append, List.foldl_cons, List.foldl_cons, push_name hs,
      push_back hs]
  | root behind => rw [List.foldl_cons, push_root_up]

theorem pushAll_telling : (telling ss).foldl (push absolute) stack = ss.foldl (push absolute) stack := by
  induction ss generalizing stack with
  | nil => rfl
  | cons s ss ih =>
    cases hs : isIdle s with
    | true => rw [telling_cons_idle hs, List.foldl_cons, push_idle hs, ih]
    | false => rw [telling_cons hs, List.foldl_cons, List.foldl_cons, ih]

theorem pushAll_names (h : ∀ s ∈ ss, IsName s) :
    ss.foldl (push absolute) stack = ss.reverse ++ stack := by
  induction ss generalizing stack with
  | nil => rfl
  | cons s ss ih =>
    obtain ⟨hs, hss⟩ := List.forall_mem_cons.1 h
    rw [List.foldl_cons, push_name hs, ih hss, List.reverse_cons, List.append_assoc]
    rfl

theorem isName_push (h : ∀ r ∈ stack, IsName r) : ∀ r ∈ push true stack s, IsName r := by
  by_cases hidle : isIdle s = true
  · rwa [push_idle hidle]
  · rw [Bool.not_eq_true] at hidle
    by_cases hup : s = up
    · subst hup
      cases stack with
      | nil => exact h
      | cons r stack =>
        obtain ⟨hr, hstack⟩ := List.forall_mem_cons.1 h
        rwa [push_back hr]
    · rw [push_name ⟨hidle, hup⟩]
      exact List.forall_mem_cons.2 ⟨⟨hidle, hup⟩, h⟩

theorem isName_pushAll (h : ∀ r ∈ stack, IsName r) :
    ∀ r ∈ ss.foldl (push true) stack, IsName r := by
  induction ss generalizing stack with
  | nil => exact h
  | cons s ss ih => exact ih (isName_push h)

/-- A segment that is added to clean ones is at most one step. -/
theorem reduces_push (h : ∀ r ∈ stack, IsName r) :
    Relation.ReflTransGen Reduces (stack.reverse ++ s :: ss) ((push true stack s).reverse ++ ss) := by
  by_cases hidle : isIdle s = true
  · rw [push_idle hidle]
    exact .single (.idle _ _ hidle)
  · rw [Bool.not_eq_true] at hidle
    by_cases hup : s = up
    · subst hup
      cases stack with
      | nil => exact .single (.root ss)
      | cons r stack =>
        have hr : IsName r := h r List.mem_cons_self
        rw [push_back hr, List.reverse_cons, List.append_assoc]
        exact .single (.back _ _ hr)
    · rw [push_name ⟨hidle, hup⟩, List.reverse_cons, List.append_assoc]
      exact .refl

theorem reduces_pushAll (h : ∀ r ∈ stack, IsName r) :
    Relation.ReflTransGen Reduces (stack.reverse ++ ss) (ss.foldl (push true) stack).reverse := by
  induction ss generalizing stack with
  | nil =>
    rw [List.append_nil]
    exact .refl
  | cons s ss ih => exact (reduces_push h).trans (ih (isName_push h))

/-! ## Clean paths -/

theorem cleanSegments_eq (h : p.isAbsolute = true) :
    p.cleanSegments = (p.segments.foldl (push true) []).reverse := by
  rw [cleanSegments, h]

theorem isName_of_mem_cleanSegments (h : p.isAbsolute = true) (hs : s ∈ p.cleanSegments) :
    IsName s := by
  rw [cleanSegments_eq h, List.mem_reverse] at hs
  exact isName_pushAll (by simp) s hs

theorem reduces_cleanSegments (h : p.isAbsolute = true) :
    Relation.ReflTransGen Reduces p.segments p.cleanSegments := by
  rw [cleanSegments_eq h]
  have hnone : ∀ s ∈ ([] : List Segment), IsName s := by simp
  exact reduces_pushAll hnone

/-- Whichever steps are taken, names alone are left in the end only where it is the clean path. -/
theorem eq_cleanSegments (h : p.isAbsolute = true)
    (hsteps : Relation.ReflTransGen Reduces p.segments rs) (hnames : ∀ s ∈ rs, IsName s) :
    rs = p.cleanSegments := by
  have hleft : p.segments.foldl (push true) [] = rs.foldl (push true) [] := by
    clear hnames
    induction hsteps with
    | refl => rfl
    | tail _ hstep ih => exact ih.trans hstep.pushAll_eq
  rw [cleanSegments_eq h, hleft, pushAll_names hnames, List.append_nil, List.reverse_reverse]

theorem not_slash_of_mem_cleanSegments (h : s ∈ p.cleanSegments) : '/' ∉ s := by
  rw [cleanSegments, List.mem_reverse] at h
  rcases mem_pushAll h with h | h | rfl
  · cases h
  · exact not_mem_of_mem_segments h
  · decide

/-- A clean path from the root is written with its names and no more. -/
theorem segments_clean (h : p.isAbsolute = true) :
    p.clean.segments = [] :: if p.cleanSegments = [] then [[]] else p.cleanSegments := by
  rw [clean, if_pos h, segments, split, if_pos rfl]
  split
  · rename_i hroot
    rw [hroot]
    rfl
  · rename_i hne
    rw [split_unsplit hne fun s => not_slash_of_mem_cleanSegments]

theorem components_clean (h : p.isAbsolute = true) : p.clean.components = p.cleanSegments := by
  have hnames := telling_eq_self fun s => isName_of_mem_cleanSegments h
  rw [components, segments_clean h]
  split
  · rename_i hroot
    rw [hroot]
    rfl
  · exact hnames

theorem clean_clean (h : p.isAbsolute = true) : p.clean.clean = p.clean := by
  have habsolute := isAbsolute_clean h
  have hsegments : p.clean.cleanSegments = p.cleanSegments := by
    rw [cleanSegments_eq habsolute, ← pushAll_telling]
    have hcomponents := components_clean h
    rw [components] at hcomponents
    rw [hcomponents, pushAll_names fun s => isName_of_mem_cleanSegments h, List.append_nil,
      List.reverse_reverse]
  rw [clean, if_pos habsolute, hsegments, clean, if_pos h]

/-- No segment of a clean path says to stay or to go up. -/
theorem ne_dot_and_ne_up (h : p.isAbsolute = true) (hs : s ∈ p.clean.segments) :
    s ≠ ['.'] ∧ s ≠ up := by
  rw [segments_clean h, List.mem_cons] at hs
  rcases hs with rfl | hs
  · decide
  · split at hs
    · rw [List.mem_singleton.1 hs]
      decide
    · have hname := isName_of_mem_cleanSegments h hs
      exact ⟨hname.ne_dot, hname.notUp⟩

/-- `r` is what is left of a path from the root when nothing in it can be made shorter. -/
structure NormalForm (p r : Path) : Prop where
  isAbsolute : r.isAbsolute = true
  reduces : Relation.ReflTransGen Reduces p.segments r.components
  unique : ∀ rs, Relation.ReflTransGen Reduces p.segments rs → (∀ s ∈ rs, IsName s) →
    rs = r.components
  no_step : ∀ s ∈ r.segments, s ≠ ['.'] ∧ s ≠ up
  clean_eq : r.clean = r

theorem normalForm_clean (h : p.isAbsolute = true) : NormalForm p p.clean where
  isAbsolute := isAbsolute_clean h
  reduces := components_clean h ▸ reduces_cleanSegments h
  unique := fun _ hsteps hnames => components_clean h ▸ eq_cleanSegments h hsteps hnames
  no_step := fun _ => ne_dot_and_ne_up h
  clean_eq := clean_clean h

/-- A step up at the root stays there. -/
example : (ofString "/../a/./b/../../..//c/").clean = ofString "/c" := by decide

/-! ## The directories around a path -/

theorem telling_dropIdle : telling (dropIdle ss) = telling ss := by
  fun_induction dropIdle ss with
  | case1 => rfl
  | case2 => rfl
  | case3 s ss _ hidle ih => rw [ih, telling_cons_idle hidle]
  | case4 => rfl

theorem head_dropIdle (h : dropIdle ss = s :: rs) (hne : rs ≠ []) : isIdle s = false := by
  fun_induction dropIdle ss with
  | case1 => cases h
  | case2 =>
    cases h
    exact absurd rfl hne
  | case3 _ _ _ _ ih => exact ih h
  | case4 r ss hss hidle =>
    cases h
    exact Bool.not_eq_true _ ▸ hidle

/-- What is left first is without the last segment, and no other that says something. -/
theorem telling_of_parentsOf {rest : List (List Segment)} (h : parentsOf (s :: ss) = rs :: rest) :
    telling rs = telling ss := by
  induction ss generalizing s with
  | nil => cases h
  | cons r ss ih =>
    rw [parentsOf] at h
    split at h
    · rename_i hidle
      rw [Bool.and_eq_true] at hidle
      rw [ih h, telling_cons_idle hidle.1]
    · cases h
      rfl

theorem getLast?_reverse_segments (h : p.isAbsolute = true) :
    p.segments.reverse.getLast? = some [] := by
  obtain ⟨ss, -, hss⟩ := segments_of_isAbsolute h
  rw [hss, List.reverse_cons, List.getLast?_concat]

theorem components_ofReversed (hne : rs ≠ []) (hsuffix : rs <:+ p.segments.reverse) :
    (ofReversed true rs).components = (telling rs).reverse := by
  rw [ofReversed, Bool.true_and]
  split
  · rename_i hroot
    rw [beq_iff_eq.1 hroot]
    rfl
  · have hslash : ∀ s ∈ rs.reverse, '/' ∉ s := fun s hs =>
      not_mem_of_mem_segments (List.mem_reverse.1 (hsuffix.subset (List.mem_reverse.1 hs)))
    rw [components, segments, split_unsplit (by simpa using hne) hslash, telling_reverse]

/-- Without components there is nothing around a path; else the innermost directory has all of them
but the last. -/
theorem parents_cases (h : p.isAbsolute = true) :
    p.components = [] ∧ p.parents = [] ∨
      ∃ q : Path, ∃ s, q.isAbsolute = true ∧ p.components = q.components ++ [s] ∧
        p.parents = q.ancestors := by
  have hlast := getLast?_reverse_segments h
  cases hrest : parentsOf (dropIdle p.segments.reverse) with
  | nil =>
    have hlength : (dropIdle p.segments.reverse).length ≤ 1 :=
      Nat.le_of_not_lt fun hlong => parentsOf_ne_nil hlong hrest
    refine .inl ⟨List.filter_eq_nil_iff.2 fun s hs => ?_, by simp [parents, h, hrest]⟩
    simp [idle_of_length_dropIdle hlast hlength s (List.mem_reverse.2 hs)]
  | cons rs rest =>
    have hparent : p.parent? = some (ofReversed true rs) := by simp [parent?, parents, h, hrest]
    obtain ⟨hmem, hne⟩ := suffix_of_mem_parentsOf (hrest ▸ List.mem_cons_self)
    have hcomponents := components_ofReversed hne (hmem.trans (dropIdle_suffix _))
    have hparents := parents_of_parent? hparent
    cases hdrop : dropIdle p.segments.reverse with
    | nil => simp [hdrop, parentsOf] at hrest
    | cons s ss =>
      rw [hdrop] at hrest
      have hs : isIdle s = false := head_dropIdle hdrop (by rintro rfl; cases hrest)
      refine .inr ⟨_, s, isAbsolute_of_mem_parents h (hparents ▸ List.mem_cons_self), ?_, hparents⟩
      have htelling : telling p.segments.reverse = s :: telling rs := by
        rw [← telling_dropIdle, hdrop, telling_cons hs, telling_of_parentsOf hrest]
      rw [hcomponents, components, ← List.reverse_reverse p.segments, telling_reverse, htelling,
        List.reverse_cons]

/-- A path from the root and the directories around it have the initial parts of its components, the
longest one first. -/
theorem components_ancestors (h : p.isAbsolute = true) :
    p.ancestors.map components = p.components.inits.reverse := by
  induction hcomponents : p.components using List.reverseRecOn generalizing p with
  | nil =>
    rcases parents_cases h with ⟨-, hparents⟩ | ⟨q, s, -, hp, -⟩
    · rw [ancestors, hparents, List.map_singleton, hcomponents]
      rfl
    · rw [hcomponents] at hp
      simp at hp
  | append_singleton ss s ih =>
    rcases parents_cases h with ⟨hp, -⟩ | ⟨q, r, hq, hp, hparents⟩
    · rw [hcomponents] at hp
      simp at hp
    · rw [hcomponents] at hp
      obtain ⟨rfl, -⟩ := List.append_inj' hp rfl
      rw [ancestors, hparents, List.map_cons, ih hq rfl, List.inits_append, hcomponents]
      simp

theorem isAbsolute_of_mem_ancestors (h : p.isAbsolute = true) (hq : q ∈ p.ancestors) :
    q.isAbsolute = true := by
  rcases List.mem_cons.1 hq with rfl | hq
  · exact h
  · exact isAbsolute_of_mem_parents h hq

theorem pairwise_inits {α : Type} (xs : List α) :
    xs.inits.Pairwise (fun ys zs => ys <+: zs ∧ ys ≠ zs) := by
  induction xs with
  | nil => simp
  | cons x xs ih =>
    rw [List.inits_cons, List.pairwise_cons, List.pairwise_map]
    constructor
    · intro ys hys
      obtain ⟨zs, -, rfl⟩ := List.mem_map.1 hys
      exact ⟨List.nil_prefix, (List.cons_ne_nil x zs).symm⟩
    · refine ih.imp fun {ys zs} h => ?_
      simpa using h

/-- Each directory is above those that come before it. -/
theorem pairwise_ancestors (h : p.isAbsolute = true) : p.ancestors.Pairwise
    (fun q r => r.components <+: q.components ∧ r.components ≠ q.components) := by
  have hinits := List.pairwise_reverse.2 (pairwise_inits p.components)
  rw [← components_ancestors h] at hinits
  exact List.pairwise_map.1 hinits

/-- All that come behind the first directory of which something holds are above it. -/
theorem above_of_find?_ancestors (h : p.isAbsolute = true) {P : Path → Bool} {r : Path}
    (hq : p.ancestors.find? P = some q) (hr : r ∈ p.ancestors) (hPr : P r = true) :
    r = q ∨ r.components <+: q.components ∧ r.components ≠ q.components := by
  obtain ⟨-, before, behind, hsplit, hbefore⟩ := List.find?_eq_some_iff_append.1 hq
  have horder := pairwise_ancestors h
  rw [hsplit, List.pairwise_append, List.pairwise_cons] at horder
  rw [hsplit, List.mem_append, List.mem_cons] at hr
  rcases hr with hr | hr | hr
  · have hnot := hbefore r hr
    rw [hPr] at hnot
    cases hnot
  · exact .inl hr
  · exact .inr (horder.2.1.1 r hr)

/-- The first directory of which something holds is the deepest. -/
theorem find?_ancestors_eq_some_iff (h : p.isAbsolute = true) {P : Path → Bool} :
    p.ancestors.find? P = some q ↔
      q ∈ p.ancestors ∧ P q = true ∧
        ∀ r ∈ p.ancestors, P r = true → r.components <+: q.components := by
  constructor
  · intro hq
    refine ⟨List.mem_of_find?_eq_some hq, List.find?_some hq, fun r hr hPr => ?_⟩
    rcases above_of_find?_ancestors h hq hr hPr with rfl | habove
    · exact List.prefix_refl _
    · exact habove.1
  · rintro ⟨hmem, hPq, hdeepest⟩
    obtain ⟨q', hq'⟩ := Option.isSome_iff_exists.1 (List.find?_isSome.2 ⟨q, hmem, hPq⟩)
    rcases above_of_find?_ancestors h hq' hmem hPq with rfl | ⟨habove, hne⟩
    · exact hq'
    · have hback := hdeepest q' (List.mem_of_find?_eq_some hq') (List.find?_some hq')
      exact absurd (habove.eq_of_length_le hback.length_le) hne

theorem unsplit_append (hs : ss ≠ []) (hr : rs ≠ []) :
    unsplit (ss ++ rs) = unsplit ss ++ '/' :: unsplit rs := by
  obtain ⟨r, rest, rfl⟩ := List.exists_cons_of_ne_nil hr
  fun_induction unsplit ss with
  | case1 => exact absurd rfl hs
  | case2 s => simp [unsplit]
  | case3 s ss hss ih =>
    have hmore : ss ++ r :: rest ≠ [] := by simp
    rw [List.cons_append, unsplit, ih hss, List.append_assoc]
    · rfl
    · exact hmore

/-- The directories around a path are written as the path begins. -/
theorem prefix_of_mem_ancestors (h : p.isAbsolute = true) (hq : q ∈ p.ancestors) :
    q.chars <+: p.chars := by
  rcases List.mem_cons.1 hq with rfl | hq
  · exact List.prefix_refl _
  · simp only [parents, h, Bool.true_or, if_true] at hq
    obtain ⟨rs, hrs, rfl⟩ := List.mem_map.1 hq
    obtain ⟨hmem, hne⟩ := suffix_of_mem_parentsOf hrs
    obtain ⟨more, hmore⟩ : rs.reverse <+: p.segments := by
      simpa using List.reverse_prefix.2 (hmem.trans (dropIdle_suffix _))
    rw [ofReversed]
    split
    · obtain ⟨c, cs, hp⟩ : ∃ c cs, p.chars = c :: cs := List.exists_cons_of_ne_nil fun hnil => by
        simp [isAbsolute, hnil] at h
      have hc : c = '/' := by simpa [isAbsolute, hp] using h
      exact ⟨cs, by rw [hp, hc]; rfl⟩
    · rw [← unsplit_segments p, ← hmore]
      cases more with
      | nil => rw [List.append_nil]
      | cons r more =>
        rw [unsplit_append (by simpa using hne) (List.cons_ne_nil r more)]
        exact List.prefix_append _ _

end CircuitFixtures.Path
