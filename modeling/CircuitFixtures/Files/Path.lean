/-!
# Paths

A path is kept as it is written. `join` and `parent?` work on the text, so that what a
user wrote is what is shown; `clean` gives the shortest path with the same meaning, where
no directory is a link.

`unsplit_segments` says that a path is the text of its segments, `not_mem_of_mem_segments` that
none of them holds a slash, and `isAbsolute_join` and `isAbsolute_clean` what joining and
cleaning do to absolute paths.
-/

namespace CircuitFixtures

structure Path where
  chars : List Char
  deriving Repr, DecidableEq

namespace Path

def ofString (s : String) : Path :=
  ⟨s.toList⟩

def toString (p : Path) : String :=
  String.ofList p.chars

instance : ToString Path := ⟨toString⟩

instance : Inhabited Path := ⟨⟨[]⟩⟩

/-! ## Segments -/

abbrev Segment := List Char

/-- The parts of a text between its slashes; there is always one. -/
def split : List Char → List Segment
  | [] => [[]]
  | c :: cs =>
    if c = '/' then [] :: split cs
    else
      match split cs with
      | [] => [[c]]
      | s :: ss => (c :: s) :: ss

/-- Segments with slashes between them. -/
def unsplit : List Segment → List Char
  | [] => []
  | [s] => s
  | s :: ss => s ++ '/' :: unsplit ss

def segments (p : Path) : List Segment :=
  split p.chars

/-- The segment that goes up. -/
def up : Segment := ['.', '.']

theorem split_ne_nil (cs : List Char) : split cs ≠ [] := by
  cases cs with
  | nil => simp [split]
  | cons c cs =>
    simp only [split]
    split
    · simp
    · split <;> simp

theorem unsplit_split (cs : List Char) : unsplit (split cs) = cs := by
  induction cs with
  | nil => rfl
  | cons c cs ih =>
    have hne := split_ne_nil cs
    rw [split]
    split
    · rename_i h
      cases hs : split cs with
      | nil => exact absurd hs hne
      | cons s ss => simp [unsplit, ← hs, ih, h]
    · cases hs : split cs with
      | nil => exact absurd hs hne
      | cons s ss =>
        rw [hs] at ih
        cases ss with
        | nil => simpa [unsplit] using ih
        | cons t ts => simpa [unsplit] using ih

/-- A path is the text of its segments. -/
theorem unsplit_segments (p : Path) : unsplit p.segments = p.chars :=
  unsplit_split p.chars

theorem not_mem_of_mem_split {cs : List Char} {s : Segment} (h : s ∈ split cs) : '/' ∉ s := by
  induction cs generalizing s with
  | nil =>
    rw [List.mem_singleton.1 h]
    exact List.not_mem_nil
  | cons c cs ih =>
    rw [split] at h
    split at h
    · rcases List.mem_cons.1 h with rfl | h
      · exact List.not_mem_nil
      · exact ih h
    · rename_i hc
      have hfirst {r : Segment} (hr : '/' ∉ r) : '/' ∉ c :: r := by
        rw [List.mem_cons, not_or]
        exact ⟨Ne.symm hc, hr⟩
      split at h
      · rw [List.mem_singleton.1 h]
        exact hfirst List.not_mem_nil
      · rename_i r rs hsplit
        rcases List.mem_cons.1 h with rfl | h
        · exact hfirst (ih (hsplit ▸ List.mem_cons_self))
        · exact ih (hsplit ▸ List.mem_cons_of_mem r h)

theorem mem_of_mem_segments {p : Path} {s : Segment} {c : Char} (h : s ∈ p.segments)
    (hc : c ∈ s) : c ∈ p.chars := by
  have hunsplit {ss : List Segment} (hs : s ∈ ss) : c ∈ unsplit ss := by
    fun_induction unsplit ss with
    | case1 => cases hs
    | case2 r => rwa [← List.mem_singleton.1 hs]
    | case3 r rs hrs ih =>
      rcases List.mem_cons.1 hs with rfl | hs
      · exact List.mem_append_left _ hc
      · exact List.mem_append_right _ (List.mem_cons_of_mem _ (ih hs))
  rw [← unsplit_segments p]
  exact hunsplit h

theorem not_mem_of_mem_segments {p : Path} {s : Segment} (h : s ∈ p.segments) : '/' ∉ s :=
  not_mem_of_mem_split h

def isAbsolute (p : Path) : Bool :=
  p.chars.head? == some '/'

/-- The path `q`, seen from the directory `p`. -/
def join (p q : Path) : Path :=
  if q.isAbsolute then q
  else if p.chars.isEmpty || p.chars.getLast? == some '/' then ⟨p.chars ++ q.chars⟩
  else ⟨p.chars ++ '/' :: q.chars⟩

/-! ## Extensions -/

/-- What stands before the last dot of a text and behind it. -/
def cutAtDot : List Char → Option (List Char × List Char)
  | [] => none
  | c :: cs =>
    match cutAtDot cs with
    | some (before, behind) => some (c :: before, behind)
    | none => if c = '.' then some ([], cs) else none

/-- A name is cut at its last dot into its stem and its extension. A dot that starts the name is
part of the stem, and the segment that goes up is not cut. -/
def stemAndExtension (name : Segment) : Segment × Option (List Char) :=
  if name = up then (name, none)
  else
    match cutAtDot name with
    | none => (name, none)
    | some (before, behind) => if before = [] then (name, none) else (before, some behind)

def stem (name : Segment) : Segment :=
  (stemAndExtension name).1

def extension? (name : Segment) : Option (List Char) :=
  (stemAndExtension name).2

/-! ## Parents -/

/-- A segment that says nothing. -/
def isIdle (s : Segment) : Bool :=
  s == [] || s == ['.']

/-- Segments, last first, without those at the end of a path that say nothing. The first
segment of a path stays. -/
def dropIdle : List Segment → List Segment
  | [] => []
  | [s] => [s]
  | s :: ss => if isIdle s then dropIdle ss else s :: ss

/-- What is left when the segments in front are taken away one by one, from segments that
are last first. -/
def parentsOf : List Segment → List (List Segment)
  | [] => []
  | [_] => []
  | _ :: s :: ss =>
    if isIdle s && !ss.isEmpty then parentsOf (s :: ss)
    else (s :: ss) :: parentsOf (s :: ss)

/-- The path of segments that are last first. -/
def ofReversed (absolute : Bool) (ss : List Segment) : Path :=
  if absolute && ss == [[]] then ⟨['/']⟩ else ⟨unsplit ss.reverse⟩

/-- The directories around a path, innermost first. The last one of a relative path is
the empty path. -/
def parents (p : Path) : List Path :=
  let inner := (parentsOf (dropIdle p.segments.reverse)).map (ofReversed p.isAbsolute)
  if p.isAbsolute || p.chars.isEmpty then inner else inner ++ [⟨[]⟩]

def parent? (p : Path) : Option Path :=
  p.parents.head?

/-- A path and the directories around it. -/
def ancestors (p : Path) : List Path :=
  p :: p.parents

/-! ## Cleaning -/

/-- Adds a segment to clean ones, which are last first. Going up takes the last one back;
above the root there is nothing. -/
def push (absolute : Bool) (stack : List Segment) (s : Segment) : List Segment :=
  if isIdle s then stack
  else if s = up then
    match stack with
    | [] => if absolute then [] else [up]
    | t :: rest => if t = up then up :: t :: rest else rest
  else s :: stack

/-- The segments of a clean path. -/
def cleanSegments (p : Path) : List Segment :=
  (p.segments.foldl (push p.isAbsolute) []).reverse

/-- The path without segments that say nothing and without steps up that can be taken
back. -/
def clean (p : Path) : Path :=
  if p.isAbsolute then ⟨'/' :: unsplit p.cleanSegments⟩
  else if p.cleanSegments.isEmpty then ⟨['.']⟩
  else ⟨unsplit p.cleanSegments⟩

theorem isAbsolute_join {p q : Path} (h : p.isAbsolute) : (p.join q).isAbsolute := by
  rw [join]
  split
  · assumption
  · cases hp : p.chars with
    | nil => simp [isAbsolute, hp] at h
    | cons c cs =>
      split <;> simpa [isAbsolute, hp] using h

theorem isAbsolute_clean {p : Path} (h : p.isAbsolute) : p.clean.isAbsolute := by
  rw [clean, if_pos h]
  rfl

end Path

end CircuitFixtures
