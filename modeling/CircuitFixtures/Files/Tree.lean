import CircuitFixtures.Files.Path

/-!
# File trees

A file tree is a value: files with their bytes, and directories, each under the names that
lead to it from the root, the last of which a path can name (`FileName`). Paths are followed
segment by segment, and every segment needs a directory to start from.

`find?` is the view. `find?_put` says what writing an entry does to it, and every
operation that changes a tree is built from `put`.
-/

namespace CircuitFixtures

/-- The names that lead from the root to an entry. -/
abbrev Names := List (List Char)

/-- The longest name of an entry, in bytes. -/
def FileTree.nameLimit : Nat := 255

def FileTree.nameFits (name : List Char) : Bool :=
  (String.ofList name).utf8ByteSize ≤ nameLimit

/-- A name that an entry of a directory can have. -/
structure FileName (name : Path.Segment) : Prop where
  noSlash : '/' ∉ name
  noEnd : '\x00' ∉ name
  notIdle : Path.isIdle name = false
  notUp : name ≠ Path.up
  fits : FileTree.nameFits name = true

instance (name : Path.Segment) : Decidable (FileName name) :=
  decidable_of_iff ('/' ∉ name ∧ '\x00' ∉ name ∧ Path.isIdle name = false ∧ name ≠ Path.up ∧
      FileTree.nameFits name = true)
    ⟨fun h => ⟨h.1, h.2.1, h.2.2.1, h.2.2.2.1, h.2.2.2.2⟩,
      fun h => ⟨h.noSlash, h.noEnd, h.notIdle, h.notUp, h.fits⟩⟩

theorem FileName.ne_nil {name : Path.Segment} (h : FileName name) : name ≠ [] := by
  rintro rfl
  cases h.notIdle

/-- The last of the names is one that an entry of a directory can have. -/
def IsEntry (names : Names) : Prop :=
  ∃ name ∈ names.getLast?, FileName name

instance (names : Names) : Decidable (IsEntry names) :=
  inferInstanceAs (Decidable (∃ name ∈ names.getLast?, FileName name))

theorem isEntry_append {d : Names} {name : Path.Segment} :
    IsEntry (d ++ [name]) ↔ FileName name := by
  simp [IsEntry]

theorem IsEntry.ne_nil {names : Names} (h : IsEntry names) : names ≠ [] := by
  rintro rfl
  obtain ⟨name, hname, -⟩ := h
  cases hname

inductive Entry where
  | file (content : List UInt8)
  | directory
  deriving Repr, DecidableEq

structure FileTree where
  entries : List (Names × Entry)
  /-- No two entries have the same names. -/
  nodup : (entries.map (·.1)).Nodup
  /-- Every entry has a name that a path can say. -/
  isEntry : ∀ p ∈ entries, IsEntry p.1
  deriving Repr, DecidableEq

/-- Why an operation on a file tree is refused. -/
inductive FileFault where
  | notFound
  | exists
  | notDirectory
  | isDirectory
  | nameTooLong
  /-- A path with a character that ends names. -/
  | badName
  | notText
  deriving Repr, DecidableEq

def FileFault.message : FileFault → String
  | .notFound => "No such file or directory (os error 2)"
  | .exists => "File exists (os error 17)"
  | .notDirectory => "Not a directory (os error 20)"
  | .isDirectory => "Is a directory (os error 21)"
  | .nameTooLong => "File name too long (os error 36)"
  | .badName => "file name contained an unexpected NUL byte"
  | .notText => "stream did not contain valid UTF-8"

namespace FileTree

/-- The tree that holds the root only. -/
def empty : FileTree := ⟨[], List.nodup_nil, List.forall_mem_nil _⟩

instance : Inhabited FileTree := ⟨empty⟩

/-- The entry under the given names. The root is always a directory. -/
def find? (t : FileTree) (names : Names) : Option Entry :=
  if names = [] then some .directory else t.entries.lookup names

/-- The entries under other names. -/
def others (t : FileTree) (names : Names) : List (Names × Entry) :=
  t.entries.filter (fun p => p.1 != names)

theorem nodup_cons_others (t : FileTree) (names : Names) (e : Entry) :
    (((names, e) :: t.others names).map (·.1)).Nodup := by
  rw [List.map_cons, List.nodup_cons]
  constructor
  · intro h
    obtain ⟨p, hp, rfl⟩ := List.mem_map.1 h
    simp [others] at hp
  · exact t.nodup.sublist (List.filter_sublist.map _)

theorem isEntry_cons_others (t : FileTree) {names : Names} (h : IsEntry names) (e : Entry) :
    ∀ p ∈ (names, e) :: t.others names, IsEntry p.1 :=
  List.forall_mem_cons.2 ⟨h, fun p hp => t.isEntry p (List.mem_filter.1 hp).1⟩

/-- Puts an entry in place of the one under the same names. -/
def put (t : FileTree) (names : Names) (e : Entry) (h : IsEntry names := by decide) : FileTree :=
  ⟨(names, e) :: t.others names, t.nodup_cons_others names e, t.isEntry_cons_others h e⟩

/-- The last of an entry's names, if the others lead to the directory under `d`. -/
def nameIn? (d names : Names) : Option (List Char) :=
  match names.getLast? with
  | some last => if names.dropLast = d then some last else none
  | none => none

/-- The names in a directory. -/
def namesIn (t : FileTree) (names : Names) : List (List Char) :=
  t.entries.filterMap (fun p => nameIn? names p.1)

theorem lookup_filter_ne (names other : Names) (es : List (Names × Entry)) (h : other ≠ names) :
    (es.filter (fun p => p.1 != names)).lookup other = es.lookup other := by
  induction es with
  | nil => rfl
  | cons p es ih =>
    obtain ⟨k, e⟩ := p
    by_cases hk : k = names
    · subst hk
      have : (other == k) = false := by simpa using h
      simp [ih, List.lookup_cons, this]
    · simp [hk, List.lookup_cons, ih]

theorem find?_put (t : FileTree) (names other : Names) (e : Entry) (hnames : IsEntry names) :
    (t.put names e hnames).find? other = if other = names then some e else t.find? other := by
  simp only [find?, put, others]
  by_cases h : other = names
  · subst h
    simp [hnames.ne_nil]
  · have hb : (other == names) = false := by simpa using h
    simp [h, List.lookup_cons, hb, lookup_filter_ne names other _ h]

/-! ## Following paths -/

/-- Paths are shorter than this, in bytes. -/
def pathLimit : Nat := 4096

/-- Why a path cannot lead anywhere, whatever the tree is. -/
def pathFault? (p : Path) : Option FileFault :=
  if p.chars.contains '\x00' then some .badName
  else if p.chars.isEmpty then some .notFound
  else if pathLimit ≤ p.toString.utf8ByteSize then some .nameTooLong
  else none

/-- Follows segments from the entry under `names`. Each segment needs a directory. -/
def follow (t : FileTree) (names : Names) : List Path.Segment → Except FileFault Names
  | [] => .ok names
  | s :: ss =>
    match t.find? names with
    | none => .error .notFound
    | some (.file _) => .error .notDirectory
    | some .directory =>
      if Path.isIdle s then follow t names ss
      else if s = Path.up then follow t names.dropLast ss
      else if !nameFits s then .error .nameTooLong
      else if (t.find? (names ++ [s])).isNone then .error .notFound
      else follow t (names ++ [s]) ss

/-- Where a path starts, seen from the directory under `cwd`. -/
def start (cwd : Names) (p : Path) : Names :=
  if p.isAbsolute then [] else cwd

/-- The names of the entry that a path leads to. -/
def locate (t : FileTree) (cwd : Names) (p : Path) : Except FileFault Names :=
  match pathFault? p with
  | some e => .error e
  | none => t.follow (start cwd p) p.segments

/-- The entry that a path leads to. -/
def entryAt (t : FileTree) (cwd : Names) (p : Path) : Except FileFault Entry :=
  match t.locate cwd p with
  | .error e => .error e
  | .ok names =>
    match t.find? names with
    | some e => .ok e
    | none => .error .notFound

def isFile (t : FileTree) (cwd : Names) (p : Path) : Bool :=
  match t.entryAt cwd p with
  | .ok (.file _) => true
  | _ => false

def isDirectory (t : FileTree) (cwd : Names) (p : Path) : Bool :=
  match t.entryAt cwd p with
  | .ok .directory => true
  | _ => false

/-- Whether there is an entry; it is a fault when that cannot be told. -/
def pathExists (t : FileTree) (cwd : Names) (p : Path) : Except FileFault Bool :=
  match t.entryAt cwd p with
  | .ok _ => .ok true
  | .error .notFound => .ok false
  | .error e => .error e

/-! ## Reading -/

def read (t : FileTree) (cwd : Names) (p : Path) : Except FileFault (List UInt8) :=
  match t.entryAt cwd p with
  | .error e => .error e
  | .ok .directory => .error .isDirectory
  | .ok (.file content) => .ok content

/-- The names in the directory that a path leads to. -/
def list (t : FileTree) (cwd : Names) (p : Path) : Except FileFault (List (List Char)) :=
  match t.locate cwd p with
  | .error e => .error e
  | .ok names =>
    match t.find? names with
    | some .directory => .ok (t.namesIn names)
    | some (.file _) => .error .notDirectory
    | none => .error .notFound

/-! ## Writing -/

/-- The last segment of a path, the segments before it, and whether slashes follow. -/
structure Target where
  before : List Path.Segment
  last : Path.Segment
  slash : Bool
  deriving Repr, DecidableEq

/-- The target of segments that are last first. -/
def Target.ofReversed (slash : Bool) : List Path.Segment → Target
  | [] => ⟨[], [], slash⟩
  | s :: ss => if s = [] then ofReversed true ss else ⟨ss.reverse, s, slash⟩

def target (p : Path) : Target :=
  Target.ofReversed false p.segments.reverse

theorem Target.last_ofReversed (slash : Bool) (ss : List Path.Segment) :
    (ofReversed slash ss).last = [] ∨ (ofReversed slash ss).last ∈ ss := by
  induction ss generalizing slash with
  | nil => exact .inl rfl
  | cons s ss ih =>
    rw [ofReversed]
    split
    · exact (ih true).imp_right (List.mem_cons_of_mem s)
    · exact .inr List.mem_cons_self

theorem not_mem_of_pathFault? {p : Path} (h : pathFault? p = none) : '\x00' ∉ p.chars := by
  intro hmem
  rw [pathFault?, List.contains_iff_mem.2 hmem] at h
  cases h

/-- What a path ends with is a name if it says where to go and is not too long. -/
theorem fileName_target {p : Path} (hfault : pathFault? p = none)
    (hlast : ¬ (Path.isIdle (target p).last || (target p).last = Path.up) = true)
    (hfits : nameFits (target p).last = true) : FileName (target p).last := by
  rw [Bool.or_eq_true, not_or, Bool.not_eq_true, decide_eq_true_eq] at hlast
  have hmem : (target p).last ∈ p.segments := by
    rcases Target.last_ofReversed false p.segments.reverse with hnil | hmem
    · rw [target, hnil] at hlast
      cases hlast.1
    · exact List.mem_reverse.1 hmem
  exact
    { noSlash := Path.not_mem_of_mem_segments hmem
      noEnd := fun hend => not_mem_of_pathFault? hfault (Path.mem_of_mem_segments hmem hend)
      notIdle := hlast.1
      notUp := hlast.2
      fits := hfits }

/-- Writes a file. The directory around it has to be there. -/
def write (t : FileTree) (cwd : Names) (p : Path) (content : List UInt8) :
    Except FileFault FileTree :=
  match hfault : pathFault? p with
  | some e => .error e
  | none =>
    let goal := target p
    match t.follow (start cwd p) (goal.before ++ [[]]) with
    | .error e => .error e
    | .ok names =>
      if goal.slash then .error .isDirectory
      else if hlast : Path.isIdle goal.last || goal.last = Path.up then .error .isDirectory
      else if hfits : nameFits goal.last then
        match t.find? (names ++ [goal.last]) with
        | some .directory => .error .isDirectory
        | _ => .ok (t.put (names ++ [goal.last]) (.file content)
            (isEntry_append.2 (fileName_target hfault hlast hfits)))
      else .error .nameTooLong

/-- Makes a directory in one that is there. -/
def makeDirectory (t : FileTree) (cwd : Names) (p : Path) : Except FileFault FileTree :=
  match hfault : pathFault? p with
  | some e => .error e
  | none =>
    let goal := target p
    match t.follow (start cwd p) (goal.before ++ [[]]) with
    | .error e => .error e
    | .ok names =>
      if hlast : Path.isIdle goal.last || goal.last = Path.up then .error .exists
      else if hfits : nameFits goal.last then
        if (t.find? (names ++ [goal.last])).isSome then .error .exists
        else .ok (t.put (names ++ [goal.last]) .directory
          (isEntry_append.2 (fileName_target hfault hlast hfits)))
      else .error .nameTooLong

/-- Makes a directory in a tree unless it is there already. -/
def ensureDirectory (t : FileTree) (cwd : Names) (p : Path) : Except FileFault FileTree :=
  match t.makeDirectory cwd p with
  | .ok t => .ok t
  | .error e => if t.isDirectory cwd p then .ok t else .error e

/-- Makes the directories of a list, the last ones first, until one is there. What has been
made stays when a later one cannot be. -/
def makeDirectories (t : FileTree) (cwd : Names) : List Path → FileTree × Except FileFault Unit
  | [] => (t, .error .notFound)
  | p :: parents =>
    if p.chars.isEmpty then (t, .ok ())
    else
      match t.makeDirectory cwd p with
      | .ok t => (t, .ok ())
      | .error .notFound =>
        match t.makeDirectories cwd parents with
        | (t, .error e) => (t, .error e)
        | (t, .ok ()) =>
          match t.ensureDirectory cwd p with
          | .ok t => (t, .ok ())
          | .error e => (t, .error e)
      | .error e => (t, if t.isDirectory cwd p then .ok () else .error e)

/-- Makes a directory and those around it. -/
def makePath (t : FileTree) (cwd : Names) (p : Path) : FileTree × Except FileFault Unit :=
  t.makeDirectories cwd p.ancestors

end FileTree

end CircuitFixtures
