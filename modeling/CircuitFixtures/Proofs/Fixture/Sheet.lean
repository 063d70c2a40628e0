import CircuitFixtures.Proofs.Fixture.ArtifactRoundTrip
import CircuitFixtures.Proofs.Json.Members

/-!
# What an artifact says

A sheet has all members of an artifact's objects, those that repeat an index too. `Sheet.SpelledBy`
says which texts spell a sheet: the four members of an object in any order and among others, or a
list of four. The texts that are read as artifacts are those that spell a sheet
(`Artifact.ofJson_eq_ok_iff`). A text spells one sheet at most (`Sheet.SpelledBy.unique`), and every
sheet is spelled by some text (`Sheet.spelledBy_text`).
-/

namespace CircuitFixtures

open Json

/-! ## Parts of the reader -/

namespace Artifact

variable {α β : Type} {read : Reader β} {spells : Spelling α} {make : α → β}

theorem once_eq_ok_iff (h : Takes read spells make) {name : String} {old : Option β}
    {keep : β → Draft} {cs rest : List Char} {d : Draft} :
    once name old read keep cs = .ok (d, rest) ↔
      old = none ∧ ∃ x, Valued spells cs x rest ∧ keep (make x) = d := by
  rw [once]
  cases old with
  | some y => simp [failUnplaced]
  | none =>
    have hvalue := takes_memberValue h
    constructor
    · intro hok
      simp only [Option.isSome_none, Bool.false_eq_true, if_false] at hok
      split at hok
      · rename_i y cs' hread
        cases hok
        obtain ⟨x, hx, rfl⟩ := hvalue.1 hread
        exact ⟨rfl, x, hx, rfl⟩
      · cases hok
    · rintro ⟨-, x, hx, rfl⟩
      simp [hvalue.2 ⟨x, hx, rfl⟩]

/-- A value as the item of a list with the given index. -/
def Item (index : Nat) (spells : Spelling α) : Spelling α := fun cs x rest =>
  ∃ cs', nextItem (index == 0) cs = .ok (true, cs') ∧ spells cs' x rest

theorem takes_item (h : Takes read spells make) (index : Nat) :
    Takes (item index read) (Item index spells) make := by
  intro cs y rest
  rw [item]
  split
  · rename_i hnext
    simp [Item, hnext]
  · rename_i hnext
    rename_i cs'
    simpa [Item, hnext] using @h cs' y rest
  · rename_i hnext
    simp [Item, hnext, failUnplaced]

theorem unambiguous_item (h : Unambiguous spells) (index : Nat) :
    Unambiguous (Item index spells) := by
  rintro cs x y rest rest' ⟨cs1, hnext, hx⟩ ⟨cs2, hnext', hy⟩
  rw [hnext] at hnext'
  cases hnext'
  exact h hx hy

end Artifact

/-! ## Sheets -/

/-- What an artifact says, with every member of its objects. -/
structure Sheet where
  name : String
  bytecode : String
  initial : List (Index × String)
  expected : List (Index × String)
  deriving Repr, DecidableEq

namespace Sheet

open Artifact

def artifact (s : Sheet) : Artifact :=
  ⟨s.name, s.bytecode, .ofList s.initial, .ofList s.expected⟩

/-- The members of a sheet that are read so far. -/
structure Part where
  name : Option (List Char)
  bytecode : Option (List Char)
  initial : Option (List (Index × String))
  expected : Option (List (Index × String))

def part (s : Sheet) : Part :=
  ⟨some s.name.toList, some s.bytecode.toList, some s.initial, some s.expected⟩

namespace Part

def empty : Part := ⟨none, none, none, none⟩

def draft (p : Part) : Draft :=
  ⟨p.name, p.bytecode, p.initial.map .ofList, p.expected.map .ofList⟩

/-- One member behind its key: one of the four that is not there yet, or another, which says
nothing. -/
inductive Member (p : Part) (key : List Char) : Spelling Part
  | name {cs rest x : List Char} (hkey : key = nameKey) (hnew : p.name = none)
    (hvalue : Valued (spelled text) cs x rest) : Member p key cs { p with name := some x } rest
  | bytecode {cs rest x : List Char} (hkey : key = bytecodeKey) (hnew : p.bytecode = none)
    (hvalue : Valued (spelled text) cs x rest) : Member p key cs { p with bytecode := some x } rest
  | initial {cs rest : List Char} {es : List (Index × String)} (hkey : key = initialKey)
    (hnew : p.initial = none) (hvalue : Valued (Entries textValue) cs es rest) :
    Member p key cs { p with initial := some es } rest
  | expected {cs rest : List Char} {es : List (Index × String)} (hkey : key = expectedKey)
    (hnew : p.expected = none) (hvalue : Valued (Entries textValue) cs es rest) :
    Member p key cs { p with expected := some es } rest
  | other {cs rest : List Char} (hkey : key ∉ [nameKey, bytecodeKey, initialKey, expectedKey])
    (hvalue : Valued (spelled skip) cs () rest) : Member p key cs p rest

/-- The members behind the brace of an artifact. -/
inductive Members : Part → (first : Bool) → Spelling Part
  | done {p : Part} {first : Bool} {cs rest : List Char}
    (hend : nextKey first cs = .ok (false, rest)) : Members p first cs p rest
  | more {p p' q : Part} {first : Bool} {cs cs1 cs2 cs3 rest key : List Char}
    (hkey : nextKey first cs = .ok (true, cs1)) (htext : textKey cs1 = .ok (key, cs2))
    (hmember : Member p key cs2 p' cs3) (hshorter : cs3.length < cs.length)
    (hmore : Members p' false cs3 q rest) : Members p first cs q rest

variable {p p' q : Part} {key cs rest : List Char}

theorem Member.read (h : Member p key cs p' rest) :
    p.draft.member key cs = .ok (p'.draft, rest) := by
  have hfirst : bytecodeKey ≠ nameKey ∧ initialKey ≠ nameKey ∧ initialKey ≠ bytecodeKey := by decide
  have hlast : expectedKey ≠ nameKey ∧ expectedKey ≠ bytecodeKey ∧ expectedKey ≠ initialKey := by
    decide
  cases h with
  | name hkey hnew hvalue =>
    rw [Draft.member, if_pos hkey]
    exact (once_eq_ok_iff (takes_spelled text)).2 ⟨hnew, _, hvalue, rfl⟩
  | bytecode hkey hnew hvalue =>
    rw [Draft.member, hkey, if_neg hfirst.1, if_pos rfl]
    exact (once_eq_ok_iff (takes_spelled text)).2 ⟨hnew, _, hvalue, rfl⟩
  | initial hkey hnew hvalue =>
    rw [Draft.member, hkey, if_neg hfirst.2.1, if_neg hfirst.2.2, if_pos rfl]
    exact (once_eq_ok_iff takes_indexObject).2 ⟨by simp [draft, hnew], _, hvalue, rfl⟩
  | expected hkey hnew hvalue =>
    rw [Draft.member, hkey, if_neg hlast.1, if_neg hlast.2.1, if_neg hlast.2.2, if_pos rfl]
    exact (once_eq_ok_iff takes_indexObject).2 ⟨by simp [draft, hnew], _, hvalue, rfl⟩
  | other hkey hvalue =>
    simp only [List.mem_cons, List.not_mem_nil, or_false, not_or] at hkey
    obtain ⟨h1, h2, h3, h4⟩ := hkey
    rw [Draft.member, if_neg h1, if_neg h2, if_neg h3, if_neg h4]
    simp only [(takes_memberValue (takes_spelled skip)).2 ⟨_, hvalue, rfl⟩, id]

theorem member_of_read {d : Draft} (h : p.draft.member key cs = .ok (d, rest)) :
    ∃ p', Member p key cs p' rest ∧ p'.draft = d := by
  rw [Draft.member] at h
  split at h
  · rename_i hkey
    obtain ⟨hnew, x, hvalue, rfl⟩ := (once_eq_ok_iff (takes_spelled text)).1 h
    exact ⟨_, .name hkey hnew hvalue, rfl⟩
  split at h
  · rename_i hkey
    obtain ⟨hnew, x, hvalue, rfl⟩ := (once_eq_ok_iff (takes_spelled text)).1 h
    exact ⟨_, .bytecode hkey hnew hvalue, rfl⟩
  split at h
  · rename_i hkey
    obtain ⟨hnew, es, hvalue, rfl⟩ := (once_eq_ok_iff takes_indexObject).1 h
    exact ⟨_, .initial hkey (Option.map_eq_none_iff.1 hnew) hvalue, rfl⟩
  split at h
  · rename_i hkey
    obtain ⟨hnew, es, hvalue, rfl⟩ := (once_eq_ok_iff takes_indexObject).1 h
    exact ⟨_, .expected hkey (Option.map_eq_none_iff.1 hnew) hvalue, rfl⟩
  · rename_i h1 h2 h3 h4
    dsimp only at h
    split at h
    · rename_i cs' hread
      cases h
      obtain ⟨x, hvalue, -⟩ := (takes_memberValue (takes_spelled skip)).1 hread
      exact ⟨p, .other (by simp [h1, h2, h3, h4]) hvalue, rfl⟩
    · cases h

/-- The key tells which member it is. -/
theorem unambiguous_member (p : Part) (key : List Char) : Unambiguous (Member p key) := by
  have hfirst : bytecodeKey ≠ nameKey ∧ initialKey ≠ nameKey ∧ initialKey ≠ bytecodeKey := by decide
  have hlast : expectedKey ≠ nameKey ∧ expectedKey ≠ bytecodeKey ∧ expectedKey ≠ initialKey := by
    decide
  have htext := unambiguous_valued (unambiguous_spelled text)
  have hskip := unambiguous_valued (unambiguous_spelled skip)
  have hentries : Unambiguous (Valued (Entries textValue)) := unambiguous_valued unambiguous_entries
  intro cs q q' rest rest' h h'
  cases h <;> cases h'
  case name.name _ _ _ hvalue _ _ _ hvalue' =>
    obtain ⟨rfl, rfl⟩ := htext hvalue hvalue'
    exact ⟨rfl, rfl⟩
  case bytecode.bytecode _ _ _ hvalue _ _ _ hvalue' =>
    obtain ⟨rfl, rfl⟩ := htext hvalue hvalue'
    exact ⟨rfl, rfl⟩
  case initial.initial _ _ _ hvalue _ _ _ hvalue' =>
    obtain ⟨rfl, rfl⟩ := hentries hvalue hvalue'
    exact ⟨rfl, rfl⟩
  case expected.expected _ _ _ hvalue _ _ _ hvalue' =>
    obtain ⟨rfl, rfl⟩ := hentries hvalue hvalue'
    exact ⟨rfl, rfl⟩
  case other.other _ hvalue _ hvalue' => exact ⟨rfl, (hskip hvalue hvalue').2⟩
  all_goals grind

theorem unambiguous_members {p : Part} {first : Bool} : Unambiguous (Members p first) := by
  intro cs q q' rest rest' h h'
  induction h generalizing q' with
  | done hend =>
    cases h' with
    | done hend' =>
      rw [hend] at hend'
      cases hend'
      exact ⟨rfl, rfl⟩
    | more hkey =>
      rw [hend] at hkey
      cases hkey
  | more hkey htext hmember _ _ ih =>
    cases h' with
    | done hend =>
      rw [hkey] at hend
      cases hend
    | more hkey' htext' hmember' _ hmore' =>
      rw [hkey] at hkey'
      cases hkey'
      rw [htext] at htext'
      cases htext'
      obtain ⟨rfl, rfl⟩ := unambiguous_member _ _ hmember hmember'
      exact ih hmore'

theorem Members.read {first : Bool} (h : Members p first cs q rest) :
    p.draft.members first cs = .ok (q.draft, rest) := by
  induction h with
  | done hend => rw [Draft.members, hend]
  | more hkey htext hmember hshorter _ ih =>
    rw [Draft.members, hkey]
    simp only [htext, hmember.read, if_pos hshorter]
    exact ih

theorem members_of_read {d d' : Draft} {first : Bool} (h : d.members first cs = .ok (d', rest))
    (hp : p.draft = d) : ∃ q, Members p first cs q rest ∧ q.draft = d' := by
  fun_induction Draft.members d first cs generalizing p with
  | case2 d first cs rest' hend =>
    cases h
    exact ⟨p, .done hend, hp⟩
  | case5 d first cs cs1 hkey key cs2 htext d1 cs3 hmember hshorter ih =>
    rw [← hp] at hmember
    obtain ⟨p', hp', hdraft⟩ := member_of_read hmember
    obtain ⟨q, hq, rfl⟩ := ih h hdraft
    exact ⟨q, .more hkey htext hp' hshorter hq, rfl⟩
  | _ => cases h

/-- The members are a sheet when all four are there. -/
theorem finish_eq_ok_iff {a : Artifact} :
    p.draft.finish cs = .ok (a, rest) ↔ ∃ s : Sheet, p = s.part ∧ rest = cs ∧ s.artifact = a := by
  constructor
  · intro h
    obtain ⟨name, bytecode, initial, expected⟩ := p
    cases name with
    | none => cases h
    | some name => cases bytecode with
      | none => cases h
      | some bytecode => cases initial with
        | none => cases h
        | some initial => cases expected with
          | none => cases h
          | some expected =>
            cases h
            exact ⟨⟨.ofList name, .ofList bytecode, initial, expected⟩, by simp [part], rfl, rfl⟩
  · rintro ⟨s, rfl, rfl, rfl⟩
    simp [draft, part, Draft.finish, artifact]

end Part

/-! ## Texts that spell a sheet -/

/-- The four items behind the bracket of a list. -/
def Items : Spelling Sheet := fun cs s rest =>
  ∃ cs1 cs2 cs3, Item 0 (spelled textValue) cs s.name cs1 ∧
    Item 1 (spelled textValue) cs1 s.bytecode cs2 ∧ Item 2 (Entries textValue) cs2 s.initial cs3 ∧
    Item 3 (Entries textValue) cs3 s.expected rest

inductive Spelled : Spelling Sheet
  | object {cs cs' closing : List Char} {s : Sheet} (hbrace : skipBlanks cs = '{' :: cs')
    (hmembers : Part.Members .empty true cs' s.part closing) : Spelled cs s closing.tail
  | list {cs cs1 cs2 rest : List Char} {s : Sheet} (hbracket : skipBlanks cs = '[' :: cs1)
    (hitems : Items cs1 s cs2) (hend : listEnd cs2 = .ok ((), rest)) : Spelled cs s rest

/-- The text is the sheet, and nothing more. -/
def SpelledBy (s : Sheet) (text : String) : Prop :=
  ∃ rest, Spelled text.toList s rest ∧ skipBlanks rest = []

theorem takes_items : Takes items Items artifact := by
  have hname := takes_item (takes_spelled textValue) 0
  have hbytecode := takes_item (takes_spelled textValue) 1
  have hobject : Takes (indexObject textValue) (Entries textValue) .ofList := takes_indexObject
  have hinitial := takes_item hobject 2
  have hexpected := takes_item hobject 3
  intro cs a rest
  constructor
  · intro h
    rw [items] at h
    split at h
    · cases h
    rename_i name cs1 h1
    split at h
    · cases h
    rename_i bytecode cs2 h2
    split at h
    · cases h
    rename_i initial cs3 h3
    split at h
    · cases h
    rename_i expected cs4 h4
    cases h
    obtain ⟨_, hs1, rfl⟩ := hname.1 h1
    obtain ⟨_, hs2, rfl⟩ := hbytecode.1 h2
    obtain ⟨es, hs3, rfl⟩ := hinitial.1 h3
    obtain ⟨es', hs4, rfl⟩ := hexpected.1 h4
    exact ⟨⟨_, _, es, es'⟩, ⟨cs1, cs2, cs3, hs1, hs2, hs3, hs4⟩, rfl⟩
  · rintro ⟨s, ⟨cs1, cs2, cs3, hs1, hs2, hs3, hs4⟩, rfl⟩
    rw [items, hname.2 ⟨_, hs1, rfl⟩]
    simp only [hbytecode.2 ⟨_, hs2, rfl⟩, hinitial.2 ⟨_, hs3, rfl⟩, hexpected.2 ⟨_, hs4, rfl⟩]
    rfl

theorem unambiguous_items : Unambiguous Items := by
  have hentries : Unambiguous (Entries textValue) := unambiguous_entries
  rintro cs ⟨name, bytecode, initial, expected⟩ ⟨name', bytecode', initial', expected'⟩ rest rest'
    ⟨cs1, cs2, cs3, h1, h2, h3, h4⟩ ⟨cs1', cs2', cs3', h1', h2', h3', h4'⟩
  dsimp only at h1 h2 h3 h4 h1' h2' h3' h4'
  obtain ⟨rfl, rfl⟩ := unambiguous_item (unambiguous_spelled textValue) 0 h1 h1'
  obtain ⟨rfl, rfl⟩ := unambiguous_item (unambiguous_spelled textValue) 1 h2 h2'
  obtain ⟨rfl, rfl⟩ := unambiguous_item hentries 2 h3 h3'
  obtain ⟨rfl, rfl⟩ := unambiguous_item hentries 3 h4 h4'
  exact ⟨rfl, rfl⟩

theorem part_injective {s s' : Sheet} (h : s.part = s'.part) : s = s' := by
  cases s
  cases s'
  simpa [part, String.toList_inj] using h

theorem Spelled.unambiguous : Unambiguous Spelled := by
  intro cs s s' rest rest' h h'
  cases h with
  | object hbrace hmembers =>
    cases h' with
    | object hbrace' hmembers' =>
      rw [hbrace] at hbrace'
      cases hbrace'
      obtain ⟨hpart, rfl⟩ := Part.unambiguous_members hmembers hmembers'
      exact ⟨part_injective hpart, rfl⟩
    | list hbracket =>
      rw [hbrace] at hbracket
      cases hbracket
  | list hbracket hitems hend =>
    cases h' with
    | object hbrace =>
      rw [hbracket] at hbrace
      cases hbrace
    | list hbracket' hitems' hend' =>
      rw [hbracket] at hbracket'
      cases hbracket'
      obtain ⟨rfl, rfl⟩ := unambiguous_items hitems hitems'
      rw [hend] at hend'
      cases hend'
      exact ⟨rfl, rfl⟩

/-- A text spells one sheet at most. -/
theorem SpelledBy.unique {s s' : Sheet} {text : String} (h : s.SpelledBy text)
    (h' : s'.SpelledBy text) : s = s' := by
  obtain ⟨rest, h, -⟩ := h
  obtain ⟨rest', h', -⟩ := h'
  exact (Spelled.unambiguous h h').1

theorem Spelled.read {cs rest : List Char} {s : Sheet} (h : Spelled cs s rest) :
    reader cs = .ok (s.artifact, rest) := by
  cases h with
  | object hbrace hmembers =>
    have hread : Draft.empty.members true _ = _ := hmembers.read
    rw [reader, hbrace]
    simp only [hread, Part.finish_eq_ok_iff.2 ⟨s, rfl, rfl, rfl⟩]
  | list hbracket hitems hend =>
    rw [reader, hbracket]
    simp only [takes_items.2 ⟨s, hitems, rfl⟩, hend]

theorem spelled_of_read {cs rest : List Char} {a : Artifact} (h : reader cs = .ok (a, rest)) :
    ∃ s : Sheet, Spelled cs s rest ∧ s.artifact = a := by
  rw [reader] at h
  split at h
  · cases h
  · rename_i cs' hbrace
    split at h
    · cases h
    rename_i d closing hread
    obtain ⟨p, hmembers, rfl⟩ := Part.members_of_read (p := .empty) hread rfl
    split at h
    · cases h
    rename_i a' closing' hfinish
    cases h
    obtain ⟨s, rfl, rfl, rfl⟩ := Part.finish_eq_ok_iff.1 hfinish
    exact ⟨s, .object hbrace hmembers, rfl⟩
  · rename_i cs1 hbracket
    split at h
    · cases h
    rename_i a' cs2 hread
    obtain ⟨s, hitems, rfl⟩ := takes_items.1 hread
    split at h
    · cases h
    rename_i cs3 hend
    cases h
    exact ⟨s, .list hbracket hitems hend, rfl⟩
  · exact absurd h wrongType_ne_ok

end Sheet

/-- A text is read as the artifact of the sheet that it spells. -/
theorem Artifact.ofJson_eq_ok_iff {text : String} {a : Artifact} :
    ofJson text = .ok a ↔ ∃ s : Sheet, s.SpelledBy text ∧ s.artifact = a := by
  rw [ofJson, whole]
  constructor
  · intro h
    split at h
    · cases h
    rename_i a' rest hread
    obtain ⟨s, hs, rfl⟩ := Sheet.spelled_of_read hread
    split at h
    · rename_i hnil
      cases h
      exact ⟨s, ⟨rest, hs, hnil⟩, rfl⟩
    · cases h
  · rintro ⟨s, ⟨rest, hs, hnil⟩, rfl⟩
    rw [hs.read]
    simp only [hnil]

/-! ## Every sheet can be spelled -/

namespace Sheet

open Artifact

/-- The entries as an object over several lines. -/
def entriesObject (es : List (Index × String)) : List Char :=
  object 1 (written (fun x => quote x.toList) es)

/-- A JSON text of the sheet, over several lines. -/
def toChars (s : Sheet) : List Char :=
  object 0
    [(nameKey, quote s.name.toList), (bytecodeKey, quote s.bytecode.toList),
      (initialKey, entriesObject s.initial), (expectedKey, entriesObject s.expected)]

theorem Part.Members.line {p p' q : Part} {first : Bool} {level : Nat}
    {key value closing rest : List Char} {ms : List (List Char × List Char)}
    (hmember : Part.Member p key (':' :: ' ' :: (value ++ (lines level false ms ++ closing))) p'
      (lines level false ms ++ closing))
    (hmore : Part.Members p' false (lines level false ms ++ closing) q rest) :
    Part.Members p first (lines level first ((key, value) :: ms) ++ closing) q rest := by
  generalize hbehind : lines level false ms ++ closing = behind at hmember hmore
  have htext : lines level first ((key, value) :: ms) ++ closing =
      separator first ++ newLine level ++
        '"' :: (key.flatMap escapeChar ++ '"' :: ':' :: ' ' :: (value ++ behind)) := by
    simp [lines, quote, ← hbehind]
  have hshorter : behind.length < (separator first ++ newLine level ++
      '"' :: (key.flatMap escapeChar ++ '"' :: ':' :: ' ' :: (value ++ behind))).length := by
    simp only [List.length_append, List.length_cons]
    omega
  rw [htext]
  exact .more (nextKey_line level first _) (textTail_escaped key _) hmember hshorter hmore

theorem valued_text (x rest : List Char) :
    Valued (spelled text) (':' :: ' ' :: (quote x ++ rest)) x rest :=
  ⟨_, rfl, text_reads x rest⟩

theorem valued_entries (es : List (Index × String)) (rest : List Char) :
    Valued (Entries textValue) (':' :: ' ' :: (entriesObject es ++ rest)) es rest :=
  ⟨_, rfl, entries_written textValue_reads 1 es rest⟩

theorem spelled_toChars (s : Sheet) (rest : List Char) : Spelled (s.toChars ++ rest) s rest := by
  obtain ⟨closing, hobject, hclosing⟩ := object_append 0
    [(nameKey, quote s.name.toList), (bytecodeKey, quote s.bytecode.toList),
      (initialKey, entriesObject s.initial), (expectedKey, entriesObject s.expected)] rest
  rw [toChars, hobject]
  change Spelled _ s ('}' :: rest).tail
  apply Spelled.object rfl
  apply Part.Members.line (.name rfl rfl (valued_text _ _))
  apply Part.Members.line (.bytecode rfl rfl (valued_text _ _))
  apply Part.Members.line (.initial rfl rfl (valued_entries _ _))
  apply Part.Members.line (.expected rfl rfl (valued_entries _ _))
  exact .done (nextKey_end hclosing)

def text (s : Sheet) : String :=
  String.ofList s.toChars

theorem spelledBy_text (s : Sheet) : s.SpelledBy s.text := by
  refine ⟨[], ?_, rfl⟩
  rw [text, String.toList_ofList, ← List.append_nil s.toChars]
  exact spelled_toChars s []

end Sheet

end CircuitFixtures
