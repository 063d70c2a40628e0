import CircuitFixtures.Deflate.Matching

/-!
# Repeats that are found stand for the data

Every repeat that the search gives has been compared byte by byte, so a copy of it gives the
bytes it was found for (`Matching.search_stands`). Going through the data, the tokens put down
so far always stand for the bytes up to the position, or up to the byte before it while a
repeat is held back (`Matching.State.Faithful`). At the end no repeat is held, so the groups of
`tokenize` stand for all of the data (`tokenize_covers`).
-/

namespace CircuitFixtures.Deflate

namespace Matching

/-! ## Repeats -/

/-- A copy of `r` at position `p` gives the bytes that stand there. -/
structure Repeat.Stands (data : Array UInt8) (p : Nat) (r : Repeat) : Prop where
  encodable : (Token.copy r.length r.distance).Encodable
  back : r.distance ≤ p
  inside : p + r.length ≤ data.size
  same : ∀ k < r.length, data.getD (p + k) 0 = data.getD (p - r.distance + k) 0

theorem common_spec (data : Array UInt8) (p q : Nat) {limit n : Nat} (hn : n ≤ limit) :
    n ≤ common data p q limit n ∧ common data p q limit n ≤ limit ∧
      ∀ k, n ≤ k → k < common data p q limit n → data.getD (p + k) 0 = data.getD (q + k) 0 := by
  fun_induction common data p q limit n with
  | case1 n hlt heq ih =>
    obtain ⟨hleast, hmost, hsame⟩ := ih hlt
    refine ⟨by omega, hmost, fun k hk hlast => ?_⟩
    rcases Nat.eq_or_lt_of_le hk with rfl | hk
    · exact eq_of_beq heq
    · exact hsame k hk hlast
  | case2 n hlt hne => exact ⟨Nat.le_refl _, hn, fun k hk hlast => by omega⟩
  | case3 n hle => exact ⟨Nat.le_refl _, hn, fun k hk hlast => by omega⟩

/-- The links give either what was held or something longer that has been compared. -/
theorem follow_stands {data : Array UInt8} (links : Links) {p reach limit : Nat}
    (hreach : reach ≤ p ∧ reach ≤ windowSize) (hlimit : limit ≤ maxCopy ∧ p + limit ≤ data.size)
    (budget at_ : Nat) {best : Repeat} (hbest : 2 ≤ best.length) :
    follow data links p reach limit budget at_ best = best ∨
      best.length < (follow data links p reach limit budget at_ best).length ∧
        (follow data links p reach limit budget at_ best).Stands data p := by
  have stands {distance : Nat} (hpos : distance ≠ 0) (hle : distance ≤ reach)
      (hlonger : 2 < common data p (p - distance) limit 0) :
      Repeat.Stands data p ⟨common data p (p - distance) limit 0, distance⟩ := by
    obtain ⟨-, hmost, hsame⟩ := common_spec data p (p - distance) (Nat.zero_le limit)
    obtain ⟨hback, hwindow⟩ := hreach
    obtain ⟨hcopy, hinside⟩ := hlimit
    rw [windowSize] at hwindow
    rw [maxCopy] at hcopy
    refine ⟨⟨hlonger, ?_, ?_, ?_⟩, ?_, ?_, fun k hk => hsame k (Nat.zero_le _) hk⟩
    · exact Nat.le_trans hmost hcopy
    · exact Nat.one_le_iff_ne_zero.2 hpos
    · exact Nat.le_trans hle hwindow
    · exact Nat.le_trans hle hback
    · exact Nat.le_trans (Nat.add_le_add_left hmost p) hinside
  fun_induction follow data links p reach limit budget at_ best with
  | case1 => exact .inl rfl
  | case2 => exact .inl rfl
  | case3 => exact .inl rfl
  | case4 budget at_ best hbudget link distance hlink q i hprobe hpos n hlonger hlast =>
    have hfound : Repeat.Stands data p ⟨n, distance⟩ :=
      stands hpos (Nat.not_lt.1 (not_or.1 hlink).2) (Nat.lt_of_le_of_lt hbest hlonger)
    exact .inr ⟨hlonger, hfound⟩
  | case5 budget at_ best hbudget link distance hlink q i hprobe hpos n hlonger hlast ih =>
    have hfound : Repeat.Stands data p ⟨n, distance⟩ :=
      stands hpos (Nat.not_lt.1 (not_or.1 hlink).2) (Nat.lt_of_le_of_lt hbest hlonger)
    rcases ih (Nat.le_trans hbest (Nat.le_of_lt hlonger)) with heq | ⟨hmore, hstands⟩
    · rw [heq]
      exact .inr ⟨hlonger, hfound⟩
    · exact .inr ⟨Nat.lt_trans hlonger hmore, hstands⟩
  | case6 budget at_ best hbudget link distance hlink q i hprobe hpos n hlonger ih =>
    exact ih hbest
  | case7 budget at_ best hbudget link distance hlink q i hprobe ih => exact ih hbest

/-- The search gives nothing, which is never longer than what was held, or a longer repeat. -/
theorem search_stands {data : Array UInt8} (links : Links) {p held : Nat}
    (hp : p ≤ data.size) (hheld : held = 0 ∨ 2 ≤ held) :
    ((search data links p held).distance = 0 ∧
        (held ≠ 0 → (search data links p held).length ≤ held)) ∨
      held < (search data links p held).length ∧ (search data links p held).Stands data p := by
  have hstart : 2 ≤ (if held = 0 then minCopy - 1 else held) ∧
      held ≤ (if held = 0 then minCopy - 1 else held) ∧
      (held ≠ 0 → (if held = 0 then minCopy - 1 else held) = held) := by
    rw [minCopy]
    split
    · omega
    · omega
  rw [search]
  generalize (if held = 0 then minCopy - 1 else held) = start at hstart ⊢
  obtain ⟨htwo, hle, heq⟩ := hstart
  dsimp only
  generalize hf : (if min maxCopy (data.size - p) ≤ start then ⟨start, 0⟩
    else follow data links p (min p (windowSize - min maxCopy (data.size - p)))
      (min maxCopy (data.size - p)) (probes start) p ⟨start, 0⟩ : Repeat) = found
  have hfound : found = ⟨start, 0⟩ ∨ start < found.length ∧ found.Stands data p := by
    rw [← hf]
    split
    · exact .inl rfl
    · exact follow_stands links ⟨Nat.min_le_left _ _, by omega⟩ ⟨Nat.min_le_left _ _, by omega⟩ _ _
        htwo
  split
  · exact .inl ⟨rfl, fun _ => Nat.zero_le _⟩
  · rcases hfound with rfl | ⟨hlonger, hstands⟩
    · exact .inl ⟨rfl, fun hne => Nat.le_of_eq (heq hne)⟩
    · exact .inr ⟨Nat.lt_of_le_of_lt hle hlonger, hstands⟩

/-! ## What is written -/

theorem push_extract {data : Array UInt8} {p : Nat} (hp : p < data.size) :
    (data.extract 0 p).push (data.getD p 0) = data.extract 0 (p + 1) := by
  have hget : data.getD p 0 = data[p] := (Array.getElem_eq_getD 0).symm
  rw [hget, Array.push_extract_getElem hp, Nat.zero_min]

theorem back_extract {data : Array UInt8} {p distance : Nat} (hpos : 1 ≤ distance)
    (hback : distance ≤ p) (hp : p ≤ data.size) :
    Token.back (data.extract 0 p) distance = data.getD (p - distance) 0 := by
  have hsize : (data.extract 0 p).size = p := Array.size_extract_of_le hp
  rw [Token.back, hsize, if_pos hback, Array.getD_eq_getD_getElem?,
    Array.getD_eq_getD_getElem?, Array.getElem?_extract, if_pos (by omega), Nat.zero_add]

theorem repeatBack_extract {data : Array UInt8} {p distance length : Nat}
    (hpos : 1 ≤ distance) (hback : distance ≤ p) (hinside : p + length ≤ data.size)
    (hsame : ∀ k < length, data.getD (p + k) 0 = data.getD (p - distance + k) 0) :
    Token.repeatBack distance length (data.extract 0 p) = data.extract 0 (p + length) := by
  induction length generalizing p with
  | zero => rfl
  | succ length ih =>
    have hfirst : data.getD p 0 = data.getD (p - distance) 0 := hsame 0 (Nat.succ_pos _)
    have hrest : ∀ k < length,
        data.getD (p + 1 + k) 0 = data.getD (p + 1 - distance + k) 0 := by
      intro k hk
      have h := hsame (k + 1) (by omega)
      have hl : p + 1 + k = p + (k + 1) := by omega
      have hr : p + 1 - distance + k = p - distance + (k + 1) := by omega
      rw [hl, hr, h]
    have hend : p + 1 + length = p + (length + 1) := by omega
    rw [Token.repeatBack, back_extract hpos hback (by omega), ← hfirst, push_extract (by omega),
      ih (by omega) (by omega) hrest, hend]

/-- A copy of a repeat that stands for the data goes on with the data. -/
theorem Repeat.Stands.step {data : Array UInt8} {p : Nat} {r : Repeat} (h : r.Stands data p) :
    Token.step (data.extract 0 p) (.copy r.length r.distance) =
      data.extract 0 (p + r.length) :=
  repeatBack_extract h.encodable.2.2.1 h.back h.inside h.same

/-- The tokens stand for the first `p` bytes and can be written. -/
structure Covers (data : Array UInt8) (ts : List Token) (p : Nat) : Prop where
  expand : Token.expand ts = data.extract 0 p
  encodable : ∀ t ∈ ts, t.Encodable

theorem Covers.snoc {data : Array UInt8} {ts : List Token} {t : Token} {p q : Nat}
    (h : Covers data ts p) (ht : t.Encodable)
    (hstep : Token.step (data.extract 0 p) t = data.extract 0 q) :
    Covers data (ts ++ [t]) q where
  expand := by
    rw [Token.expand, Token.expandAfter_append, ← Token.expand, h.expand]
    exact hstep
  encodable := by
    intro u hu
    rcases List.mem_append.1 hu with hu | hu
    · exact h.encodable u hu
    · rw [List.mem_singleton.1 hu]
      exact ht

theorem Covers.literal {data : Array UInt8} {ts : List Token} {p : Nat} (h : Covers data ts p)
    (hp : p < data.size) : Covers data (ts ++ [.literal (data.getD p 0)]) (p + 1) :=
  h.snoc trivial (push_extract hp)

theorem Covers.copy {data : Array UInt8} {ts : List Token} {p : Nat} {r : Repeat}
    (h : Covers data ts p) (hr : r.Stands data p) :
    Covers data (ts ++ [.copy r.length r.distance]) (p + r.length) :=
  h.snoc hr.encodable hr.step

/-! ## Going through the data -/

namespace State

/-- The tokens put down so far, in order. -/
def written (s : State) : List Token :=
  Group.flatten s.groups.reverse ++ s.tokens.reverse

/-- The tokens stand for the bytes up to the position, or up to the byte before it, where a
repeat is held that stands for the data from there on. -/
structure Faithful (data : Array UInt8) (s : State) : Prop where
  inside : s.position ≤ data.size
  free : s.held = none → Covers data s.written s.position
  held : ∀ x r, s.held = some (x, r) →
    ∃ p, s.position = p + 1 ∧ x = data.getD p 0 ∧ r.Stands data p ∧ Covers data s.written p

theorem covers_literal {data : Array UInt8} {s : State} {p : Nat} {x : UInt8}
    (h : Covers data s.written p) (hp : p < data.size) (hx : x = data.getD p 0) :
    Covers data (s.literal x).written (p + 1) := by
  rw [written, literal, List.reverse_cons, ← List.append_assoc, hx]
  exact h.literal hp

theorem covers_copy {data : Array UInt8} {s : State} {p : Nat} {r : Repeat}
    (h : Covers data s.written p) (hr : r.Stands data p) :
    Covers data (s.copy r).written (p + r.length) := by
  rw [written, copy, List.reverse_cons, ← List.append_assoc]
  exact h.copy hr

theorem written_close (s : State) (kept : Nat) : (s.close kept).written = s.written := by
  rw [written, written, close, Group.flatten, Group.flatten, List.reverse_cons,
    List.flatMap_append, List.flatMap_singleton, List.reverse_nil, List.append_nil]

theorem Faithful.close {data : Array UInt8} {s : State} (h : s.Faithful data) (kept : Nat) :
    (s.close kept).Faithful data where
  inside := h.inside
  free := fun hnone => written_close s kept ▸ h.free hnone
  held := fun x r hsome => written_close s kept ▸ h.held x r hsome

/-- What the search gives for the position of a state. -/
def Found (data : Array UInt8) (s : State) (found : Repeat) : Prop :=
  let held := (s.held.map (·.2.length)).getD 0
  (found.distance = 0 ∧ (held ≠ 0 → found.length ≤ held)) ∨
    held < found.length ∧ found.Stands data s.position

private theorem faithful_free {data : Array UInt8} {s : State} {p : Nat}
    (hheld : s.held = none) (hposition : s.position = p) (hinside : p ≤ data.size)
    (h : Covers data s.written p) : s.Faithful data where
  inside := hposition ▸ hinside
  free := fun _ => hposition ▸ h
  held := fun x r hsome => by
    rw [hheld] at hsome
    cases hsome

private theorem faithful_held {data : Array UInt8} {s : State} {p : Nat} {r : Repeat}
    (hheld : s.held = some (data.getD p 0, r)) (hposition : s.position = p + 1)
    (hr : r.Stands data p) (h : Covers data s.written p) : s.Faithful data where
  inside := by
    have hinside := hr.inside
    have hlength := hr.encodable.1
    omega
  free := fun hnone => by
    rw [hheld] at hnone
    cases hnone
  held := fun x r' hsome => by
    rw [hheld] at hsome
    cases hsome
    exact ⟨p, hposition, rfl, hr, h⟩

private theorem decide_faithful_free {data : Array UInt8} {s s' : State} {found : Repeat}
    {n : Nat} (h : s.Faithful data) (hposition : s.position < data.size)
    (hfound : s.Found data found) (hheld : s.held = none)
    (hdecide : s.decide (data.getD s.position 0) found = (s', n)) :
    1 ≤ n ∧ ({ s' with position := s.position + n } : State).Faithful data := by
  generalize hx : data.getD s.position 0 = x at hdecide
  have hcovers := h.free hheld
  rw [Found, hheld] at hfound
  rw [State.decide, hheld] at hdecide
  dsimp only at hdecide
  rcases hfound with ⟨hzero, -⟩ | ⟨-, hstands⟩
  · have hliteral := covers_literal hcovers hposition hx.symm
    rw [if_pos hzero] at hdecide
    cases hdecide
    exact ⟨Nat.le_refl 1, faithful_free hheld rfl hposition hliteral⟩
  · have hpos : found.distance ≠ 0 := Nat.ne_of_gt hstands.encodable.2.2.1
    have hlength : 3 ≤ found.length := hstands.encodable.1
    have hcopy := covers_copy hcovers hstands
    rw [if_neg hpos] at hdecide
    split at hdecide
    · cases hdecide
      exact ⟨by omega, faithful_free hheld rfl hstands.inside hcopy⟩
    · cases hdecide
      exact ⟨Nat.le_refl 1, faithful_held (hx ▸ rfl) rfl hstands hcovers⟩

private theorem decide_faithful_held {data : Array UInt8} {s s' : State} {found r : Repeat}
    {y : UInt8} {n : Nat} (h : s.Faithful data) (hposition : s.position < data.size)
    (hfound : s.Found data found) (hheld : s.held = some (y, r))
    (hdecide : s.decide (data.getD s.position 0) found = (s', n)) :
    1 ≤ n ∧ ({ s' with position := s.position + n } : State).Faithful data := by
  generalize hx : data.getD s.position 0 = x at hdecide
  obtain ⟨p, hp, hy, hr, hcovers⟩ := h.held y r hheld
  have hlength : 3 ≤ r.length := hr.encodable.1
  rw [Found, hheld] at hfound
  rw [State.decide, hheld] at hdecide
  dsimp only at hdecide
  split at hdecide
  next hlonger =>
    -- The repeat held back gives way, and its first byte is written out.
    have hstands : found.Stands data s.position := by
      rcases hfound with ⟨-, hle⟩ | ⟨-, hstands⟩
      · have hnonzero : r.length ≠ 0 := by omega
        exact absurd (hle hnonzero) (Nat.not_le.2 hlonger)
      · exact hstands
    have hliteral : Covers data (s.literal y).written s.position := by
      rw [hp]
      exact covers_literal hcovers (by omega) hy
    have hcopy := covers_copy hliteral hstands
    split at hdecide
    · cases hdecide
      exact ⟨by omega, faithful_free rfl rfl hstands.inside hcopy⟩
    · cases hdecide
      exact ⟨Nat.le_refl 1, faithful_held (hx ▸ rfl) rfl hstands hliteral⟩
  next hlonger =>
    have hend : s.position + (r.length - 1) = p + r.length := by omega
    cases hdecide
    exact ⟨by omega, faithful_free rfl hend hr.inside (covers_copy hcovers hr)⟩

theorem decide_faithful {data : Array UInt8} {s s' : State} {found : Repeat} {n : Nat}
    (h : s.Faithful data) (hposition : s.position < data.size) (hfound : s.Found data found)
    (hdecide : s.decide (data.getD s.position 0) found = (s', n)) :
    1 ≤ n ∧ ({ s' with position := s.position + n } : State).Faithful data := by
  cases hheld : s.held with
  | none => exact decide_faithful_free h hposition hfound hheld hdecide
  | some held => exact decide_faithful_held h hposition hfound hheld hdecide

theorem next_faithful {data : Array UInt8} {s : State} {found : Repeat} (h : s.Faithful data)
    (hposition : s.position < data.size) (hfound : s.Found data found) :
    s.position < (s.next data found).position ∧ (s.next data found).Faithful data := by
  rw [next]
  cases hdecide : s.decide (data.getD s.position 0) found with
  | mk s' n =>
    obtain ⟨hpos, hfaithful⟩ := decide_faithful h hposition hfound hdecide
    dsimp only
    split
    · exact ⟨Nat.lt_add_of_pos_right hpos, hfaithful.close _⟩
    · exact ⟨Nat.lt_add_of_pos_right hpos, hfaithful⟩

theorem found_search {data : Array UInt8} {s : State} (h : s.Faithful data) (links : Links) :
    s.Found data (search data links s.position ((s.held.map (·.2.length)).getD 0)) := by
  refine search_stands links h.inside ?_
  cases hheld : s.held with
  | none => exact .inl rfl
  | some held =>
    obtain ⟨y, r⟩ := held
    obtain ⟨p, -, -, hr, -⟩ := h.held y r hheld
    exact .inr (Nat.le_of_succ_le hr.encodable.1)

/-- The run stays faithful and ends at the end of the data. -/
theorem run_faithful {data : Array UInt8} (links : Links) {s : State} (h : s.Faithful data) :
    (run data links s).Faithful data ∧ (run data links s).position = data.size := by
  fun_induction run data links s with
  | case1 links s hposition ahead links' s' hprogress ih =>
    exact ih (next_faithful h hposition (found_search h links')).2
  | case2 links s hposition ahead links' s' hprogress =>
    exact absurd (next_faithful h hposition (found_search h links')).1 hprogress
  | case3 links s hposition => exact ⟨h, Nat.le_antisymm h.inside (Nat.not_lt.1 hposition)⟩

end State

end Matching

open Matching in
/-- The groups stand for the data. -/
theorem tokenize_covers (data : List UInt8) :
    Covers data.toArray (Group.flatten (tokenize data)) data.toArray.size := by
  have hstart : State.Faithful data.toArray ⟨0, none, [], 0, 0, 0, 0, []⟩ :=
    State.faithful_free rfl rfl (Nat.zero_le _)
      ⟨(Array.extract_eq_empty_of_le (Nat.min_le_left 0 _)).symm, fun t ht => by cases ht⟩
  rw [tokenize]
  obtain ⟨hfaithful, hend⟩ := State.run_faithful .empty hstart
  generalize State.run data.toArray .empty ⟨0, none, [], 0, 0, 0, 0, []⟩ = s
    at hfaithful hend ⊢
  -- A held repeat would go past the end of the data.
  have hnone : s.held = none := by
    cases hheld : s.held with
    | none => rfl
    | some held =>
      obtain ⟨y, r⟩ := held
      obtain ⟨p, hp, -, hr, -⟩ := hfaithful.held y r hheld
      have hinside := hr.inside
      have hlength := hr.encodable.1
      omega
  have hcovers := hfaithful.free hnone
  rw [hend, ← State.written_close s (min data.toArray.size windowSize), State.written] at hcovers
  rwa [show (s.close (min data.toArray.size windowSize)).tokens = [] from rfl, List.reverse_nil,
    List.append_nil] at hcovers

theorem expand_tokenize (data : List UInt8) :
    Token.expand (Group.flatten (tokenize data)) = data.toArray := by
  have hexpand := (tokenize_covers data).expand
  rwa [Array.extract_size] at hexpand

theorem encodable_tokenize (data : List UInt8) :
    ∀ t ∈ Group.flatten (tokenize data), t.Encodable :=
  (tokenize_covers data).encodable

theorem tokenize_ne_nil (data : List UInt8) : tokenize data ≠ [] := by
  rw [tokenize]
  simp [Matching.State.close]

end CircuitFixtures.Deflate
