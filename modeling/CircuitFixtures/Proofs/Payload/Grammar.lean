import CircuitFixtures.Payload.Decoder
import CircuitFixtures.Proofs.Text.Utf8

/-!
# Grammars of payloads

A grammar says which bytes stand for which values, without a word about reading. `Decodes`
ties a decoder to a grammar: the decoder takes from the front of its input exactly the bytes
that the grammar has. Numbers, texts and lists are done here; `Decodes.bind` puts grammars
one behind the other, as the decoders are put together.

Two facts follow for every decoder that has a grammar, and are proved once for all of them:
bytes behind what it takes do not matter (`Decodes.append`), and where it takes all of its
input, it refuses every shorter part of it (`Decodes.refuses_initial`).
-/

namespace CircuitFixtures.Payload

/-- Which bytes stand for which values. -/
abbrev Grammar (α : Type) := List UInt8 → α → Prop

/-- The decoder takes exactly the bytes of the grammar from the front of its input. -/
def Decodes {α : Type} (d : Decoder α) (G : Grammar α) : Prop :=
  ∀ xs x rest, d xs = .ok (x, rest) ↔ ∃ q, xs = q ++ rest ∧ G q x

/-! ## Putting grammars together -/

namespace Grammar

variable {α β : Type}

/-- The bytes of a value and behind them those of a value that may depend on it. -/
def andThen (G : Grammar α) (H : α → Grammar β) : Grammar β := fun q y =>
  ∃ q₁ q₂ x, q = q₁ ++ q₂ ∧ G q₁ x ∧ H x q₂ y

/-- The value `x`, for which no bytes stand. -/
def nothing (x : α) : Grammar α := fun q y => q = [] ∧ y = x

/-- The bytes of a value, taken for what `g` makes of it. -/
def image (G : Grammar α) (g : α → β) : Grammar β := fun q y => ∃ x, G q x ∧ y = g x

end Grammar

section

variable {α β : Type} {d : Decoder α} {f : α → Decoder β} {g : α → β}
variable {G G' : Grammar α} {H : α → Grammar β}

theorem Decodes.congr (h : Decodes d G) (hG : ∀ q x, G q x ↔ G' q x) : Decodes d G' := by
  intro xs x rest
  rw [h]
  simp only [hG]

theorem decodes_pure (x : α) : Decodes (pure x) (Grammar.nothing x) := by
  intro xs y rest
  change Except.ok (x, xs) = .ok (y, rest) ↔ _
  constructor
  · intro h
    cases h
    exact ⟨[], rfl, rfl, rfl⟩
  · rintro ⟨q, hq, rfl, rfl⟩
    rw [hq, List.nil_append]

theorem bind_eq_ok_iff {xs rest : List UInt8} {y : β} :
    (d >>= f) xs = .ok (y, rest) ↔
      ∃ x middle, d xs = .ok (x, middle) ∧ f x middle = .ok (y, rest) := by
  change Except.bind (d xs) (fun p => f p.1 p.2) = _ ↔ _
  cases d xs with
  | error e => simp [Except.bind]
  | ok p =>
    constructor
    · intro h
      exact ⟨p.1, p.2, rfl, h⟩
    · rintro ⟨x, middle, hp, h⟩
      cases hp
      exact h

/-- A decoder behind another needs its grammar only for the values that come before it. -/
theorem Decodes.bind_of (h : Decodes d G) (hf : ∀ q x, G q x → Decodes (f x) (H x)) :
    Decodes (d >>= f) (G.andThen H) := by
  intro xs y rest
  rw [bind_eq_ok_iff]
  constructor
  · rintro ⟨x, middle, hx, hy⟩
    obtain ⟨q₁, rfl, h₁⟩ := (h _ _ _).1 hx
    obtain ⟨q₂, rfl, h₂⟩ := (hf q₁ x h₁ _ _ _).1 hy
    exact ⟨q₁ ++ q₂, by simp, q₁, q₂, x, rfl, h₁, h₂⟩
  · rintro ⟨_, rfl, q₁, q₂, x, rfl, h₁, h₂⟩
    exact ⟨x, q₂ ++ rest, (h _ _ _).2 ⟨q₁, by simp, h₁⟩, (hf q₁ x h₁ _ _ _).2 ⟨q₂, rfl, h₂⟩⟩

theorem Decodes.bind (h : Decodes d G) (hf : ∀ x, Decodes (f x) (H x)) :
    Decodes (d >>= f) (G.andThen H) :=
  h.bind_of fun _ x _ => hf x

theorem Decodes.map (h : Decodes d G) : Decodes (d >>= fun x => pure (g x)) (G.image g) := by
  refine (h.bind fun x => decodes_pure (g x)).congr fun q y => ?_
  constructor
  · rintro ⟨q, _, x, rfl, hx, rfl, rfl⟩
    exact ⟨x, by simpa using hx, rfl⟩
  · rintro ⟨x, hx, rfl⟩
    exact ⟨q, [], x, by simp, hx, rfl, rfl⟩

/-- Values that are read and then turned into others or refused. -/
theorem Decodes.check {ε : Type} (h : Decodes d G) (p : α → Except ε β) (t : ε → Fault)
    (hf : ∀ x, f x = match p x with | .ok y => pure y | .error e => throw (t e)) :
    Decodes (d >>= f) (fun q y => ∃ x, G q x ∧ p x = .ok y) := by
  intro xs y rest
  rw [bind_eq_ok_iff]
  have step (x : α) (middle : List UInt8) :
      f x middle = .ok (y, rest) ↔ p x = .ok y ∧ middle = rest := by
    rw [hf]
    cases p x with
    | error e =>
      constructor
      · intro h'
        cases h'
      · rintro ⟨h', -⟩
        cases h'
    | ok z =>
      change Except.ok (z, middle) = _ ↔ _
      simp
  simp only [step]
  constructor
  · rintro ⟨x, middle, hx, hy, rfl⟩
    obtain ⟨q, rfl, hq⟩ := (h _ _ _).1 hx
    exact ⟨q, rfl, x, hq, hy⟩
  · rintro ⟨q, rfl, x, hq, hy⟩
    exact ⟨x, rest, (h _ _ _).2 ⟨q, rfl, hq⟩, hy, rfl⟩

/-! ## What every grammar gives -/

/-- Bytes of the grammar are read, whatever follows them. -/
theorem Decodes.reads (h : Decodes d G) {q : List UInt8} {x : α} (hq : G q x)
    (rest : List UInt8) : d (q ++ rest) = .ok (x, rest) :=
  (h _ _ _).2 ⟨q, rfl, hq⟩

/-- More bytes at the end are left over. -/
theorem Decodes.append (h : Decodes d G) {xs rest : List UInt8} {x : α}
    (hd : d xs = .ok (x, rest)) (more : List UInt8) : d (xs ++ more) = .ok (x, rest ++ more) := by
  obtain ⟨q, rfl, hq⟩ := (h _ _ _).1 hd
  rw [List.append_assoc]
  exact h.reads hq (rest ++ more)

/-- Bytes that are read to the end have no shorter initial part that is read. -/
theorem Decodes.refuses_initial (h : Decodes d G) {q xs : List UInt8} {x : α}
    (hd : d xs = .ok (x, [])) (hq : q <+: xs) (hne : q ≠ xs) : ∃ e, d q = .error e := by
  obtain ⟨more, rfl⟩ := hq
  cases hr : d q with
  | error e => exact ⟨e, rfl⟩
  | ok p =>
    have hlong := h.append hr more
    rw [hd] at hlong
    injection hlong with hlong
    have hmore : more = [] := (List.append_eq_nil_iff.1 (Prod.mk.inj hlong).2.symm).2
    rw [hmore, List.append_nil] at hne
    exact absurd rfl hne

end

/-! ## Numbers -/

def NumberBytes (width : Nat) : Grammar Nat := fun q n =>
  q.length = width ∧ LittleEndian.decode q = n

theorem decodes_number (width : Nat) : Decodes (number width) (NumberBytes width) := by
  intro xs n rest
  unfold number
  split
  · rename_i h
    rw [List.length_take] at h
    constructor
    · intro h'
      cases h'
    · rintro ⟨q, rfl, hq, -⟩
      rw [List.length_append] at h
      omega
  · rename_i h
    rw [List.length_take] at h
    constructor
    · intro h'
      cases h'
      exact ⟨xs.take width, (List.take_append_drop _ _).symm, by rw [List.length_take]; omega, rfl⟩
    · rintro ⟨q, rfl, rfl, rfl⟩
      simp

theorem NumberBytes.lt {width n : Nat} {q : List UInt8} (h : NumberBytes width q n) :
    n < Nat.pow 256 width := by
  have hq := LittleEndian.decode_lt q
  rwa [h.1, h.2] at hq

theorem numberBytes_encode {width n : Nat} (h : n < Nat.pow 256 width) :
    NumberBytes width (LittleEndian.encode width n) n := by
  refine ⟨LittleEndian.length_encode _ _, ?_⟩
  rw [LittleEndian.decode_encode, Nat.mod_eq_of_lt h]

def IndexBytes : Grammar UInt32 := fun q i => NumberBytes 4 q i.toNat

theorem decodes_index : Decodes index IndexBytes := by
  refine (decodes_number 4).map.congr fun q i => ?_
  constructor
  · rintro ⟨n, hn, rfl⟩
    have hlt : n < UInt32.size := hn.lt
    rw [IndexBytes, UInt32.toNat_ofNat_of_lt' hlt]
    exact hn
  · intro h
    exact ⟨i.toNat, h, (UInt32.ofNat_toNat).symm⟩

theorem indexBytes_encode (i : UInt32) : IndexBytes (encodeIndex i) i :=
  numberBytes_encode (UInt32.toNat_lt i)

def PositionBytes : Grammar UInt64 := fun q i => NumberBytes 8 q i.toNat

theorem decodes_position : Decodes position PositionBytes := by
  refine (decodes_number 8).map.congr fun q i => ?_
  constructor
  · rintro ⟨n, hn, rfl⟩
    have hlt : n < UInt64.size := hn.lt
    rw [PositionBytes, UInt64.toNat_ofNat_of_lt' hlt]
    exact hn
  · intro h
    exact ⟨i.toNat, h, (UInt64.ofNat_toNat).symm⟩

theorem positionBytes_encode (i : UInt64) : PositionBytes (encodePosition i) i :=
  numberBytes_encode (UInt64.toNat_lt i)

def TagBytes (kinds : Nat) : Grammar Nat := fun q n => NumberBytes 4 q n ∧ n < kinds

theorem decodes_tag (kinds : Nat) : Decodes (tag kinds) (TagBytes kinds) := by
  refine ((decodes_number 4).check
    (fun n => if n < kinds then .ok n else .error (Fault.badTag n kinds)) id ?_).congr ?_
  · intro n
    split <;> rfl
  · intro q n
    constructor
    · rintro ⟨m, hm, hn⟩
      split at hn
      · cases hn
        exact ⟨hm, by assumption⟩
      · cases hn
    · rintro ⟨hn, hlt⟩
      exact ⟨n, hn, if_pos hlt⟩

theorem tagBytes_encode {kinds n : Nat} (hn : n < kinds) (hk : kinds ≤ 256) :
    TagBytes kinds (encodeTag n) n := by
  have h256 : (256 : Nat) ≤ Nat.pow 256 4 := by decide
  exact ⟨numberBytes_encode (by omega), hn⟩

/-! ## Texts -/

/-- A count of bytes and the bytes of a text. -/
def CharsBytes : Grammar (List Char) := fun q cs =>
  ∃ n, q = n ++ Utf8.encode cs ∧ NumberBytes 8 n (Utf8.encode cs).length

private theorem decodes_bytes (n : Nat) : Decodes (bytes n) (fun q ys => q.length = n ∧ ys = q) := by
  intro xs ys rest
  unfold bytes
  split
  · rename_i h
    rw [List.length_take] at h
    constructor
    · intro h'
      cases h'
    · rintro ⟨q, rfl, hq, -⟩
      rw [List.length_append] at h
      omega
  · rename_i h
    rw [List.length_take] at h
    constructor
    · intro h'
      cases h'
      exact ⟨xs.take n, (List.take_append_drop _ _).symm, by rw [List.length_take]; omega, rfl⟩
    · rintro ⟨q, rfl, rfl, rfl⟩
      simp

theorem decodes_chars : Decodes chars CharsBytes := by
  refine ((decodes_number 8).bind fun n =>
    (decodes_bytes n).check Utf8.decode Fault.notText ?_).congr ?_
  · intro xs
    split <;> rename_i h <;> rw [h]
  · intro q cs
    constructor
    · rintro ⟨n, xs, m, rfl, hn, ys, ⟨hlen, rfl⟩, hcs⟩
      rw [Utf8.decode_eq_ok_iff] at hcs
      subst hcs
      exact ⟨n, rfl, hlen ▸ hn⟩
    · rintro ⟨n, rfl, hn⟩
      exact ⟨n, Utf8.encode cs, _, rfl, hn, Utf8.encode cs, ⟨rfl, rfl⟩, Utf8.decode_encode cs⟩

theorem charsBytes_encode {cs : List Char} (h : (Utf8.encode cs).length < Nat.pow 256 8) :
    CharsBytes (encodeChars cs) cs :=
  ⟨_, rfl, numberBytes_encode h⟩

def TextBytes : Grammar String := fun q s => CharsBytes q s.toList

theorem decodes_text : Decodes text TextBytes := by
  refine decodes_chars.map.congr fun q s => ?_
  constructor
  · rintro ⟨cs, hcs, rfl⟩
    rwa [TextBytes, String.toList_ofList]
  · intro h
    exact ⟨s.toList, h, (String.ofList_toList).symm⟩

/-- A text that the lenient reader of field elements takes. -/
def FieldBytes : Grammar Field := fun q x => ∃ cs, CharsBytes q cs ∧ Field.ofChars cs = .ok x

theorem decodes_field : Decodes field FieldBytes := by
  refine decodes_chars.check Field.ofChars Fault.badField ?_
  intro cs
  split <;> rename_i h <;> rw [h]

/-! ## Lists -/

/-- The bytes of one item behind those of the other. -/
inductive Sequence {α : Type} (G : Grammar α) : Grammar (List α)
  | nil : Sequence G [] []
  | cons {q qs : List UInt8} {x : α} {xs : List α} :
      G q x → Sequence G qs xs → Sequence G (q ++ qs) (x :: xs)

/-- A count of items and their bytes. -/
def ListBytes {α : Type} (G : Grammar α) : Grammar (List α) := fun q xs =>
  ∃ n s, q = n ++ s ∧ NumberBytes 8 n xs.length ∧ Sequence G s xs

section

variable {α : Type} {item : Decoder α} {G : Grammar α}

theorem sequence_nil_iff {q : List UInt8} : Sequence G q [] ↔ q = [] := by
  constructor
  · intro h
    cases h
    rfl
  · rintro rfl
    exact .nil

-- On the count; the items read so far stand reversed in front.
private theorem decodes_itemsAfter (h : Decodes item G) (count : Nat) (acc : List α) :
    Decodes (itemsAfter item count acc) (fun q ys =>
      ∃ zs, ys = acc.reverse ++ zs ∧ zs.length = count ∧ Sequence G q zs) := by
  induction count generalizing acc with
  | zero =>
    intro xs ys rest
    constructor
    · intro hd
      cases hd
      exact ⟨[], rfl, [], by simp, rfl, .nil⟩
    · rintro ⟨q, rfl, zs, rfl, hlen, hs⟩
      rw [List.length_eq_zero_iff] at hlen
      subst hlen
      rw [sequence_nil_iff] at hs
      simp [hs, itemsAfter]
  | succ count ih =>
    have step : itemsAfter item (count + 1) acc =
        item >>= fun x => itemsAfter item count (x :: acc) := by
      funext xs
      simp only [itemsAfter]
      change _ = Except.bind (item xs) _
      cases item xs <;> rfl
    rw [step]
    refine (h.bind fun x => ih (x :: acc)).congr fun q ys => ?_
    constructor
    · rintro ⟨q₁, q₂, x, rfl, h₁, zs, rfl, rfl, h₂⟩
      exact ⟨x :: zs, by simp, rfl, .cons h₁ h₂⟩
    · rintro ⟨zs, rfl, hlen, hs⟩
      cases hs with
      | nil => cases hlen
      | @cons q₁ q₂ x zs h₁ h₂ =>
        exact ⟨q₁, q₂, x, rfl, h₁, zs, by simp, by simpa using hlen, h₂⟩

theorem decodes_list (h : Decodes item G) : Decodes (list item) (ListBytes G) := by
  refine ((decodes_number 8).bind fun n => decodes_itemsAfter h n []).congr fun q xs => ?_
  constructor
  · rintro ⟨n, s, _, rfl, hn, zs, rfl, rfl, hs⟩
    exact ⟨n, s, rfl, hn, hs⟩
  · rintro ⟨n, s, rfl, hn, hs⟩
    exact ⟨n, s, _, rfl, hn, xs, rfl, rfl, hs⟩

theorem sequence_flatMap {encode : α → List UInt8} {xs : List α}
    (h : ∀ x ∈ xs, G (encode x) x) : Sequence G (xs.flatMap encode) xs := by
  induction xs with
  | nil => exact .nil
  | cons x xs ih =>
    have hx := h x List.mem_cons_self
    have hxs := ih fun y hy => h y (List.mem_cons_of_mem _ hy)
    exact .cons hx hxs

theorem listBytes_encode {encode : α → List UInt8} {xs : List α}
    (hlen : xs.length < Nat.pow 256 8) (h : ∀ x ∈ xs, G (encode x) x) :
    ListBytes G (encodeList encode xs) xs :=
  ⟨_, _, rfl, numberBytes_encode hlen, sequence_flatMap h⟩

end

end CircuitFixtures.Payload
