import CircuitFixtures.Gzip
import CircuitFixtures.Proofs.Deflate.Extension

/-!
# Members written and read

A member gives its data back, whatever follows it (`decompress_compress_append`). A member that
is cut short gives none (`decompress_initial`): without the whole header there is nothing to
read, and with it the compressed data would have to end before its own end, or the trailer
would be too short.
-/

namespace CircuitFixtures.Gzip

theorem afterHeader_plainHeader (xs : List UInt8) : afterHeader (plainHeader ++ xs) = .ok xs :=
  rfl

theorem afterHeader_of_length_lt {xs : List UInt8} (h : xs.length < 10) :
    afterHeader xs = .error .truncated := by
  rw [afterHeader]
  intro m0 m1 method flags t0 t1 t2 t3 extra system rest heq
  rw [heq] at h
  simp only [List.length_cons] at h
  omega

theorem length_trailer (data : List UInt8) : (trailer data).length = 8 := by
  rw [trailer, List.length_append, LittleEndian.length_encode, LittleEndian.length_encode]

theorem checkTrailer_trailer (data ys : List UInt8) :
    checkTrailer data (trailer data ++ ys) = .ok data := by
  have htake : (trailer data ++ ys).take 8 = trailer data :=
    List.take_left' (length_trailer data)
  rw [checkTrailer, htake, length_trailer, if_neg (Nat.lt_irrefl _), if_pos rfl]

theorem checkTrailer_of_length_lt (data : List UInt8) {xs : List UInt8} (h : xs.length < 8) :
    checkTrailer data xs = .error .truncated := by
  rw [checkTrailer, if_pos]
  rw [List.length_take]
  omega

theorem decompress_plainHeader (xs : List UInt8) :
    decompress (plainHeader ++ xs) =
      match Deflate.decompress xs with
      | .error e => .error (.data e)
      | .ok (data, rest) => checkTrailer data rest := by
  rw [decompress, afterHeader_plainHeader]
  rfl

/-- A member gives its data back, whatever follows it. -/
theorem decompress_compress_append (data ys : List UInt8) :
    decompress (compress data ++ ys) = .ok data := by
  rw [compress, List.append_assoc, List.append_assoc, decompress_plainHeader,
    Deflate.decompress_compress_append]
  exact checkTrailer_trailer data ys

theorem decompress_compress (data : List UInt8) : decompress (compress data) = .ok data := by
  have h := decompress_compress_append data []
  rwa [List.append_nil] at h

/-- A member that is cut short cannot be read. -/
theorem decompress_initial {data q : List UInt8} (hq : q <+: compress data)
    (hne : q ≠ compress data) : ∃ e, decompress q = .error e := by
  by_cases hshort : q.length < 10
  · exact ⟨.truncated, by rw [decompress, afterHeader_of_length_lt hshort]; rfl⟩
  · obtain ⟨ys, hys⟩ := hq
    rw [compress, List.append_assoc] at hys hne
    -- Behind the header, `xs` is what is left of the compressed data and the trailer.
    have hheader : plainHeader <+: q :=
      List.prefix_of_prefix_length_le ⟨_, rfl⟩ ⟨ys, hys⟩ (Nat.not_lt.1 hshort)
    obtain ⟨xs, rfl⟩ := hheader
    rw [List.append_assoc, List.append_cancel_left_eq] at hys
    rw [decompress_plainHeader]
    cases hxs : Deflate.decompress xs with
    | error e => exact ⟨.data e, rfl⟩
    | ok p =>
      obtain ⟨data', rest⟩ := p
      have hlonger := Deflate.decompress_extend hxs ys
      rw [hys, Deflate.decompress_compress_append] at hlonger
      obtain ⟨-, hrest⟩ := Prod.mk.inj (Except.ok.inj hlonger)
      have hlength := congrArg List.length hrest
      rw [length_trailer, List.length_append] at hlength
      have hys0 : ys ≠ [] := by
        rintro rfl
        rw [List.append_nil] at hys
        exact hne (by rw [hys])
      have hpos := List.length_pos_iff.2 hys0
      exact ⟨.truncated, checkTrailer_of_length_lt data' (by omega)⟩

end CircuitFixtures.Gzip
