import CircuitFixtures.Gzip
import CircuitFixtures.Proofs.Deflate.Extension
import Mathlib.Data.List.TakeDrop

/-!
# Bytes behind a member

A member that can be read is read the same with more bytes behind it (`decompress_extend`). Each
step over the header either looks at the bytes it takes alone (`Local`) or, for the checksum of
the header, at those in front of them.
-/

namespace CircuitFixtures.Gzip

/-- Where the step succeeds, it does so with more bytes at the end, and leaves these. -/
def Local (step : List UInt8 → Except Fault (List UInt8)) : Prop :=
  ∀ {xs rest : List UInt8}, step xs = .ok rest → ∀ ys, step (xs ++ ys) = .ok (rest ++ ys)

theorem local_skip (n : Nat) : Local (skip n) := by
  intro xs rest h ys
  rw [skip] at h ⊢
  split at h
  · cases h
  · rename_i henough
    cases h
    rw [List.length_take] at henough
    have hn : n ≤ xs.length := by omega
    rw [List.drop_append_of_le_length hn, List.take_append_of_le_length hn, List.length_take,
      if_neg (by omega)]

theorem local_skipExtra : Local skipExtra := by
  intro xs rest h ys
  match xs with
  | a :: b :: xs => exact local_skip _ h ys
  | [_] => cases h
  | [] => cases h

-- The zero byte that ends the text is there already, so the span stops where it did.
theorem local_skipText : Local skipText := by
  intro xs rest h ys
  rw [skipText, List.span_eq_takeWhile_dropWhile] at h ⊢
  dsimp only at h ⊢
  split at h
  · cases h
  · rename_i hshort
    split at h
    · rename_i zero behind hdrop
      cases h
      have hmore : (xs ++ ys).dropWhile (· != 0) = zero :: (rest ++ ys) := by
        rw [List.dropWhile_append, hdrop]
        rfl
      have htext : (xs ++ ys).takeWhile (· != 0) = xs.takeWhile (· != 0) := by
        have hxs : xs.takeWhile (· != 0) ++ zero :: (rest ++ ys) = xs ++ ys := by
          rw [← List.cons_append, ← hdrop, ← List.append_assoc, List.takeWhile_append_dropWhile]
        have hall := List.takeWhile_append_dropWhile (p := (· != 0)) (l := xs ++ ys)
        rw [hmore] at hall
        exact List.append_cancel_right (hall.trans hxs.symm)
      rw [htext, if_neg hshort, hmore]
    · cases h

theorem checkHeader_extend {whole xs rest : List UInt8} (h : checkHeader whole xs = .ok rest)
    (ys : List UInt8) : checkHeader (whole ++ ys) (xs ++ ys) = .ok (rest ++ ys) := by
  have hfront : (whole ++ ys).take ((whole ++ ys).length - (xs ++ ys).length) =
      whole.take (whole.length - xs.length) := by
    rw [List.length_append, List.length_append, Nat.add_sub_add_right,
      List.take_append_of_le_length (Nat.sub_le _ _)]
  match xs with
  | a :: b :: xs =>
    rw [checkHeader] at h
    split at h
    · rename_i hsum
      cases h
      rw [List.cons_append, List.cons_append] at hfront ⊢
      rw [checkHeader, hfront, if_pos hsum]
    · cases h
  | [_] => cases h
  | [] => cases h

theorem optional_extend {flags : UInt8} {bit : Nat} {xs rest ys : List UInt8}
    {step step' : List UInt8 → Except Fault (List UInt8)}
    (hstep : ∀ {xs rest}, step xs = .ok rest → step' (xs ++ ys) = .ok (rest ++ ys))
    (h : optional flags bit step xs = .ok rest) :
    optional flags bit step' (xs ++ ys) = .ok (rest ++ ys) := by
  rw [optional] at h ⊢
  split at h
  · rename_i hset
    rw [if_pos hset, hstep h]
  · rename_i hset
    cases h
    rw [if_neg hset]

private theorem bind_eq_ok {α β : Type} {x : Except Fault α} {f : α → Except Fault β} {b : β}
    (h : x >>= f = .ok b) : ∃ a, x = .ok a ∧ f a = .ok b := by
  cases x with
  | error e => cases h
  | ok a => exact ⟨a, rfl, h⟩

theorem afterHeader_extend {xs rest : List UInt8} (h : afterHeader xs = .ok rest)
    (ys : List UInt8) : afterHeader (xs ++ ys) = .ok (rest ++ ys) := by
  unfold afterHeader at h
  split at h
  · rename_i m0 m1 method flags t0 t1 t2 t3 extra system behind
    split at h
    · cases h
    · rename_i hplain
      obtain ⟨xs1, h1, h⟩ := bind_eq_ok h
      obtain ⟨xs2, h2, h⟩ := bind_eq_ok h
      obtain ⟨xs3, h3, h4⟩ := bind_eq_ok h
      have h1' := optional_extend (fun h => local_skipExtra h ys) h1
      have h2' := optional_extend (fun h => local_skipText h ys) h2
      have h3' := optional_extend (fun h => local_skipText h ys) h3
      have h4' := optional_extend (fun h => checkHeader_extend h ys) h4
      simp only [List.cons_append, afterHeader, if_neg hplain, h1', bind, Except.bind, h2', h3']
      exact h4'
  · cases h

theorem checkTrailer_extend {data xs out : List UInt8} (h : checkTrailer data xs = .ok out)
    (ys : List UInt8) : checkTrailer data (xs ++ ys) = .ok out := by
  rw [checkTrailer] at h ⊢
  split at h
  · cases h
  · rename_i henough
    rw [List.length_take] at henough
    rw [List.take_append_of_le_length (by omega), List.length_take, if_neg henough]
    exact h

/-- A member that can be read is read the same whatever follows it. -/
theorem decompress_extend {xs data : List UInt8} (h : decompress xs = .ok data)
    (ys : List UInt8) : decompress (xs ++ ys) = .ok data := by
  rw [decompress] at h ⊢
  obtain ⟨body, hheader, h⟩ := bind_eq_ok h
  rw [afterHeader_extend hheader]
  simp only [bind, Except.bind]
  split at h
  · cases h
  · rename_i out rest hbody
    rw [Deflate.decompress_extend hbody]
    exact checkTrailer_extend h ys

end CircuitFixtures.Gzip
