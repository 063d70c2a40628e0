import CircuitFixtures.Proofs.Fixture.Edits
import CircuitFixtures.Proofs.Gzip.Extension

/-!
# The bytecode of a fixture that passes

Reading a member ignores what follows it, so bytes behind the bytecode of a fixture do not keep
its circuit from being read. The check finds them all the same, since it compresses the payload
again (`check_extended`), and it finds bytes that are missing at the end (`check_initial`).
-/

namespace CircuitFixtures.Fixture

section

variable {f : Fixture} {c : Circuit} {n : Nat} {w : Index} {x : Field}

theorem Consistent.check_extended (h : f.Consistent c n w x) {ys : List UInt8} (hys : ys ≠ []) :
    check { f with bytecode := f.bytecode ++ ys } = .error .bytecodeDiffers := by
  have hdiffers : Gzip.compress c.toPayload ≠ f.bytecode ++ ys := by
    rw [h.compress]
    exact fun heq => hys (List.self_eq_append_right.1 heq)
  have hbytecode : checkBytecode (f.bytecode ++ ys) = .error .bytecodeDiffers := by
    rw [checkBytecode, Gzip.decompress_extend h.decompress]
    simp [Circuit.ofPayload_toPayload h.fits, hdiffers]
  rw [check]
  simp only [hbytecode]

theorem Consistent.check_initial (h : f.Consistent c n w x) {q : List UInt8}
    (hq : q <+: f.bytecode) (hne : q ≠ f.bytecode) :
    ∃ e, check { f with bytecode := q } = .error (.archive (.gzip e)) := by
  rw [← h.compress] at hq hne
  obtain ⟨e, he⟩ := Gzip.decompress_initial hq hne
  refine ⟨e, ?_⟩
  rw [check, checkBytecode]
  simp only [he]

end

/-- Bytes behind a member do not change what is read from it, but neither bytes behind the
bytecode of a fixture that passes nor bytes missing at its end escape the check. -/
theorem check_pins_bytecode :
    (∀ xs data ys, Gzip.decompress xs = .ok data → Gzip.decompress (xs ++ ys) = .ok data) ∧
      ∀ (f : Fixture) (report : Report), f.check = .ok report →
        (∀ ys, ys ≠ [] →
          check { f with bytecode := f.bytecode ++ ys } = .error .bytecodeDiffers) ∧
        ∀ q, q <+: f.bytecode → q ≠ f.bytecode →
          ∃ e, check { f with bytecode := q } = .error (.archive (.gzip e)) := by
  refine ⟨fun _ _ ys h => Gzip.decompress_extend h ys, fun f report h => ?_⟩
  obtain ⟨c, n, w, x, hf, -⟩ := (check_eq_ok_iff f report).1 h
  exact ⟨fun _ => hf.check_extended, fun _ => hf.check_initial⟩

/-- The sample fixture with a zero byte more, and with one byte less. -/
theorem sample_pinned :
    (sample "pinned" Field.zero).check =
        .ok ((sample "pinned" Field.zero).reportOf Circuit.sample 2 3 Field.zero) ∧
      check { sample "pinned" Field.zero with bytecode := Circuit.sample.toArchive ++ [0] } =
        .error .bytecodeDiffers ∧
      ∃ e, check { sample "pinned" Field.zero with
          bytecode := Circuit.sample.toArchive.dropLast } = .error (.archive (.gzip e)) := by
  have hcheck := check_sample "pinned" Field.zero
  have hshorter : Circuit.sample.toArchive.dropLast ≠ Circuit.sample.toArchive := by
    intro heq
    have hlength := congrArg List.length heq
    have hpos : 0 < Circuit.sample.toArchive.length :=
      List.length_pos_iff.2 (List.cons_ne_nil _ _)
    rw [List.length_dropLast] at hlength
    omega
  obtain ⟨hextended, hinitial⟩ := check_pins_bytecode.2 _ _ hcheck
  exact ⟨hcheck, hextended [0] (by decide), hinitial _ (List.dropLast_prefix _) hshorter⟩

end CircuitFixtures.Fixture
