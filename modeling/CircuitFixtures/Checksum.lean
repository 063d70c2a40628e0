/-!
# CRC-32

The cyclic redundancy check with the reflected polynomial `0xEDB88320`, register
and result complemented. `crc32_nil` and `crc32_append` say that it is a fold over
the bytes, so a check may be taken piece by piece.
-/

namespace CircuitFixtures.Checksum

/-- One bit of polynomial division. -/
def shift (c : UInt32) : UInt32 :=
  if c &&& 1 == 1 then (c >>> 1) ^^^ 0xEDB88320 else c >>> 1

/-- Feeds one byte to the register. -/
def step (c : UInt32) (x : UInt8) : UInt32 :=
  let c := c ^^^ x.toUInt32
  shift (shift (shift (shift (shift (shift (shift (shift c)))))))

/-- The register after more bytes, starting from register `c`. -/
def feed (c : UInt32) (xs : List UInt8) : UInt32 :=
  xs.foldl step c

def crc32 (xs : List UInt8) : UInt32 :=
  ~~~ (feed 0xFFFFFFFF xs)

theorem crc32_nil : crc32 [] = 0 := by decide

theorem crc32_append (xs ys : List UInt8) :
    crc32 (xs ++ ys) = ~~~ (feed (feed 0xFFFFFFFF xs) ys) := by
  simp [crc32, feed]

end CircuitFixtures.Checksum
