import CircuitFixtures.Bytes.LittleEndian
import CircuitFixtures.Checksum
import CircuitFixtures.Deflate.Reader
import CircuitFixtures.Deflate.Writer

/-!
# Gzip members

A member is a header, compressed data, and the checksum and size of the data. `compress`
writes one member with an empty header; `decompress` reads the first member, whatever
optional fields its header has, and ignores what follows it.
-/

namespace CircuitFixtures.Gzip

/-- Why a member cannot be read. -/
inductive Fault where
  /-- The input ends in the header or after the compressed data. -/
  | truncated
  | badHeader
  /-- A name or comment without end. -/
  | fieldTooLong
  /-- The header or the data does not match its checksum, or the data its size. -/
  | badChecksum
  | data (fault : Deflate.Fault)
  deriving Repr, DecidableEq

def Fault.message : Fault → String
  | .truncated => "unexpected end of file"
  | .badHeader => "invalid gzip header"
  | .fieldTooLong => "gzip header field too long"
  | .badChecksum => "corrupt gzip stream does not have a matching checksum"
  | .data .incomplete => "incomplete deflate stream"
  | .data .corrupt => "corrupt deflate stream"

/-- The header of every member written: no optional field, no time, no named system. -/
def plainHeader : List UInt8 :=
  [0x1f, 0x8b, 8, 0, 0, 0, 0, 0, 0, 0xff]

/-- Checksum and size of the data. -/
def trailer (data : List UInt8) : List UInt8 :=
  LittleEndian.encode 4 (Checksum.crc32 data).toNat ++ LittleEndian.encode 4 data.length

def compress (data : List UInt8) : List UInt8 :=
  plainHeader ++ Deflate.compress data ++ trailer data

/-- The longest name or comment of a header. -/
def maxField : Nat := 65535

/-- Skips `n` bytes. -/
def skip (n : Nat) (xs : List UInt8) : Except Fault (List UInt8) :=
  let rest := xs.drop n
  if (xs.take n).length < n then .error .truncated else .ok rest

/-- Skips a field whose length is written before it. -/
def skipExtra : List UInt8 → Except Fault (List UInt8)
  | a :: b :: rest => skip (a.toNat + 256 * b.toNat) rest
  | _ => .error .truncated

/-- Skips a text that ends with a zero byte. -/
def skipText (xs : List UInt8) : Except Fault (List UInt8) :=
  let (text, rest) := xs.span (· != 0)
  if maxField < text.length then .error .fieldTooLong
  else
    match rest with
    | _ :: rest => .ok rest
    | [] => .error .truncated

/-- Checks the two checksum bytes of a header against the bytes before them in `whole`. -/
def checkHeader (whole xs : List UInt8) : Except Fault (List UInt8) :=
  match xs with
  | a :: b :: rest =>
    let sum := (Checksum.crc32 (whole.take (whole.length - xs.length))).toNat % 65536
    if a.toNat + 256 * b.toNat = sum then .ok rest else .error .badChecksum
  | _ => .error .truncated

/-- Takes a step if the flag is set. -/
def optional (flags : UInt8) (bit : Nat) (step : List UInt8 → Except Fault (List UInt8))
    (xs : List UInt8) : Except Fault (List UInt8) :=
  if flags.toNat.testBit bit then step xs else .ok xs

/-- The bytes after the header. -/
def afterHeader (xs : List UInt8) : Except Fault (List UInt8) :=
  match xs with
  | m0 :: m1 :: method :: flags :: _ :: _ :: _ :: _ :: _ :: _ :: rest =>
    if m0 != 0x1f || m1 != 0x8b || method != 8 || 32 ≤ flags.toNat then .error .badHeader
    else do
      let rest ← optional flags 2 skipExtra rest
      let rest ← optional flags 3 skipText rest
      let rest ← optional flags 4 skipText rest
      optional flags 1 (checkHeader xs) rest
  | _ => .error .truncated

/-- Checks the data against the checksum and size that follow it. -/
def checkTrailer (data : List UInt8) (xs : List UInt8) : Except Fault (List UInt8) :=
  if (xs.take 8).length < 8 then .error .truncated
  else if xs.take 8 = trailer data then .ok data
  else .error .badChecksum

/-- The data of the first member. -/
def decompress (xs : List UInt8) : Except Fault (List UInt8) := do
  let rest ← afterHeader xs
  match Deflate.decompress rest with
  | .error e => .error (.data e)
  | .ok (data, rest) => checkTrailer data rest

end CircuitFixtures.Gzip
