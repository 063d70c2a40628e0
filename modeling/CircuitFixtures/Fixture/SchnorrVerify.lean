import CircuitFixtures.Fixture

/-!
# The signature fixture

A circuit that verifies one Schnorr signature over a message of ten bytes. It takes the
coordinates of the public key at indices 1 and 2, the 64 bytes of the signature from 3 on
and the message from 67 on, and returns at 77 whether the signature is valid. The
fixture's signature is.
-/

namespace CircuitFixtures.SchnorrVerify

def name : String := "schnorr_verify"

/-- The index of the result. -/
def returnIndex : Index := 77

/-- The result for a valid signature. -/
def returnValue : Nat := 1

def publicKeyX : Field :=
  ⟨0x17cbd3ed3151ccfd170efe1d54280a6a4822640bf5c369908ad74ea21518a9c5, by decide⟩

def publicKeyY : Field :=
  ⟨0x0e0456e3795c1a31f20035b741cd6158929eeccd320d299cfcac962865a6bc74, by decide⟩

def signature : List UInt8 :=
  [
    5, 202, 31, 146, 81, 242, 246, 69, 43, 107, 249, 153, 198, 44, 14, 111, 191, 121, 137, 166,
    160, 103, 18, 181, 243, 233, 226, 95, 67, 16, 37, 128, 85, 76, 19, 253, 30, 77, 192, 53, 138,
    205, 69, 33, 236, 163, 83, 194, 84, 137, 184, 221, 176, 121, 179, 27, 63, 70, 54, 16, 176,
    250, 39, 239]

def message : List UInt8 :=
  [0, 1, 2, 3, 4, 5, 6, 7, 8, 9]

/-- The arguments in index order. -/
def arguments : List Field :=
  publicKeyX :: publicKeyY :: (signature ++ message).map (fun x => Field.ofNat x.toNat)

/-- The compressed circuit. -/
def bytecode : List UInt8 :=
  [
    31, 139, 8, 0, 0, 0, 0, 0, 0, 255, 77, 210, 87, 78, 2, 1, 20, 134, 209, 177, 247, 222, 123,
    71, 68, 68, 68, 68, 68, 68, 68, 68, 68, 221, 133, 251, 95, 130, 145, 27, 206, 36, 78, 50, 57,
    16, 94, 200, 253, 191, 159, 36, 73, 134, 146, 193, 19, 142, 241, 183, 255, 14, 179, 233, 247,
    145, 254, 59, 217, 127, 71, 57, 198, 113, 78, 48, 125, 167, 56, 205, 25, 206, 114, 142, 243,
    92, 224, 34, 151, 184, 204, 21, 174, 114, 141, 235, 220, 224, 38, 183, 184, 205, 29, 238,
    114, 143, 251, 60, 224, 33, 143, 120, 204, 19, 158, 242, 140, 25, 158, 51, 203, 11, 230, 120,
    201, 60, 175, 88, 224, 53, 139, 188, 97, 137, 183, 44, 243, 142, 21, 222, 179, 202, 7, 214,
    248, 200, 58, 159, 216, 224, 51, 155, 124, 97, 235, 223, 142, 241, 188, 250, 222, 230, 27,
    59, 124, 103, 151, 31, 236, 241, 147, 95, 252, 246, 57, 158, 104, 47, 186, 139, 214, 162,
    179, 104, 44, 250, 74, 219, 154, 242, 63, 162, 165, 232, 40, 26, 138, 126, 162, 157, 232, 38,
    154, 137, 94, 162, 149, 232, 36, 26, 137, 62, 162, 141, 232, 34, 154, 136, 30, 162, 133, 232,
    32, 26, 136, 253, 99, 251, 195, 100, 176, 121, 236, 29, 91, 159, 218, 56, 99, 219, 172, 77,
    115, 182, 204, 219, 176, 96, 187, 162, 205, 74, 182, 42, 219, 168, 98, 155, 170, 77, 106,
    182, 168, 219, 160, 225, 246, 77, 55, 111, 185, 113, 219, 109, 59, 110, 218, 117, 203, 158,
    27, 166, 55, 75, 239, 150, 184, 101, 250, 252, 1, 19, 89, 159, 101, 220, 3, 0, 0]

def initial : Assignment :=
  IndexMap.ofList (arguments.mapIdx (fun k x => (Fixture.firstIndex + UInt32.ofNat k, x)))

/-- The arguments and the result. -/
def expected : Assignment :=
  initial.insert returnIndex (Field.ofNat returnValue)

def fixture : Fixture :=
  ⟨name, bytecode, initial, expected⟩

end CircuitFixtures.SchnorrVerify
