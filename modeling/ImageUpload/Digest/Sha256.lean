import ImageUpload.Bytes.Hex
import ImageUpload.Number.Natural

/-!
The SHA-256 digest: a message is padded to whole blocks of sixty-four bytes, and
each block is mixed into a state of eight words.
-/

namespace ImageUpload
namespace Sha256

structure State where
  a : UInt32
  b : UInt32
  c : UInt32
  d : UInt32
  e : UInt32
  f : UInt32
  g : UInt32
  h : UInt32

def initial : State :=
  ⟨0x6a09e667, 0xbb67ae85, 0x3c6ef372, 0xa54ff53a, 0x510e527f, 0x9b05688c, 0x1f83d9ab, 0x5be0cd19⟩

def roundConstants : List UInt32 := [
  0x428a2f98, 0x71374491, 0xb5c0fbcf, 0xe9b5dba5, 0x3956c25b, 0x59f111f1, 0x923f82a4, 0xab1c5ed5,
  0xd807aa98, 0x12835b01, 0x243185be, 0x550c7dc3, 0x72be5d74, 0x80deb1fe, 0x9bdc06a7, 0xc19bf174,
  0xe49b69c1, 0xefbe4786, 0x0fc19dc6, 0x240ca1cc, 0x2de92c6f, 0x4a7484aa, 0x5cb0a9dc, 0x76f988da,
  0x983e5152, 0xa831c66d, 0xb00327c8, 0xbf597fc7, 0xc6e00bf3, 0xd5a79147, 0x06ca6351, 0x14292967,
  0x27b70a85, 0x2e1b2138, 0x4d2c6dfc, 0x53380d13, 0x650a7354, 0x766a0abb, 0x81c2c92e, 0x92722c85,
  0xa2bfe8a1, 0xa81a664b, 0xc24b8b70, 0xc76c51a3, 0xd192e819, 0xd6990624, 0xf40e3585, 0x106aa070,
  0x19a4c116, 0x1e376c08, 0x2748774c, 0x34b0bcb5, 0x391c0cb3, 0x4ed8aa4a, 0x5b9cca4f, 0x682e6ff3,
  0x748f82ee, 0x78a5636f, 0x84c87814, 0x8cc70208, 0x90befffa, 0xa4506ceb, 0xbef9a3f7, 0xc67178f2]

def rotate (x n : UInt32) : UInt32 :=
  (x >>> n) ||| (x <<< (32 - n))

def smallSigma0 (x : UInt32) : UInt32 :=
  rotate x 7 ^^^ rotate x 18 ^^^ (x >>> 3)

def smallSigma1 (x : UInt32) : UInt32 :=
  rotate x 17 ^^^ rotate x 19 ^^^ (x >>> 10)

def bigSigma0 (x : UInt32) : UInt32 :=
  rotate x 2 ^^^ rotate x 13 ^^^ rotate x 22

def bigSigma1 (x : UInt32) : UInt32 :=
  rotate x 6 ^^^ rotate x 11 ^^^ rotate x 25

def byteAt (b : ByteArray) (i : Nat) : UInt32 :=
  (b[i]?.getD 0).toUInt32

/-- The big-endian word at an offset. -/
def wordAt (b : ByteArray) (i : Nat) : UInt32 :=
  (byteAt b i <<< 24) ||| (byteAt b (i + 1) <<< 16) ||| (byteAt b (i + 2) <<< 8) ||| byteAt b (i + 3)

/-- Each further word of the schedule depends on four of the sixteen before it. -/
def extend : Nat → Array UInt32 → Array UInt32
  | 0, w => w
  | n + 1, w =>
    let at_ (back : Nat) : UInt32 := w[w.size - back]?.getD 0
    extend n (w.push (smallSigma1 (at_ 2) + at_ 7 + smallSigma0 (at_ 15) + at_ 16))

def schedule (b : ByteArray) (start : Nat) : Array UInt32 :=
  extend 48 ((List.range 16).map fun i => wordAt b (start + 4 * i)).toArray

def round (s : State) (k w : UInt32) : State :=
  let choice := (s.e &&& s.f) ^^^ ((~~~ s.e) &&& s.g)
  let majority := (s.a &&& s.b) ^^^ (s.a &&& s.c) ^^^ (s.b &&& s.c)
  let t1 := s.h + bigSigma1 s.e + choice + k + w
  let t2 := bigSigma0 s.a + majority
  ⟨t1 + t2, s.a, s.b, s.c, s.d + t1, s.e, s.f, s.g⟩

def rounds : List UInt32 → List UInt32 → State → State
  | k :: ks, w :: ws, s => rounds ks ws (round s k w)
  | _, _, s => s

def compress (s : State) (b : ByteArray) (start : Nat) : State :=
  let t := rounds roundConstants (schedule b start).toList s
  ⟨s.a + t.a, s.b + t.b, s.c + t.c, s.d + t.d, s.e + t.e, s.f + t.f, s.g + t.g, s.h + t.h⟩

def bigEndian (width n : Nat) : List UInt8 :=
  (List.range width).map fun i => (n / 256 ^ (width - 1 - i)).toUInt8

/-- The message, one bit that ends it, zeros, and its length in bits. -/
def padded (b : ByteArray) : ByteArray :=
  let zeros := (119 - b.size % 64) % 64
  b ++ (0x80 :: List.replicate zeros 0 ++ bigEndian 8 (8 * b.size)).toByteArray

def blocks (b : ByteArray) : (count start : Nat) → State → State
  | 0, _, s => s
  | count + 1, start, s => blocks b count (start + 64) (compress s b start)

def digest (b : ByteArray) : ByteArray :=
  let p := padded b
  let s := blocks p (p.size / 64) 0 initial
  ([s.a, s.b, s.c, s.d, s.e, s.f, s.g, s.h].flatMap fun w => bigEndian 4 w.toNat).toByteArray

def text (b : ByteArray) : String :=
  hexText (digest b)

end Sha256
end ImageUpload
