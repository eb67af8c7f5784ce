import SheetPackages.Text.Blank
import SheetPackages.Digest.Hex

/-!
# SHA-256

The digest of a sequence of bytes. The padded message is cut into blocks of sixteen 32-bit words;
each block is expanded to a schedule of sixty-four words, one for each round.
-/

namespace SheetPackages.Digest

def roundConstants : List UInt32 :=
  [0x428a2f98, 0x71374491, 0xb5c0fbcf, 0xe9b5dba5, 0x3956c25b, 0x59f111f1, 0x923f82a4, 0xab1c5ed5,
   0xd807aa98, 0x12835b01, 0x243185be, 0x550c7dc3, 0x72be5d74, 0x80deb1fe, 0x9bdc06a7, 0xc19bf174,
   0xe49b69c1, 0xefbe4786, 0x0fc19dc6, 0x240ca1cc, 0x2de92c6f, 0x4a7484aa, 0x5cb0a9dc, 0x76f988da,
   0x983e5152, 0xa831c66d, 0xb00327c8, 0xbf597fc7, 0xc6e00bf3, 0xd5a79147, 0x06ca6351, 0x14292967,
   0x27b70a85, 0x2e1b2138, 0x4d2c6dfc, 0x53380d13, 0x650a7354, 0x766a0abb, 0x81c2c92e, 0x92722c85,
   0xa2bfe8a1, 0xa81a664b, 0xc24b8b70, 0xc76c51a3, 0xd192e819, 0xd6990624, 0xf40e3585, 0x106aa070,
   0x19a4c116, 0x1e376c08, 0x2748774c, 0x34b0bcb5, 0x391c0cb3, 0x4ed8aa4a, 0x5b9cca4f, 0x682e6ff3,
   0x748f82ee, 0x78a5636f, 0x84c87814, 0x8cc70208, 0x90befffa, 0xa4506ceb, 0xbef9a3f7, 0xc67178f2]

/-- The eight working words. -/
structure Registers where
  a : UInt32 := 0x6a09e667
  b : UInt32 := 0xbb67ae85
  c : UInt32 := 0x3c6ef372
  d : UInt32 := 0xa54ff53a
  e : UInt32 := 0x510e527f
  f : UInt32 := 0x9b05688c
  g : UInt32 := 0x1f83d9ab
  h : UInt32 := 0x5be0cd19

def rotate (x n : UInt32) : UInt32 :=
  (x >>> n) ||| (x <<< (32 - n))

/-- The message with a one bit, zeros, and its length in bits in the last eight bytes. -/
def padded (message : List UInt8) : List UInt8 :=
  let length := message.length
  let zeros := (119 - length % 64) % 64
  let bits := 8 * length
  let lengthBytes := (List.range 8).map fun i ↦ UInt8.ofNat (bits >>> (8 * (7 - i)))
  message ++ 0x80 :: List.replicate zeros 0 ++ lengthBytes

/-- Bytes taken four at a time, the first one most significant. -/
def wordsOf : List UInt8 → List UInt32
  | a :: b :: c :: d :: rest =>
    (a.toUInt32 <<< 24 ||| b.toUInt32 <<< 16 ||| c.toUInt32 <<< 8 ||| d.toUInt32) :: wordsOf rest
  | _ => []

/-- The word that follows the last sixteen, given last one first. -/
def nextWord (recent : List UInt32) : UInt32 :=
  let at_ (i : Nat) := recent.getD i 0
  let x := at_ 14
  let y := at_ 1
  at_ 15 + (rotate x 7 ^^^ rotate x 18 ^^^ (x >>> 3)) + at_ 6 +
    (rotate y 17 ^^^ rotate y 19 ^^^ (y >>> 10))

/-- The schedule, last word first, after `n` more words. -/
def extend (recent : List UInt32) : Nat → List UInt32
  | 0 => recent
  | n + 1 => extend (nextWord recent :: recent) n

def round (r : Registers) (constant word : UInt32) : Registers :=
  let mix := rotate r.e 6 ^^^ rotate r.e 11 ^^^ rotate r.e 25
  let choice := (r.e &&& r.f) ^^^ (~~~r.e &&& r.g)
  let first := r.h + mix + choice + constant + word
  let blend := rotate r.a 2 ^^^ rotate r.a 13 ^^^ rotate r.a 22
  let majority := (r.a &&& r.b) ^^^ (r.a &&& r.c) ^^^ (r.b &&& r.c)
  { a := first + (blend + majority), b := r.a, c := r.b, d := r.c
    e := r.d + first, f := r.e, g := r.f, h := r.g }

def compress (r : Registers) (block : List UInt32) : Registers :=
  let schedule := (extend block.reverse 48).reverse
  let s := (roundConstants.zip schedule).foldl (fun s (k, w) ↦ round s k w) r
  { a := r.a + s.a, b := r.b + s.b, c := r.c + s.c, d := r.d + s.d
    e := r.e + s.e, f := r.f + s.f, g := r.g + s.g, h := r.h + s.h }

/-- All blocks of sixteen words, in order. -/
def compressAll (r : Registers) (words : List UInt32) : Registers :=
  match words with
  | [] => r
  | w :: rest => compressAll (compress r ((w :: rest).take 16)) (rest.drop 15)
termination_by words.length
decreasing_by
  simp only [List.length_drop, List.length_cons]
  omega

def bytesOf (w : UInt32) : List UInt8 :=
  [(w >>> 24).toUInt8, (w >>> 16).toUInt8, (w >>> 8).toUInt8, w.toUInt8]

def sha256 (message : List UInt8) : List UInt8 :=
  let r := compressAll {} (wordsOf (padded message))
  [r.a, r.b, r.c, r.d, r.e, r.f, r.g, r.h].flatMap bytesOf

def sha256Hex (data : ByteArray) : String :=
  String.ofList (hexChars (sha256 data.toList))

end SheetPackages.Digest
