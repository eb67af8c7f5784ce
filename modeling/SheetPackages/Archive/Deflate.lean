import SheetPackages.Archive.Pieces
import SheetPackages.Archive.PrefixCode

/-!
# Deflating

The pieces of the data go into blocks. A short block uses the fixed prefix codes, any other block
codes of its own, which it describes in front of its symbols; a block that gains nothing holds its
bytes as they are.
-/

namespace SheetPackages.Archive.Deflate

open PrefixCode (lowFirst)

/-! ## Blocks -/

/-- The pieces of a block, what they cover, and whether that is still within the greatest distance
where the block ends. -/
structure Block where
  pieces : List Piece
  start : Nat
  covered : Nat
  isNear : Bool

/-- A block to which pieces are still added. -/
structure Draft where
  pieces : Array Piece
  start : Nat
  covered : Nat
  /-- What the pieces need in a buffer of bytes, flags aside. -/
  payload : Nat

namespace Draft

def empty (start : Nat) : Draft :=
  ⟨#[], start, 0, 0⟩

def add (d : Draft) (p : Piece) : Draft :=
  let needed := match p with
    | .byte _ => 1
    | .copy _ => 3
  { d with pieces := d.pieces.push p, covered := d.covered + p.size, payload := d.payload + needed }

/-- The bytes in use in a buffer that has one byte of flags for every eight pieces. -/
def used (d : Draft) : Nat :=
  1 + d.payload + d.pieces.size / 8

/-- A block ends when its buffer is full, or when it covers much and the pieces gain little. -/
def isFull (d : Draft) : Bool :=
  65536 - 8 < d.used || 31 * 1024 < d.covered && d.covered ≤ d.used * 115 / 128

def finish (d : Draft) (stop window : Nat) : Block :=
  ⟨d.pieces.toList, d.start, d.covered, stop - d.start ≤ window⟩

end Draft

/-- The blocks of some steps behind the last full block; there is always a last block, and it may
be empty. -/
def blocksFrom (draft : Draft) (stop window : Nat) : List Piece.Step → List Block
  | [] => [draft.finish stop window]
  | step :: rest =>
    let draft := step.pieces.foldl Draft.add draft
    if draft.isFull then
      draft.finish step.stop step.window ::
        blocksFrom (.empty (draft.start + draft.covered)) step.stop step.window rest
    else blocksFrom draft step.stop step.window rest

/-! ## Symbols -/

/-- A symbol and the bits behind its word. -/
structure Sign where
  symbol : Nat
  extra : List Bool

/-- The last entry of a table that does not exceed a number, and what is missing. -/
def Sign.ofTable (table : List (Nat × Nat)) (n : Nat) : Sign :=
  match (table.zipIdx.filter fun ((least, _), _) ↦ least ≤ n).getLast? with
  | some ((least, width), symbol) => ⟨symbol, lowFirst (n - least) width⟩
  | none => ⟨0, []⟩

def Sign.bits (words : Array (List Bool)) (s : Sign) : List Bool :=
  words[s.symbol]?.getD [] ++ s.extra

/-- What stands for a piece among bytes and lengths. -/
def literal : Piece → Sign
  | .byte b => ⟨b.toNat, []⟩
  | .copy c =>
    let sign := Sign.ofTable Inflate.lengthTable c.length
    { sign with symbol := 257 + sign.symbol }

/-- What stands for the distance of a piece. -/
def distance? : Piece → Option Sign
  | .byte _ => none
  | .copy c => some (Sign.ofTable Inflate.distanceTable c.distance)

/-- The symbol that ends a block. -/
def endSymbol : Nat := 256

def counts (size : Nat) (symbols : List Nat) : List Nat :=
  (symbols.foldl (fun (counts : Array Nat) s ↦ counts.modify s (· + 1))
    (Array.replicate size 0)).toList

/-- The pieces in given codes, and the end of the block. -/
def bodyBits (literals distances : Array (List Bool)) (pieces : List Piece) : List Bool :=
  (pieces.flatMap fun p ↦
      (literal p).bits literals ++ ((distance? p).map (Sign.bits distances)).getD []) ++
    literals[endSymbol]?.getD []

/-! ## Describing codes -/

/-- Drops zeros at the end, but keeps the first `least` numbers. -/
def trim (least : Nat) (lengths : List Nat) : List Nat :=
  lengths.take least ++ ((lengths.drop least).reverse.dropWhile (· = 0)).reverse

/-- Some zeros in a row. -/
def zeroSigns (n : Nat) : List Sign :=
  let rest := n % 138
  List.replicate (n / 138) ⟨18, lowFirst 127 7⟩ ++
    if rest < 3 then List.replicate rest ⟨0, []⟩
    else if rest ≤ 10 then [⟨17, lowFirst (rest - 3) 3⟩]
    else [⟨18, lowFirst (rest - 11) 7⟩]

/-- A length once more, `n` times in a row. -/
def repeatSigns (length n : Nat) : List Sign :=
  let rest := n % 6
  List.replicate (n / 6) ⟨16, lowFirst 3 2⟩ ++
    if rest < 3 then List.replicate rest ⟨length, []⟩ else [⟨16, lowFirst (rest - 3) 2⟩]

/-- What stands for lengths, runs of equal ones being taken together. -/
def lengthSigns (lengths : List Nat) : List Sign :=
  (lengths.splitBy (· == ·)).flatMap fun
    | [] => []
    | length :: more =>
      if length = 0 then zeroSigns (more.length + 1)
      else ⟨length, []⟩ :: repeatSigns length more.length

/-- The lengths of two codes, written in a third one whose lengths stand in front. -/
def codeBits (literals distances : List Nat) : List Bool :=
  let literals := trim 257 literals
  let distances := trim 1 distances
  let signs := lengthSigns (literals ++ distances)
  let lengths := PrefixCode.lengths 7 (counts 19 (signs.map Sign.symbol))
  let words := PrefixCode.words lengths
  let given := trim 4 (Inflate.lengthOrder.map fun symbol ↦ lengths[symbol]?.getD 0)
  lowFirst (literals.length - 257) 5 ++ lowFirst (distances.length - 1) 5 ++
    lowFirst (given.length - 4) 4 ++ given.flatMap (lowFirst · 3) ++ signs.flatMap (Sign.bits words)

/-! ## Writing -/

/-- The pieces in codes made for them. -/
def describedBits (pieces : List Piece) : List Bool :=
  let literals := PrefixCode.lengths Inflate.Code.maxLength
    (counts 286 (endSymbol :: pieces.map fun p ↦ (literal p).symbol))
  let distances := PrefixCode.lengths Inflate.Code.maxLength
    (counts 30 (pieces.filterMap fun p ↦ (distance? p).map Sign.symbol))
  codeBits literals distances ++
    bodyBits (PrefixCode.words literals) (PrefixCode.words distances) pieces

/-- The pieces in the fixed codes. -/
def fixedBits (pieces : List Piece) : List Bool :=
  bodyBits (PrefixCode.words Inflate.fixedLiteralLengths)
    (PrefixCode.words Inflate.fixedDistanceLengths) pieces

/-- Zeros up to the end of the byte that `pos` is in. -/
def padding (pos : Nat) : List Bool :=
  List.replicate ((8 - pos % 8) % 8) false

/-- Bytes as they are, their number first. -/
def plainBits (pos : Nat) (bytes : List UInt8) : List Bool :=
  padding pos ++ lowFirst bytes.length 16 ++ lowFirst (0xFFFF - bytes.length) 16 ++
    bytes.flatMap fun b ↦ lowFirst b.toNat 8

/-- A block at a position among the bits. Bytes as they are need one byte more than they have; only
a block of some size whose bytes are all within reach is written in that way. -/
def blockBits (data : ByteArray) (pos : Nat) (isLast : Bool) (b : Block) : List Bool :=
  let coded := if b.covered < 48 then lowFirst 1 2 ++ fixedBits b.pieces
    else lowFirst 2 2 ++ describedBits b.pieces
  let gainsNothing := b.covered ≤ (pos + 1 + coded.length) / 8 - (pos + 1) / 8 + 1
  isLast ::
    if 32 < b.covered && gainsNothing && b.isNear then
      lowFirst 0 2 ++ plainBits (pos + 3) (data.extract b.start (b.start + b.covered)).toList
    else coded

def blocksBits (data : ByteArray) (pos : Nat) : List Block → List Bool
  | [] => []
  | b :: rest =>
    let bits := blockBits data pos rest.isEmpty b
    bits ++ blocksBits data (pos + bits.length) rest

/-- The number in some bits, lowest first. -/
def number (bits : List Bool) : Nat :=
  bits.foldr (fun b n ↦ b.toNat + 2 * n) 0

/-- Bits as bytes, each filled from its low end. -/
def toBytes (bytes : ByteArray) : List Bool → ByteArray
  | [] => bytes
  | b :: rest => toBytes (bytes.push (UInt8.ofNat (number (b :: rest.take 7)))) (rest.drop 7)
termination_by bits => bits.length

/-- The data in deflated form. -/
def deflate (data : ByteArray) : ByteArray :=
  toBytes .empty (blocksBits data 0 (blocksFrom (.empty 0) 0 0 (Piece.steps data)))

end SheetPackages.Archive.Deflate
