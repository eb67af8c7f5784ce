/-!
# Inflating

Deflated data is a sequence of blocks, read bit by bit from the low end of each byte. A block holds
bytes as they are, or symbols in prefix codes: a symbol is a byte, the end of the block, or the
length of a copy from earlier output, behind which a distance follows. Every symbol uses up at least
one bit, so reading ends.
-/

namespace SheetPackages.Archive.Inflate

/-- The bit at a position. -/
def bit? (data : ByteArray) (pos : Nat) : Option Nat :=
  data[pos / 8]?.map fun b ↦ (b.toNat.testBit (pos % 8)).toNat

/-- The number in the next `count` bits, lowest bit first, and the position behind them. -/
def bits? (data : ByteArray) (pos : Nat) : Nat → Option (Nat × Nat)
  | 0 => some (0, pos)
  | count + 1 => do
    let low ← bit? data pos
    let (high, pos) ← bits? data (pos + 1) count
    return (low + 2 * high, pos)

/-! ## Prefix codes -/

/-- A canonical prefix code: how many codes there are of each length from one up, and the symbols in
the order of their codes. -/
structure Code where
  counts : List Nat
  symbols : Array Nat

namespace Code

def maxLength : Nat := 15

/-- The code in which every symbol has a given length; symbols of length zero have no code. -/
def ofLengths (lengths : List Nat) : Code :=
  let numbered := lengths.zipIdx
  let ofLength (n : Nat) := (numbered.filter (·.1 = n)).map Prod.snd
  let all := (List.range maxLength).map fun n ↦ ofLength (n + 1)
  ⟨all.map List.length, all.flatten.toArray⟩

/-- The part of the code space that lengths use, in units of the longest code. -/
def usage (counts : List Nat) : Nat :=
  counts.foldl (fun used n ↦ 2 * used + n) 0

/-- Whether the code uses its space up; a single symbol may leave space. -/
def isComplete (c : Code) : Bool :=
  c.symbols.size ≤ 1 || usage c.counts = 1 <<< maxLength

/-- Reads the next symbol: `code` bits have been read, the codes of the present length begin at
`first`, and their symbols at `index`. -/
def readFrom (data : ByteArray) (symbols : Array Nat) (pos code first index : Nat) :
    List Nat → Option (Nat × Nat)
  | [] => none
  | count :: longer => do
    let code := code + (← bit? data pos)
    if code < first + count then
      let symbol ← symbols[index + (code - first)]?
      return (symbol, pos + 1)
    else readFrom data symbols (pos + 1) (2 * code) (2 * (first + count)) (index + count) longer

def read (c : Code) (data : ByteArray) (pos : Nat) : Option (Nat × Nat) :=
  readFrom data c.symbols pos 0 0 0 c.counts

end Code

/-! ## Blocks of symbols -/

/-- The shortest copy of each length symbol and the number of bits that add to it. -/
def lengthTable : List (Nat × Nat) :=
  [(3, 0), (4, 0), (5, 0), (6, 0), (7, 0), (8, 0), (9, 0), (10, 0), (11, 1), (13, 1), (15, 1),
   (17, 1), (19, 2), (23, 2), (27, 2), (31, 2), (35, 3), (43, 3), (51, 3), (59, 3), (67, 4),
   (83, 4), (99, 4), (115, 4), (131, 5), (163, 5), (195, 5), (227, 5), (258, 0)]

/-- The least distance of each distance symbol and the number of bits that add to it. -/
def distanceTable : List (Nat × Nat) :=
  [(1, 0), (2, 0), (3, 0), (4, 0), (5, 1), (7, 1), (9, 2), (13, 2), (17, 3), (25, 3), (33, 4),
   (49, 4), (65, 5), (97, 5), (129, 6), (193, 6), (257, 7), (385, 7), (513, 8), (769, 8),
   (1025, 9), (1537, 9), (2049, 10), (3073, 10), (4097, 11), (6145, 11), (8193, 12), (12289, 12),
   (16385, 13), (24577, 13)]

/-- A number given by a table entry and the bits behind the symbol. -/
def extended (data : ByteArray) (pos : Nat) (entry : Nat × Nat) : Option (Nat × Nat) := do
  let (more, pos) ← bits? data pos entry.2
  return (entry.1 + more, pos)

/-- Appends `length` bytes, each one a copy of the byte `distance` places before it. -/
def copy (out : ByteArray) (distance : Nat) : Nat → Option ByteArray
  | 0 => some out
  | length + 1 =>
    if distance ≤ out.size then do
      let b ← out[out.size - distance]?
      copy (out.push b) distance length
    else none

/-- The copy that a length symbol and the distance behind it ask for. -/
def readCopy (data : ByteArray) (distances : Code) (symbol pos : Nat) (out : ByteArray) :
    Option (ByteArray × Nat) := do
  let (length, pos) ← extended data pos (← lengthTable[symbol - 257]?)
  let (symbol, pos) ← distances.read data pos
  let (distance, pos) ← extended data pos (← distanceTable[symbol]?)
  return (← copy out distance length, pos)

/-- Takes one symbol; the flag tells whether it ends the block. -/
def readSymbol (data : ByteArray) (literals distances : Code) (pos : Nat) (out : ByteArray) :
    Option (Bool × ByteArray × Nat) := do
  let (symbol, pos) ← literals.read data pos
  if symbol < 256 then return (false, out.push (UInt8.ofNat symbol), pos)
  else if symbol = 256 then return (true, out, pos)
  else return (false, ← readCopy data distances symbol pos out)

/-- Takes symbols up to the end of their block. -/
def readSymbols (data : ByteArray) (literals distances : Code) (pos : Nat) (out : ByteArray) :
    Option (ByteArray × Nat) :=
  match readSymbol data literals distances pos out with
  | none => none
  | some (true, out, next) => some (out, next)
  | some (false, out, next) =>
    if _h : pos < next ∧ next ≤ 8 * data.size then readSymbols data literals distances next out
    else none
termination_by 8 * data.size - pos

/-! ## Codes of a block -/

/-- The order in which the lengths of the code for lengths are given. -/
def lengthOrder : List Nat :=
  [16, 17, 18, 0, 8, 7, 9, 6, 10, 5, 11, 4, 12, 3, 13, 2, 14, 1, 15]

/-- Numbers of three bits each. -/
def shortNumbers (data : ByteArray) (pos : Nat) : Nat → Option (List Nat × Nat)
  | 0 => some ([], pos)
  | count + 1 => do
    let (n, pos) ← bits? data pos 3
    let (more, pos) ← shortNumbers data pos count
    return (n :: more, pos)

/-- What a length symbol stands for behind the lengths so far, last one first: one length, or
several equal ones. -/
def expand (data : ByteArray) (pos : Nat) (sofar : List Nat) (symbol : Nat) :
    Option (List Nat × Nat) :=
  if symbol < 16 then some ([symbol], pos)
  else if symbol = 16 then do
    let last ← sofar.head?
    let (n, pos) ← bits? data pos 2
    return (List.replicate (n + 3) last, pos)
  else if symbol = 17 then do
    let (n, pos) ← bits? data pos 3
    return (List.replicate (n + 3) 0, pos)
  else do
    let (n, pos) ← bits? data pos 7
    return (List.replicate (n + 11) 0, pos)

/-- Exactly `total` lengths, given by symbols of a code. -/
def readLengths (data : ByteArray) (code : Code) (total : Nat) (pos : Nat) (sofar : List Nat) :
    Option (List Nat × Nat) :=
  if sofar.length = total then some (sofar.reverse, pos)
  else if sofar.length < total then
    match code.read data pos with
    | none => none
    | some (symbol, next) =>
      match expand data next sofar symbol with
      | none => none
      | some (more, next) =>
        if _h : pos < next ∧ next ≤ 8 * data.size then
          readLengths data code total next (more ++ sofar)
        else none
  else none
termination_by 8 * data.size - pos

/-- The codes that a block describes before its symbols. -/
def readCodes (data : ByteArray) (pos : Nat) : Option (Code × Code × Nat) := do
  let (literalCount, pos) ← bits? data pos 5
  let (distanceCount, pos) ← bits? data pos 5
  let (lengthCount, pos) ← bits? data pos 4
  let literals := literalCount + 257
  let distances := distanceCount + 1
  if 286 < literals ∨ 30 < distances then none
  let (given, pos) ← shortNumbers data pos (lengthCount + 4)
  let named := lengthOrder.zip given
  let code := Code.ofLengths ((List.range 19).map fun symbol ↦ (named.lookup symbol).getD 0)
  if !code.isComplete then none
  let (lengths, pos) ← readLengths data code (literals + distances) pos []
  let literalCode := Code.ofLengths (lengths.take literals)
  let distanceCode := Code.ofLengths (lengths.drop literals)
  if !literalCode.isComplete ∨ !distanceCode.isComplete then none
  return (literalCode, distanceCode, pos)

/-- The lengths of the words for symbols in blocks that describe no code. -/
def fixedLiteralLengths : List Nat :=
  List.replicate 144 8 ++ List.replicate 112 9 ++ List.replicate 24 7 ++ List.replicate 8 8

def fixedDistanceLengths : List Nat :=
  List.replicate 32 5

/-- A block of bytes as they are: their number, its complement, and the bytes. -/
def readPlain (data : ByteArray) (pos : Nat) (out : ByteArray) : Option (ByteArray × Nat) := do
  let start := (pos + 7) / 8 * 8
  let (length, pos) ← bits? data start 16
  let (check, pos) ← bits? data pos 16
  if length + check ≠ 0xFFFF then none
  let at_ := pos / 8
  if data.size < at_ + length then none
  return (out ++ data.extract at_ (at_ + length), pos + 8 * length)

/-- One block behind its kind. -/
def readBlock (data : ByteArray) (kind pos : Nat) (out : ByteArray) : Option (ByteArray × Nat) :=
  if kind = 0 then readPlain data pos out
  else if kind = 1 then
    readSymbols data (.ofLengths fixedLiteralLengths) (.ofLengths fixedDistanceLengths) pos out
  else if kind = 2 then do
    let (literals, distances, pos) ← readCodes data pos
    readSymbols data literals distances pos out
  else none

/-- Blocks up to the one that is marked as the last. -/
def readBlocks (data : ByteArray) (pos : Nat) (out : ByteArray) : Option ByteArray :=
  match bits? data pos 3 with
  | none => none
  | some (header, behind) =>
    match readBlock data (header / 2) behind out with
    | none => none
    | some (out, next) =>
      if header % 2 = 1 then some out
      else if _h : pos < next ∧ next ≤ 8 * data.size then readBlocks data next out
      else none
termination_by 8 * data.size - pos

/-- What the data was before it was deflated; whatever follows the last block is not looked at. -/
def inflate? (data : ByteArray) : Option ByteArray :=
  readBlocks data 0 .empty

end SheetPackages.Archive.Inflate
