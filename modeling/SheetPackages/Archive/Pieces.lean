/-!
# Data in pieces

Deflated data gives each byte as itself or as part of a copy of earlier bytes. Copies are looked for
along chains of positions whose next three bytes are likely to agree, and a copy waits for one step:
if the next position has a longer one, a single byte is given in its place. What is found depends on
how far the chains are followed, so the bounds below are part of the format of every container.
-/

namespace SheetPackages.Archive

/-- `length` bytes that also stand `distance` places before. -/
structure Copy where
  length : Nat
  distance : Nat

inductive Piece
  | byte (b : UInt8)
  | copy (c : Copy)

namespace Piece

/-- The number of bytes that a piece stands for. -/
def size : Piece → Nat
  | byte _ => 1
  | copy c => c.length

/-! ## Chains -/

def maxLength : Nat := 258

/-- How far back a copy may reach. -/
def reach : Nat := 32768

/-- A number that tells groups of three bytes apart, up to some collisions. -/
def groupKey (a b c : UInt8) : Nat :=
  (a.toNat * 1024 ^^^ b.toNat * 32 ^^^ c.toNat) % 32768

/-- For each position the last one before it whose group has the same key. Zero stands for none, so
the first position of all is in no chain. -/
def links (data : ByteArray) : Array Nat :=
  let link : Array Nat × Array Nat → Nat → Array Nat × Array Nat := fun (latest, links) pos ↦
    let key := groupKey (data[pos]?.getD 0) (data[pos + 1]?.getD 0) (data[pos + 2]?.getD 0)
    let earlier := latest[key]?.getD 0
    (latest.setIfInBounds key pos, links.push earlier)
  ((List.range (data.size - 2)).foldl link (Array.replicate 32768 0, #[])).2

/-! ## Looking for a copy -/

/-- A look for a copy for the bytes from `pos` on. -/
structure Search where
  data : ByteArray
  links : Array Nat
  pos : Nat
  /-- The greatest distance. -/
  window : Nat

namespace Search

/-- The greatest length that a copy may have here. -/
def limit (s : Search) : Nat :=
  min maxLength (s.data.size - s.pos)

/-- Where the chain goes on behind the position at a distance. Positions are kept modulo 65536. -/
def earlier? (s : Search) (distance : Nat) : Option Nat :=
  let linked := s.links[s.pos - distance]?.getD 0
  let next := (s.pos - linked) % 65536
  if linked % 65536 = 0 ∨ next = 0 ∨ s.window < next then none else some next

/-- Whether a byte agrees with the one a distance before it. -/
def agrees (s : Search) (distance offset : Nat) : Bool :=
  s.data[s.pos + offset]? == s.data[s.pos + offset - distance]?

/-- How many bytes from an offset on agree, at most `count`. -/
def common (s : Search) (distance offset : Nat) : Nat → Nat
  | 0 => 0
  | count + 1 => if s.agrees distance offset then s.common distance (offset + 1) count + 1 else 0

/-- The longest copy along the chain that is longer than `length`, the nearest one of several, or
else `best`. Steps come in rounds of three. A position counts only if it agrees where a longer copy
has to; such a position ends its round. -/
def along (s : Search) (best : Option Copy) (length distance : Nat) (steps : Nat) : Option Copy :=
  match steps with
  | 0 => best
  | steps + 1 =>
    match s.earlier? distance with
    | none => best
    | some distance =>
      if !s.agrees distance (length - 1) || !s.agrees distance length then
        s.along best length distance steps
      else
        let found := s.common distance 0 s.limit
        if found ≤ length then s.along best length distance (steps / 3 * 3)
        else if found = s.limit then some ⟨found, distance⟩
        else s.along (some ⟨found, distance⟩) found distance (steps / 3 * 3)
termination_by steps

/-- Short copies from far away are not worth it. -/
def isWorth (s : Search) (c : Copy) : Bool :=
  !(c.length = 3 && 8192 ≤ c.distance || s.pos % reach = c.distance)

/-- A copy longer than `length`; where that is long already, fewer rounds are spent. -/
def longer? (s : Search) (length : Nat) : Option Copy :=
  if s.limit ≤ length then none
  else (s.along none length 0 (3 * if length < 32 then 43 else 11)).filter s.isWorth

end Search

/-! ## Cutting data -/

/-- A copy that waits for the next position, and the byte to give if that has a longer one. -/
structure Waiting where
  byte : UInt8
  copy : Copy

/-- What one step gives, what it leaves waiting, and how far it goes on. -/
structure Move where
  pieces : List Piece
  waiting : Option Waiting
  advance : Nat

/-- The least length of a copy that does not wait. -/
def longEnough : Nat := 128

/-- The move at the byte `b`: a copy found there is longer than the one that waits. -/
def Move.choose (b : UInt8) (found : Option Copy) (waiting : Option Waiting) : Move :=
  let given := waiting.toList.map fun w ↦ byte w.byte
  match found, waiting with
  | some c, _ =>
    if longEnough ≤ c.length then ⟨given ++ [copy c], none, c.length⟩
    else ⟨given, some ⟨b, c⟩, 1⟩
  | none, some w => ⟨[copy w.copy], none, w.copy.length - 1⟩
  | none, none => ⟨[byte b], none, 1⟩

/-- The pieces of one step, the position behind it, and the greatest distance open there. -/
structure Step where
  pieces : List Piece
  stop : Nat
  window : Nat

/-- The steps from a position on. -/
def stepsFrom (data : ByteArray) (links : Array Nat) (pos window : Nat)
    (waiting : Option Waiting) : List Step :=
  if _h : pos < data.size then
    let search : Search :=
      ⟨data, links, pos, min (reach - min maxLength (data.size - pos)) window⟩
    let least := (waiting.map fun w ↦ w.copy.length).getD 2
    let move := Move.choose data[pos] (search.longer? least) waiting
    let next := pos + max 1 move.advance
    let window := min (search.window + (next - pos)) reach
    ⟨move.pieces, next, window⟩ :: stepsFrom data links next window move.waiting
  else []
termination_by data.size - pos

def steps (data : ByteArray) : List Step :=
  stepsFrom data (links data) 0 0 none

end Piece

end SheetPackages.Archive
