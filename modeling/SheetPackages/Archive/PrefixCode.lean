import SheetPackages.Archive.Inflate

/-!
# Prefix codes for given counts

The lengths of a prefix code come from merging the two rarest groups of symbols until one group is
left: each merge makes the words of its symbols one bit longer. Only the number of words of each
length is taken from this; where a length is beyond the limit, shorter words make room. The shortest
words then go to the most frequent symbols, and words of one length follow each other in the order
of their symbols.
-/

namespace SheetPackages.Archive.PrefixCode

/-! ## Lengths -/

/-- Some symbols: how often they occur together, and the lengths of their words so far. -/
structure Group where
  weight : Nat
  lengths : List Nat

def Group.join (a b : Group) : Group :=
  ⟨a.weight + b.weight, (a.lengths ++ b.lengths).map (· + 1)⟩

/-- Puts a group behind all groups that are not heavier. -/
def place (g : Group) : List Group → List Group
  | [] => [g]
  | first :: rest =>
    if first.weight ≤ g.weight then first :: place g rest else g :: first :: rest

theorem length_place (g : Group) (groups : List Group) :
    (place g groups).length = groups.length + 1 := by
  induction groups with
  | nil => rfl
  | cons first rest ih => grind [place]

/-- The lengths of all words, from groups in the order of their weights. -/
def merge : List Group → List Nat
  | [] => []
  | [g] => g.lengths
  | a :: b :: rest => merge (place (a.join b) rest)
termination_by groups => groups.length
decreasing_by simp [length_place]

/-- How many words there are of each length from one to `limit`. -/
def countsOf (limit : Nat) (lengths : List Nat) : List Nat :=
  let lengths := lengths.map fun n ↦ min limit (max 1 n)
  (List.range limit).map fun n ↦ lengths.count (n + 1)

/-- Turns the word of the next shorter length in use into two words that are a bit longer; the
longest length comes first. -/
def divide : List Nat → List Nat
  | longer :: 0 :: rest => longer :: divide (0 :: rest)
  | longer :: (n + 1) :: rest => (longer + 2) :: n :: rest
  | counts => counts

/-- Takes a word of the greatest length out of the way, which frees the place of one. -/
def relieve : List Nat → List Nat
  | [] => []
  | longest :: rest => divide ((longest - 1) :: rest)

/-- Relieves as long as the words need more than the space of all words of the greatest length. -/
def fit (limit : Nat) (counts : List Nat) : List Nat :=
  let excess := Inflate.Code.usage counts - 1 <<< limit
  ((List.range excess).foldl (fun counts _ ↦ relieve counts) counts.reverse).reverse

/-- The symbols that occur, the rarest first and equally rare ones in their order. -/
def ascending (counts : List Nat) : List (Nat × Nat) :=
  (counts.zipIdx.filter (·.1 ≠ 0)).mergeSort (·.1 ≤ ·.1)

/-- The length of the word for each symbol, at most `limit`; symbols that do not occur have no word,
which is length zero. -/
def lengths (limit : Nat) (counts : List Nat) : List Nat :=
  let rarest := ascending counts
  let words := fit limit (countsOf limit (merge (rarest.map fun (count, _) ↦ ⟨count, [0]⟩)))
  let shortest := words.zipIdx.flatMap fun (count, n) ↦ List.replicate count (n + 1)
  let given := (rarest.reverse.map Prod.snd).zip shortest
  (List.range counts.length).map fun symbol ↦ (given.lookup symbol).getD 0

/-! ## Words -/

/-- The `width` lowest bits of a number, lowest first. -/
def lowFirst (n width : Nat) : List Bool :=
  (List.range width).map n.testBit

/-- The first word of a length, as a number. -/
def firstWord (lengths : List Nat) : Nat → Nat
  | 0 => 0
  | length + 1 => 2 * (firstWord lengths length + if length = 0 then 0 else lengths.count length)

/-- The word of each symbol; its highest bit comes first. -/
def words (lengths : List Nat) : Array (List Bool) :=
  let word (length symbol : Nat) : List Bool :=
    (lowFirst (firstWord lengths length + (lengths.take symbol).count length) length).reverse
  (lengths.zipIdx.map fun (length, symbol) ↦ word length symbol).toArray

end SheetPackages.Archive.PrefixCode
