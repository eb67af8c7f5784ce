import SheetPackages.Formula.Token

/-!
# Formula trees

The only structure of a formula text is the call: an identifier, blanks, and an opening parenthesis
behind it. Everything else is a leaf. The slices of a call keep the separator behind them as their
last leaf, so the leaves of a tree, from left to right, are the tokens it was read from.
-/

namespace SheetPackages.Formula

inductive Node where
  | leaf (token : Token)
  /-- A call; every slice but the last ends with its separator, and the closing parenthesis is
  missing when the text ends before it. -/
  | call (name : Token) (space : List Token) (opening : Token) (slices : List (List Node))
      (closing : Option Token)

namespace Node

mutual

/-- The tokens of a node with `behind` following them. -/
def tokensThen : Node → List Token → List Token
  | .leaf t, behind => t :: behind
  | .call name space opening slices closing, behind =>
    name :: (space ++ opening :: slicesThen slices (closing.toList ++ behind))

def nodesThen : List Node → List Token → List Token
  | [], behind => behind
  | node :: rest, behind => tokensThen node (nodesThen rest behind)

def slicesThen : List (List Node) → List Token → List Token
  | [], behind => behind
  | slice :: rest, behind => nodesThen slice (slicesThen rest behind)

end

def tokens (node : Node) : List Token :=
  node.tokensThen []

def text (node : Node) : String :=
  textOf node.tokens

def isLeaf : Node → Bool
  | .leaf _ => true
  | .call .. => false

mutual

/-- The calls in a node, an outer one before those inside it. -/
def calls : Node → List Node
  | .leaf _ => []
  | .call name space opening slices closing =>
    .call name space opening slices closing :: callsInSlices slices

def callsIn : List Node → List Node
  | [] => []
  | node :: rest => calls node ++ callsIn rest

def callsInSlices : List (List Node) → List Node
  | [] => []
  | slice :: rest => callsIn slice ++ callsInSlices rest

end

end Node

/-- The tokens of a sequence of nodes. -/
def tokensOf (nodes : List Node) : List Token :=
  Node.nodesThen nodes []

/-- The text that a sequence of nodes was read from. -/
def serialize (nodes : List Node) : String :=
  textOf (tokensOf nodes)

/-! ## Reading -/

/-- A call that is not closed yet. Slices and nodes are kept last one first; `owed` are the closing
brackets of the brackets opened in the current slice, innermost first. -/
structure OpenCall where
  name : Token
  space : List Token
  opening : Token
  slices : List (List Node) := []
  current : List Node := []
  owed : List TokenKind := []

namespace OpenCall

def add (c : OpenCall) (node : Node) : OpenCall :=
  { c with current := node :: c.current }

/-- The separator behind the current slice ends it. -/
def endSlice (c : OpenCall) (separator : Token) : OpenCall :=
  { c with slices := (Node.leaf separator :: c.current).reverse :: c.slices, current := [] }

/-- The bracket and everything left open inside it are closed. -/
def settle (c : OpenCall) (kind : TokenKind) : OpenCall :=
  if kind ∈ c.owed then { c with owed := (c.owed.dropWhile (· ≠ kind)).drop 1 } else c

def node (c : OpenCall) (closing : Option Token) : Node :=
  let slices := if c.current.isEmpty then c.slices else c.current.reverse :: c.slices
  .call c.name c.space c.opening slices.reverse closing

end OpenCall

/-- The open calls, innermost first, and the finished nodes outside all calls, last one first. -/
structure Reader where
  calls : List OpenCall := []
  nodes : List Node := []

namespace Reader

/-- Adds a finished node to the innermost open call. -/
def add (r : Reader) (node : Node) : Reader :=
  match r.calls with
  | [] => { r with nodes := node :: r.nodes }
  | c :: outer => { r with calls := c.add node :: outer }

/-- All calls end with the text. -/
def finish (nodes : List Node) : List OpenCall → List Node
  | [] => nodes.reverse
  | [c] => (c.node none :: nodes).reverse
  | c :: outer :: rest => finish nodes (outer.add (c.node none) :: rest)
termination_by calls => calls.length

/-- The bracket that closes what a token opens. -/
def owedBy? : TokenKind → Option TokenKind
  | .openParen => some .closeParen
  | .openBracket => some .closeBracket
  | .openBrace => some .closeBrace
  | _ => none

def isCloser (kind : TokenKind) : Bool :=
  kind == .closeParen || kind == .closeBracket || kind == .closeBrace

/-- Takes a token that has a meaning of its own inside a call: the parenthesis that ends the call,
a separator outside brackets, or a bracket. -/
def punctuation? (r : Reader) (t : Token) : Option Reader :=
  match r.calls with
  | [] => none
  | c :: outer =>
    if t.kind = .closeParen ∧ .closeParen ∉ c.owed then
      some ({ r with calls := outer }.add (c.node (some t)))
    else if t.isSeparator ∧ c.owed = [] then some { r with calls := c.endSlice t :: outer }
    else
      match owedBy? t.kind with
      | some kind =>
        let c := c.add (.leaf t)
        some { r with calls := { c with owed := kind :: c.owed } :: outer }
      | none =>
        if isCloser t.kind then some { r with calls := (c.settle t.kind).add (.leaf t) :: outer }
        else none

def isBlankToken (t : Token) : Bool :=
  t.kind == .blank

/-- The blanks and the opening parenthesis behind an identifier, with the tokens after them. -/
def callOpening? (rest : List Token) : Option (List Token × Token × List Token) :=
  match rest.dropWhile isBlankToken with
  | t :: after =>
    if t.kind = .openParen then some (rest.takeWhile isBlankToken, t, after) else none
  | [] => none

theorem callOpening?_length {rest space after : List Token} {opening : Token}
    (h : callOpening? rest = some (space, opening, after)) : after.length < rest.length := by
  have hle : (rest.dropWhile isBlankToken).length ≤ rest.length := Text.length_dropWhile_le _ _
  unfold callOpening? at h
  split at h
  · next t more heq =>
    rw [heq] at hle
    split at h
    · simp only [Option.some.injEq, Prod.mk.injEq] at h
      obtain ⟨_, _, rfl⟩ := h
      simp only [List.length_cons] at hle
      omega
    · cases h
  · cases h

/-- The nodes read once the remaining tokens are taken. -/
def run (r : Reader) (tokens : List Token) : List Node :=
  match tokens with
  | [] => finish r.nodes r.calls
  | t :: rest =>
    match r.punctuation? t with
    | some next => run next rest
    | none =>
      if t.kind = .identifier then
        match _h : callOpening? rest with
        | some (space, opening, after) =>
          run { r with calls := ⟨t, space, opening, [], [], []⟩ :: r.calls } after
        | none => run (r.add (.leaf t)) rest
      else run (r.add (.leaf t)) rest
termination_by tokens.length
decreasing_by
  · simp
  · have := callOpening?_length _h
    simp only [List.length_cons]
    omega
  · simp
  · simp

end Reader

/-- The nodes of a sequence of tokens. -/
def ofTokens (tokens : List Token) : List Node :=
  Reader.run {} tokens

/-- The nodes of a formula text. -/
def parse (s : String) : List Node :=
  ofTokens (tokenize s)

end SheetPackages.Formula
