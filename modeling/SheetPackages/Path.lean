import SheetPackages.Fault

/-!
# Paths

Paths are texts with `/` between their components. Repeated separators and `.` vanish, but a `.` at
the beginning of a relative path is a component. A path is safe when it is relative and never climbs
above its start; only safe paths are joined to the directory of a registry.
-/

namespace SheetPackages.Path

inductive Component where
  | root
  | current
  | parent
  | normal (name : String)
deriving DecidableEq

def isAbsolute (path : String) : Bool :=
  path.toList.head? = some '/'

/-- A piece between separators that is no component. -/
def isTrivial (piece : List Char) : Bool :=
  piece = [] || piece = ['.']

def Component.ofPiece (piece : List Char) : Component :=
  if piece = ['.', '.'] then .parent else .normal (String.ofList piece)

/-- The component in front: the root of an absolute path, or a `.` that begins a relative one. -/
def leading : List (List Char) → List Component
  | [] :: _ :: _ => [.root]
  | ['.'] :: _ => [.current]
  | _ => []

def components (path : String) : List Component :=
  let pieces := Text.pieces '/' path.toList
  leading pieces ++ (pieces.filter fun piece ↦ !isTrivial piece).map Component.ofPiece

/-- `base` with `path` behind it; an absolute path stands for itself. -/
def join (base path : String) : String :=
  if isAbsolute path then path
  else if base.isEmpty ∨ base.toList.getLast? = some '/' then base ++ path
  else base ++ "/" ++ path

def Component.text : Component → String
  | .root => "/"
  | .current => "."
  | .parent => ".."
  | .normal name => name

/-- The path with the given components. -/
def ofComponents (components : List Component) : String :=
  components.foldl (fun path c ↦ join path c.text) ""

/-- Adds a component behind others, last one first: `.` vanishes, `..` takes back the component
before it or stays when there is none. -/
def normalStep (before : List Component) : Component → List Component
  | .current => before
  | .parent =>
    match before with
    | [] => [.parent]
    | _ :: rest => rest
  | c => c :: before

/-- The path with `.` and `..` resolved as far as its text allows. -/
def normalize (path : String) : String :=
  ofComponents ((components path).foldl normalStep []).reverse

/-- Whether components, taken from `depth` levels below the start, stay below it. -/
def staysBelow (depth : Nat) : List Component → Bool
  | [] => true
  | .current :: rest => staysBelow depth rest
  | .parent :: rest =>
    match depth with
    | 0 => false
    | depth + 1 => staysBelow depth rest
  | .normal _ :: rest => staysBelow (depth + 1) rest
  | .root :: _ => false

/-- Relative, and never above its start. -/
def isSafe (path : String) : Bool :=
  staysBelow 0 (components path)

/-- Joins a safe path to `base` and refuses any other. -/
def safeJoin (base path : String) : Except Fault String :=
  if isSafe path then pure (join base (normalize path)) else throw (.unsafePath path)

/-- The pieces behind the root, last one first, without trivial ones at the end. -/
def trailing (isFirst : Bool) : List (List Char) → List (List Char)
  | [] => []
  | [piece] => if piece = [] ∨ (piece = ['.'] ∧ ¬isFirst) then [] else [piece]
  | piece :: rest => if isTrivial piece then trailing isFirst rest else piece :: rest

/-- The pieces of a path behind its root, last one first. -/
def body (path : String) : List (List Char) :=
  let pieces := Text.pieces '/' path.toList
  trailing (!isAbsolute path) (if isAbsolute path then pieces.drop 1 else pieces).reverse

/-- The path without its last component; nothing for the root and the empty path. -/
def parent? (path : String) : Option String :=
  match body path with
  | [] => none
  | _ :: rest =>
    let kept := Text.joined '/' (trailing (!isAbsolute path) rest).reverse
    some (String.ofList (if isAbsolute path then '/' :: kept else kept))

/-- The last component if it is a name. -/
def fileName? (path : String) : Option String :=
  match (components path).getLast? with
  | some (.normal name) => some name
  | _ => none

/-- What follows the last point of a file name that does not begin with it. -/
def extension? (fileName : String) : Option String :=
  let (behind, before) := fileName.toList.reverse.span (· ≠ '.')
  match before with
  | [] | [_] => none
  | _ => some (String.ofList behind.reverse)

/-- Whether the components of `ending` are the last ones of `path`. -/
def endsWith (path ending : String) : Bool :=
  (components ending).isSuffixOf (components path)

end SheetPackages.Path
