import SheetPackages.Text.Cut

/-!
# Forms of arguments

The arguments of a command are options and words. An option has a long name, as in `--name value` or
`--name=value`, and perhaps a letter, as in `-n value`, `-nvalue` or `-n=value`; flags take no
value, and their letters can be joined. A value that stands by itself does not begin with `-`,
unless it is just that. After `--` there are only words. Where a command has commands of its own,
the first word is one of them, and the rest is for it to read.
-/

namespace SheetPackages.Command

/-- What is wrong with some arguments. -/
inductive Misuse where
  | missingCommand
  | unknownCommand (name : String)
  | missingWord
  | unexpected (argument : String)
  | missingValue (option : String)
  | invalidValue (value : String)
  | repeated (option : String)
deriving DecidableEq

def Misuse.message : Misuse → String
  | missingCommand => "a command is required"
  | unknownCommand name => s!"unrecognized command '{name}'"
  | missingWord => "a required argument was not provided"
  | unexpected argument => s!"unexpected argument '{argument}' found"
  | missingValue option => s!"a value is required for '--{option}'"
  | invalidValue value => s!"invalid value '{value}'"
  | repeated option => s!"the argument '--{option}' cannot be used multiple times"

/-- What ends the reading of arguments early. -/
inductive Halt where
  | misuse (m : Misuse)
  /-- The version of the program is asked for. -/
  | version
  | help
deriving DecidableEq

inductive Arity where
  /-- Given once at most, without a value. -/
  | flag
  /-- Given once at most. -/
  | single
  | repeated
deriving DecidableEq

structure Switch where
  name : String
  letter : Option Char := none
  arity : Arity := .single
  accepts : String → Bool := fun _ ↦ true
  /-- What happens as soon as the option is met, if it is not just kept. -/
  halt : Option Halt := none

structure Form where
  switches : List Switch := []
  /-- The commands that may follow. -/
  commands : List String := []
  least : Nat := 0
  /-- How many words there may be; nothing means any number. -/
  most : Option Nat := some 0
  acceptsWord : String → Bool := fun _ ↦ true

/-- The options and words that have been read. -/
structure Given where
  /-- Options with their values, in order; the value of a flag is empty. -/
  options : List (String × String) := []
  words : List String := []
deriving DecidableEq

namespace Given

def values (g : Given) (option : String) : List String :=
  (g.options.filter (·.1 == option)).map Prod.snd

def value? (g : Given) (option : String) : Option String :=
  g.options.lookup option

def has (g : Given) (option : String) : Bool :=
  (g.value? option).isSome

end Given

namespace Form

def addOption (g : Given) (s : Switch) (value : String) : Except Halt Given :=
  match s.halt with
  | some halt => throw halt
  | none =>
    if s.arity ≠ .repeated ∧ g.has s.name then throw (.misuse (.repeated s.name))
    else if !s.accepts value then throw (.misuse (.invalidValue value))
    else pure { g with options := g.options ++ [(s.name, value)] }

def addWord (f : Form) (g : Given) (word : String) : Except Halt Given :=
  if f.most.any (· ≤ g.words.length) then throw (.misuse (.unexpected word))
  else if !f.acceptsWord word then throw (.misuse (.invalidValue word))
  else pure { g with words := g.words ++ [word] }

/-- How an argument is taken. -/
inductive Shape where
  | escape
  | long (name : String) (value : Option String)
  | letters (cs : List Char)
  | word
deriving DecidableEq

def shapeOf (argument : String) : Shape :=
  match argument.toList with
  | ['-', '-'] => .escape
  | '-' :: '-' :: rest =>
    match Text.cut? '=' rest with
    | some (name, value) => .long (String.ofList name) (some (String.ofList value))
    | none => .long (String.ofList rest) none
  | '-' :: c :: rest => .letters (c :: rest)
  | _ => .word

/-- Reads joined letters. The option that is left over lacks its value. -/
def readLetters (f : Form) (argument : String) (g : Given) :
    List Char → Except Halt (Given × Option Switch)
  | [] => pure (g, none)
  | c :: rest =>
    match f.switches.find? (·.letter == some c) with
    | none => throw (.misuse (.unexpected argument))
    | some s =>
      if s.arity = .flag then do readLetters f argument (← addOption g s "") rest
      else
        match rest with
        | [] => pure (g, some s)
        | '=' :: value => do return (← addOption g s (String.ofList value), none)
        | value => do return (← addOption g s (String.ofList value), none)

/-- Reads an option by its name. The option that is given back lacks its value. -/
def readLong (f : Form) (argument name : String) (value : Option String) (g : Given) :
    Except Halt (Given × Option Switch) :=
  match f.switches.find? (·.name == name) with
  | none => throw (.misuse (.unexpected argument))
  | some s =>
    match value with
    | none => if s.arity = .flag then do return (← addOption g s "", none) else pure (g, some s)
    | some v =>
      if s.arity = .flag then throw (.misuse (.unexpected argument))
      else do return (← addOption g s v, none)

/-- Reads arguments up to a command, which is left with everything behind it. `pending` is an option
that lacks its value. -/
def scan (f : Form) (pending : Option Switch) (g : Given) :
    List String → Except Halt (Given × List String)
  | [] =>
    match pending with
    | some s => throw (.misuse (.missingValue s.name))
    | none => pure (g, [])
  | argument :: rest =>
    match pending, shapeOf argument with
    | some s, .word => do scan f none (← addOption g s argument) rest
    | some s, _ => throw (.misuse (.missingValue s.name))
    | none, .escape => do return (← rest.foldlM f.addWord g, [])
    | none, .long name value => do
      let (g, pending) ← f.readLong argument name value g
      scan f pending g rest
    | none, .letters cs => do
      let (g, pending) ← f.readLetters argument g cs
      scan f pending g rest
    | none, .word =>
      if f.commands.isEmpty then do scan f none (← f.addWord g argument) rest
      else if argument ∈ f.commands then pure (g, argument :: rest)
      else throw (.misuse (.unknownCommand argument))

/-- What arguments give, and the command with its arguments where one has to follow. -/
def read (f : Form) (arguments : List String) : Except Halt (Given × List String) := do
  let (g, rest) ← f.scan none {} arguments
  if g.words.length < f.least then throw (.misuse .missingWord)
  else if !f.commands.isEmpty ∧ rest.isEmpty then throw (.misuse .missingCommand)
  else return (g, rest)

end Form

end SheetPackages.Command
