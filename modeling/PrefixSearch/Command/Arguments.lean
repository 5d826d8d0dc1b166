/-!
# Command-line arguments

Options and the arguments that are none may stand in any order. An option is written with its long
name or, several of them in one argument, with one letter each. A value stands behind an equals
sign, behind the letter, or in the next argument; that one must not look like an option. After a
double dash there are no more options.
-/

namespace PrefixSearch

/-- What may come with an option. -/
inductive OptionKind where
  /-- Nothing, and the option at most once. -/
  | switch
  /-- Nothing, and the option any number of times. -/
  | repeatable
  /-- A value, and the option at most once. -/
  | valued
deriving DecidableEq, Repr

/-- An option that a command knows. -/
structure OptionSpec where
  name : String
  letter : Option Char := none
  kind : OptionKind
deriving DecidableEq, Repr

/-- The arguments as they were given. -/
structure Arguments where
  /-- The options, with their values. -/
  options : List (String × Option String) := []
  /-- The other arguments. -/
  others : List String := []
deriving DecidableEq, Repr, Inhabited

namespace Arguments

def has (arguments : Arguments) (name : String) : Bool :=
  arguments.options.any (·.1 = name)

/-- The value of an option. -/
def value? (arguments : Arguments) (name : String) : Option String :=
  (arguments.options.find? (·.1 = name)).bind (·.2)

/-- Record an option, unless it is there and may not be repeated. -/
def addOption? (arguments : Arguments) (spec : OptionSpec) (value : Option String) :
    Option Arguments :=
  if arguments.has spec.name ∧ spec.kind ≠ .repeatable then none
  else some { arguments with options := arguments.options ++ [(spec.name, value)] }

def addOther (arguments : Arguments) (argument : String) : Arguments :=
  { arguments with others := arguments.others ++ [argument] }

/-- Whether an argument looks like an option. -/
def looksLikeOption (argument : String) : Bool :=
  argument.startsWith "-" && argument ≠ "-"

/-- Where the reading stands: an option may wait for its value, or no more options come. -/
inductive Expect where
  | anything
  | value (spec : OptionSpec)
  | others
deriving DecidableEq, Repr

/-- Read an argument with a long name. -/
def long? (specs : List OptionSpec) (arguments : Arguments) (body : List Char) :
    Option (Arguments × Expect) := do
  let name := String.ofList (body.takeWhile (· ≠ '='))
  let spec ← specs.find? (·.name = name)
  match body.dropWhile (· ≠ '='), spec.kind with
  | [], .valued => if arguments.has spec.name then none else some (arguments, .value spec)
  | _ :: value, .valued => return (← arguments.addOption? spec (String.ofList value), .anything)
  | [], _ => return (← arguments.addOption? spec none, .anything)
  | _ :: _, _ => none

/-- Read an argument of letters. -/
def letters? (specs : List OptionSpec) (arguments : Arguments) :
    List Char → Option (Arguments × Expect)
  | [] => some (arguments, .anything)
  | letter :: rest =>
      match specs.find? (·.letter = some letter) with
      | none => none
      | some spec =>
          match spec.kind, rest with
          | .valued, [] => if arguments.has spec.name then none else some (arguments, .value spec)
          | .valued, '=' :: value =>
              (arguments.addOption? spec (String.ofList value)).map (·, .anything)
          | .valued, value => (arguments.addOption? spec (String.ofList value)).map (·, .anything)
          | _, _ => (arguments.addOption? spec none).bind (letters? specs · rest)

/-- Read the next argument. -/
def step? (specs : List OptionSpec) (state : Arguments × Expect) (argument : String) :
    Option (Arguments × Expect) :=
  match state with
  | (arguments, .others) => some (arguments.addOther argument, .others)
  | (arguments, .value spec) =>
      if looksLikeOption argument then none
      else (arguments.addOption? spec (some argument)).map (·, .anything)
  | (arguments, .anything) =>
      match argument.toList with
      | ['-', '-'] => some (arguments, .others)
      | '-' :: '-' :: body => long? specs arguments body
      | '-' :: letter :: rest => letters? specs arguments (letter :: rest)
      | _ => some (arguments.addOther argument, .anything)

/-- Read arguments, all of whose options have to be known. -/
def parse? (specs : List OptionSpec) (given : List String) : Option Arguments := do
  match ← given.foldlM (step? specs) ({}, .anything) with
  | (_, .value _) => none
  | (arguments, _) => some arguments

end Arguments

end PrefixSearch
