/-
  HeliumKernels.CommandLine.Arguments

  Splitting an argument list into options, flags and plain arguments.  A long
  option is written `--name value` or `--name=value`, a short one `-n value`,
  `-n=value` or `-nvalue`.  A value that is an argument of its own does not
  start with a dash, apart from a single dash.  `--` ends the options.
  Nothing may be given twice.
-/

namespace HeliumKernels.CommandLine

/-- What a command understands. -/
structure Grammar where
  /-- Options with a value, with their dashes. -/
  options : List String
  /-- Flags, with their dashes. -/
  flags : List String
  /-- Number of plain arguments. -/
  plain : Nat
  /-- Names of commands, each of which takes all arguments behind it. -/
  commands : List String

/-- What was found in an argument list. -/
structure Arguments where
  options : List (String × String) := []
  flags : List String := []
  plain : List String := []
  command : Option (String × List String) := none
deriving DecidableEq, Repr

namespace Arguments

/-- Value of an option. -/
def value? (a : Arguments) (name : String) : Option String :=
  a.options.lookup name

/-- Whether a flag was given. -/
def has (a : Arguments) (name : String) : Bool :=
  a.flags.contains name

/-- Note the value of an option that was not given before. -/
def addOption (a : Arguments) (name value : String) : Option Arguments :=
  if (a.value? name).isSome then none else some { a with options := (name, value) :: a.options }

/-- Note a flag that was not given before. -/
def addFlag (a : Arguments) (name : String) : Option Arguments :=
  if a.has name then none else some { a with flags := name :: a.flags }

/-- Note a plain argument if one is missing. -/
def addPlain (a : Arguments) (g : Grammar) (text : String) : Option Arguments :=
  if a.plain.length < g.plain then some { a with plain := a.plain ++ [text] } else none

end Arguments

/-- Whether an argument looks like an option: a dash and something behind it. -/
def isDashed (arg : String) : Bool :=
  match arg.toList with
  | '-' :: _ :: _ => true
  | _ => false

/-- Whether a text is a number as far as a negative argument is concerned:
    digits, at most one point behind the first of them and before the
    exponent mark, and something behind that mark. -/
def isPlainNumber (text : List Char) : Bool :=
  let mantissa := text.takeWhile fun c => c ≠ 'e' ∧ c ≠ 'E'
  let exponent := text.drop mantissa.length
  let whole := mantissa.takeWhile Char.isDigit
  let numeric : Bool := match mantissa.drop whole.length with
    | [] => true
    | '.' :: fraction => !whole.isEmpty && fraction.all Char.isDigit
    | _ => false
  let scaled : Bool := match exponent with
    | [] => true
    | _ :: digits => !mantissa.isEmpty && !digits.isEmpty && digits.all Char.isDigit
  numeric && scaled

/-- Whether an argument is a negative number. -/
def isNegativeNumber (arg : String) : Bool :=
  match arg.toList with
  | '-' :: rest => isPlainNumber rest
  | _ => false

/-- A dashed argument as a name and the value attached to it. -/
def splitDashed (arg : String) : String × Option String :=
  match arg.toList with
  | '-' :: '-' :: text =>
    let name := text.takeWhile (· ≠ '=')
    let value := match text.drop name.length with
      | [] => none
      | _ :: value => some (String.ofList value)
    ("--" ++ String.ofList name, value)
  | '-' :: letter :: text =>
    let value := match text with
      | [] => none
      | '=' :: value => some (String.ofList value)
      | value => some (String.ofList value)
    (String.ofList ['-', letter], value)
  | _ => (arg, none)

/-- Read arguments on top of those found before; `none` if they do not follow
    the grammar. -/
def scan (g : Grammar) (found : Arguments) : List String → Option Arguments
  | [] => some found
  | arg :: rest =>
    if arg = "--" then rest.foldlM (fun found text => found.addPlain g text) found
    else if isNegativeNumber arg ∧ found.plain.length < g.plain ∧ arg ≠ "-" then do
      scan g (← found.addPlain g arg) rest
    else if isDashed arg then
      let (name, value?) := splitDashed arg
      if name ∈ g.flags then
        match value? with
        | some _ => none
        | none => do scan g (← found.addFlag name) rest
      else if name ∈ g.options then
        match value?, rest with
        | some value, rest => do scan g (← found.addOption name value) rest
        | none, [] => none
        | none, value :: rest =>
          if isDashed value then none else do scan g (← found.addOption name value) rest
      else none
    else if arg ∈ g.commands then some { found with command := some (arg, rest) }
    else do scan g (← found.addPlain g arg) rest

/-- Read an argument list. -/
def Grammar.parse? (g : Grammar) (args : List String) : Option Arguments :=
  scan g {} args

end HeliumKernels.CommandLine
