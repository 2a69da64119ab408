import SigilAsm.CommandLine.Plan

/-! # Arguments

What the arguments of a call ask for.  A long option takes its value from the
next argument or after an equals sign, a short one from the next argument or
from right behind its letter.
-/

namespace SigilAsm

/-- What a call of the program asks for, or why it cannot be understood. -/
inductive Request where
  | assemble (options : Options)
  | help
  | version
  | misuse (message : String)
  deriving DecidableEq, Repr

inductive OptionName where
  | input
  | output
  | emit
  | maxDataLen
  deriving DecidableEq, Repr

namespace OptionName

def ofText? : String → Option OptionName
  | "--input" | "-i" => some input
  | "--output" | "-o" => some output
  | "--emit" => some emit
  | "--max-data-len" => some maxDataLen
  | _ => none

/-- The number that a value spells: decimal digits, which a plus sign may precede. -/
def number? (value : String) : Option Nat :=
  let digits := match value.toList with
    | '+' :: rest => rest
    | cs => cs
  if digits.isEmpty || !digits.all Char.isDigit then none else some (Rule.decimalValue digits)

/-- The options with one of them set; none if the value does not fit. -/
def set? (name : OptionName) (value : String) (o : Options) : Option Options :=
  match name with
  | input => if value.isEmpty then none else some { o with input := some value }
  | output => if value.isEmpty then none else some { o with output := some value }
  | emit => some { o with format := value }
  | maxDataLen =>
    match number? value with
    | some n => if n < UInt64.size then some { o with maxDataBytes := n } else none
    | none => none

end OptionName

namespace Request

/-- An argument that carries its value: the option, and the value. -/
def splitArgument? (argument : String) : Option (OptionName × String) :=
  let cs := argument.toList
  let name := String.ofList (cs.takeWhile (· != '='))
  let short := String.ofList (cs.take 2)
  if name.startsWith "--" then
    match cs.dropWhile (· != '='), OptionName.ofText? name with
    | _ :: value, some option => some (option, String.ofList value)
    | _, _ => none
  else
    match cs.drop 2, OptionName.ofText? short with
    | '=' :: value, some option => some (option, String.ofList value)
    | c :: value, some option => some (option, String.ofList (c :: value))
    | [], _ => none
    | _, none => none

/-- Goes through the arguments; `seen` are the options that were given already. -/
def ofArgumentsFrom (o : Options) (seen : List OptionName) : List String → Request
  | [] => assemble o
  | argument :: rest =>
    match argument with
    | "--help" | "-h" => help
    | "--version" | "-V" => version
    | "--verbose" | "-v" => ofArgumentsFrom o seen rest
    | _ =>
      let assign (name : OptionName) (value : String) : Option Options :=
        if name ∈ seen then none else name.set? value o
      match OptionName.ofText? argument, splitArgument? argument, rest with
      | some name, _, value :: rest =>
        match assign name value with
        | some o => ofArgumentsFrom o (name :: seen) rest
        | none => misuse ("invalid value '" ++ value ++ "' for '" ++ argument ++ "'")
      | some _, _, [] => misuse ("a value is required for '" ++ argument ++ "'")
      | none, some (name, value), rest =>
        match assign name value with
        | some o => ofArgumentsFrom o (name :: seen) rest
        | none => misuse ("invalid argument '" ++ argument ++ "'")
      | none, none, _ => misuse ("unexpected argument '" ++ argument ++ "' found")

def ofArguments (arguments : List String) : Request :=
  ofArgumentsFrom Options.standard [] arguments

end Request

end SigilAsm
