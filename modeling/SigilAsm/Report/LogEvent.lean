import SigilAsm.Instruction
import SigilAsm.Report.Diagnostic
import SigilAsm.Text.LineMap

/-! # Log events

What happens while a source is assembled, for those who want to follow it: each
event has a level, a message and named fields.
-/

namespace SigilAsm

inductive LogLevel where
  | trace
  | debug
  | info
  deriving DecidableEq, Repr

inductive LogField where
  | text (value : String)
  | number (value : Nat)
  deriving DecidableEq, Repr

inductive LogEvent where
  | moduleCreated (name : String)
  | globalRegistered (name : String) (mutability : Mutability) (bytes : Nat)
  | functionRegistered (name : String) (signature : Signature)
  -- The locals and blocks of the function before are forgotten.
  | scopeReset (function : String)
  | localRegistered (name : String)
  | localLookup (name : String)
  | blockRegistered (name : String) (signature : Signature)
  | reported (diagnostic : Diagnostic) (position : Position)
  | readingFinished (module : String) (errors : Nat)
  | moduleAssembled (module : String) (globals functions errors : Nat)
  deriving DecidableEq, Repr

namespace LogEvent

def level : LogEvent → LogLevel
  | scopeReset _ | localLookup _ => .trace
  | moduleAssembled .. => .info
  | _ => .debug

def message : LogEvent → String
  | moduleCreated _ => "module created"
  | globalRegistered .. => "global registered"
  | functionRegistered .. => "function registered"
  | scopeReset _ => "function scope reset"
  | localRegistered _ => "local registered"
  | localLookup _ => "local lookup"
  | blockRegistered .. => "block registered"
  | reported diagnostic _ => diagnostic.problem.message
  | readingFinished .. => "parse finished"
  | moduleAssembled .. => "module assembled"

def mutabilityText : Mutability → String
  | .mutable => "Mutable"
  | .immutable => "Immutable"

def fields : LogEvent → List (String × LogField)
  | moduleCreated name => [("module", .text name)]
  | globalRegistered name mutability bytes =>
    [("global", .text name), ("mutability", .text (mutabilityText mutability)),
      ("bytes", .number bytes)]
  | functionRegistered name signature =>
    [("function", .text name), ("signature", .text signature.render)]
  | scopeReset function => [("function", .text function)]
  | localRegistered name | localLookup name => [("local", .text name)]
  | blockRegistered name signature => [("block", .text name), ("signature", .text signature.render)]
  | reported diagnostic position =>
    [("code", .text diagnostic.problem.code), ("line", .number position.line),
      ("column", .number position.column)]
  | readingFinished module errors => [("module", .text module), ("errors", .number errors)]
  | moduleAssembled module globals functions errors =>
    [("module", .text module), ("globals", .number globals), ("functions", .number functions),
      ("errors", .number errors)]

end LogEvent

end SigilAsm
