import SigilAsm.FileTree.Fault
import SigilAsm.Report.Diagnostic

/-! # Failures

Why a request for an assembly, or for its output, cannot be met.
-/

namespace SigilAsm

inductive Failure where
  -- A source that could not be read.
  | unreadable (fault : FileFault)
  -- A directory of sources that is not there.
  | missingDirectory (path : String)
  | unknownFormat (name : String)
  -- A source that does not follow the grammar.
  | malformed (message : String) (extent : Extent)
  -- A program that has no counterpart in the output format.
  | lowering (reason : String)
  -- A source about which there are diagnostics.
  | faulty (errors : Nat)
  deriving DecidableEq, Repr

namespace Failure

def ofSyntaxError (e : SyntaxError) : Failure := malformed e.fault.message e.extent

def message : Failure → String
  | unreadable fault => "failed to read source: " ++ fault.message
  | missingDirectory path => "source directory was not found at " ++ path
  | unknownFormat name => "unsupported emit format: " ++ name
  | malformed message extent =>
    "syntax error at byte " ++ toString extent.start ++ ": " ++ message
  | lowering reason => "code generation failed: " ++ reason
  | faulty errors => "assembly failed with " ++ toString errors ++ " error(s)"

end Failure

end SigilAsm
