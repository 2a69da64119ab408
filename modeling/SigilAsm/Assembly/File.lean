import SigilAsm.Assembly.Basic
import SigilAsm.FileTree.Collection

/-! # Assembling files

A file is assembled if its contents are a text.
-/

namespace SigilAsm

/-- Assembles the source that was found where a path leads, and hands its diagnostics out. -/
def Found.assemble (found : Found) (settings : Settings) :
    Except Failure Assembly × List Diagnostic :=
  match found.text with
  | .ok source => assembleReporting settings source
  | .error fault => (.error (.unreadable fault), [])

end SigilAsm
