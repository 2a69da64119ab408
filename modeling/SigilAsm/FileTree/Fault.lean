/-! # Faults of files

Why a file could not be read or written.
-/

namespace SigilAsm

inductive FileFault where
  | notFound
  | notDirectory
  | isDirectory
  | alreadyExists
  -- The bytes of a file are not the UTF-8 form of any text.
  | notText
  -- Anything else, in the words of the system.
  | other (message : String)
  deriving DecidableEq, Repr

def FileFault.message : FileFault → String
  | notFound => "No such file or directory (os error 2)"
  | notDirectory => "Not a directory (os error 20)"
  | isDirectory => "Is a directory (os error 21)"
  | alreadyExists => "File exists (os error 17)"
  | notText => "stream did not contain valid UTF-8"
  | other message => message

end SigilAsm
