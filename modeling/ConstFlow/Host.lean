import ConstFlow.Files.Path
import ConstFlow.Text.Quoted

/-!
# The host of a run

What a run depends on besides its command line: the files that it reads and writes, its standard
input and output, and the machine. Nothing here does anything; a host says what would come of it.
-/

namespace ConstFlow

/-- Why the operating system does not open or write a file. -/
inductive FileError where
  | notFound
  | notDirectory
  | isDirectory
  /-- Another reason, in the words of the system. -/
  | other (words : Text)
  deriving DecidableEq, Repr, Inhabited

/-- An error about a path in words. -/
def FileError.message (path : Text) : FileError → Text
  | notFound => "[Errno 2] No such file or directory: " ++ Text.quote path
  | notDirectory => "[Errno 20] Not a directory: " ++ Text.quote path
  | isDirectory => "[Errno 21] Is a directory: " ++ Text.quote path
  | other words => words

/-- In what the machines differ that the program runs on. -/
structure Machine where
  /-- How many lists and records may lie in one another in a text that is read. -/
  reading : Nat
  /-- How many values may lie in one another that are shown. -/
  showing : Nat
  /-- Whether two dashes that are joined to an option are its value. -/
  keepsDashes : Bool

/-- What a run finds around it. -/
structure Host where
  /-- The contents of a file. -/
  read : Text → Except FileError ByteArray
  /-- What comes of opening a file to be written over. -/
  create : Text → Except FileError Unit
  /-- What comes of writing a file that is open. -/
  write : Text → ByteArray → Except FileError Unit
  /-- The text on the standard input, unless its bytes are no text. -/
  stdin : Option Text
  /-- Whether the standard output has a form for a text. -/
  prints : Text → Bool
  /-- Whether messages are in colour. -/
  color : Bool
  machine : Machine

end ConstFlow
