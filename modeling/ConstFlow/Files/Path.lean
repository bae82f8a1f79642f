import ConstFlow.Text.Utf8

/-!
# Paths

A path is a text with slashes. The path by which a file is opened and named in messages has no
empty parts and no single dots, but keeps double dots, since what they lead to depends on the files.
-/

namespace ConstFlow.Path

/-- The parts of a path between slashes. -/
def split : Text → List Text
  | [] => [[]]
  | .scalar '/' :: rest => [] :: split rest
  | c :: rest =>
    match split rest with
    | [] => [[c]]
    | p :: ps => (c :: p) :: ps

/-- The slashes that an absolute path keeps in front. Two slashes mean something else than one, and
more than two mean the same as one. -/
def root (path : Text) : Text :=
  match (path.takeWhile (· = .scalar '/')).length with
  | 0 => ""
  | 2 => "//"
  | _ => "/"

/-- The parts of a path that lead somewhere. -/
def steps (path : Text) : List Text := (split path).filter fun s => s ≠ "" && s ≠ "."

/-- The path by which a file is opened and named. -/
def normal (path : Text) : Text :=
  let body := root path ++ Text.join "/" (steps path)
  if body.isEmpty then "." else body

/-- The part of a path after its last slash. -/
def baseName (path : Text) : Text := (split path).getLastD ""

/-- Why no file can have a path. -/
inductive Fault where
  | surrogate (e : Text.EncodeError)
  | nul
  deriving DecidableEq, Repr, Inhabited

/-- A fault in words. -/
def Fault.message : Fault → Text
  | surrogate e => e.message
  | nul => "embedded null byte"

/-- What is wrong with a path. A surrogate that stands for a byte is nothing wrong. -/
def fault? (path : Text) : Option Fault :=
  match Text.unencodable? Text.standsForByte path with
  | some e => some (.surrogate e)
  | none => if path.contains (.scalar (Char.ofNat 0)) then some .nul else none

end ConstFlow.Path
