import ConstFlow.Command.Run

/-!
# The program

Reads the files that a command line names, carries it out, prints, and writes the file that there is
to write.
-/

namespace ConstFlow.Command

/-- What kept a file from being opened. -/
def fileErrorOf : IO.Error → FileError
  | .noFileOrDirectory .. => .notFound
  | .inappropriateType _ code _ => if code = 21 then .isDirectory else .notDirectory
  | e => .other (toString e)

/-- Do something about a file. -/
def attempt {α : Type} (act : IO α) : IO (Except FileError α) := do
  try
    return .ok (← act)
  catch e => return .error (fileErrorOf e)

/-- The machine that this program takes itself to run on. -/
def machine : Machine := ⟨988, 990, true⟩

/-- The request of a command line, if it makes one. -/
def requestOf? (args : List Text) : Option Request :=
  match readArgs machine.keepsDashes args with
  | .ok (.request r) => some r
  | _ => none

/-- The contents of all of a stream. -/
partial def readAll (h : IO.FS.Stream) (done : ByteArray) : IO ByteArray := do
  let chunk ← h.read 65536
  if chunk.isEmpty then return done else readAll h (done ++ chunk)

/-- The host as a request finds it. Files are written later, and till then it is taken for granted
that they can be. -/
def hostOf (request : Option Request) : IO Host := do
  let paths := request.toList.flatMap fun r => r.input :: r.config.toList
  let fromStream := request.any fun (r : Request) => r.input = "-"
  let stdin ← if fromStream then readAll (← IO.getStdin) .empty else pure .empty
  let contents ← (paths.map Path.normal).mapM fun p => do
    return (p, ← attempt (IO.FS.readBinFile p.escaped))
  return {
    read := fun p => (contents.lookup p).getD (.error .notFound)
    create := fun _ => .ok ()
    write := fun _ _ => .ok ()
    stdin := (decode stdin).toOption.map Text.ofChars
    prints := fun t => (Text.encode t).isOk
    color := (← IO.getEnv "FORCE_COLOR").isSome
    machine }

/-- Carry out a command line. If there is a file to write, what comes of that decides on the
rest. -/
def execute (args : List Text) : IO Outcome := do
  let host ← hostOf (requestOf? args)
  let o := run host args
  match o.output with
  | none => return o
  | some (path, bytes) =>
    let written ← attempt (IO.FS.writeBinFile path.escaped bytes)
    return run { host with create := fun _ => written } args

end ConstFlow.Command

/-- Carry out a command line. Messages with exit code two come without a line feed. -/
def main (args : List String) : IO UInt32 := do
  let o ← ConstFlow.Command.execute (args.map ConstFlow.Text.ofString)
  IO.print o.stdout.escaped
  IO.eprint (if o.exit = 2 then o.stderr.escaped ++ "\n" else o.stderr.escaped)
  return o.exit.toUInt32
