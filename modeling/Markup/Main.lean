import Markup.CommandLine

/-! # The program

Arguments, standard streams and the disk, around `Markup.CommandLine.run`. -/
namespace Markup

def FileError.ofError (e : IO.Error) : FileError :=
  match e with
  | .noFileOrDirectory .. | .noSuchThing .. => .notFound
  | .inappropriateType _ code _ => if code = 20 ∨ code = -20 then .notADirectory else .isADirectory
  | .invalidArgument _ code _ => if code = 36 ∨ code = -36 then .nameTooLong else .nulInPath
  | e => .other (toString e)

def disk : Storage IO where
  read path := do
    try
      match Content.ofBytes (← IO.FS.readBinFile (String.ofList path)) with
      | .text t => return .ok t
      | .binary _ => return .error .invalidData
    catch e => return .error (.ofError e)
  write path text := do
    try
      IO.FS.writeFile (String.ofList path) (String.ofList text)
      return .ok ()
    catch e => return .error (.ofError e)

end Markup

def main (args : List String) : IO UInt32 := do
  let stdin := do return Markup.Content.ofBytes (← (← IO.getStdin).readBinToEnd)
  let outcome ← Markup.CommandLine.run Markup.disk stdin (args.map String.toList)
  IO.print (String.ofList outcome.stdout)
  IO.eprint (String.ofList outcome.stderr)
  return outcome.code.toUInt32
