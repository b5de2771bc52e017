import Clausal.Command.Run
/-! The command line program. Files, the clock and the console are those of the machine; external
solvers are not started, so of the solvers only the library's own search answers here. -/
namespace Clausal

/-- What kept a file from being read or written. -/
def faultOf : IO.Error → FileFault
  | .alreadyExists .. => .alreadyExists
  | .permissionDenied .. => .notPermitted
  | .inappropriateType _ code _ => if code = 21 then .isDirectory else .notDirectory
  | .invalidArgument _ code _ => if code = 36 then .nameTooLong else .notFound
  | _ => .notFound

/-- Does something with a file, or tells what kept it from being done. -/
def attempt {α : Type} (action : IO α) : IO (Except FileFault α) := do
  try return .ok (← action)
  catch e => return .error (faultOf e)

instance : Host IO where
  readFile path := attempt (IO.FS.readBinFile path)
  writeFile path bytes := attempt (IO.FS.writeBinFile path bytes)
  makeDirectories path := if path.isEmpty then return .ok () else attempt (IO.FS.createDirAll path)
  pathExists path := return (← attempt (IO.FS.Handle.mk path .read)).toOption.isSome
  launch _ _ := return .error .notFound
  variableNamed name := IO.getEnv name
  clock := IO.monoNanosNow
  print text := IO.print text
  printError text := IO.eprint text

end Clausal

def main (args : List String) : IO UInt32 := do
  return UInt32.ofNat (← Clausal.Command.run args)
