import YamlEdit.CommandLine.Run

/-!
# The program
-/

open YamlEdit

/-- The number of an error of the operating system, which may come with a minus sign. -/
def errorNumber (code : UInt32) : Nat := min code.toNat (0 - code).toNat

/-- Why a file cannot be read or written. -/
def faultOf : IO.Error → CommandLine.FileFault
  | .noFileOrDirectory .. => .missing
  | .inappropriateType _ code _ =>
    if errorNumber code = 20 then .notDirectory else .isDirectory
  | .permissionDenied .. => .other "Permission denied (os error 13)".toList
  | .userError _ => .other "stream did not contain valid UTF-8".toList
  | .invalidArgument name code details =>
    if errorNumber code = 36 then .nameTooLong
    else .other (toString (IO.Error.invalidArgument name code details)).toList
  | e => .other (toString e).toList

/-- Reads a file, once, as far as it can be read. -/
def readOnce (path : String) : IO (Except CommandLine.FileFault Text) := do
  try
    return .ok (← IO.FS.readFile path).toList
  catch e => return .error (faultOf e)

/-- The words of the arguments that may name files, and what the files hold. -/
def readAll (home : Option Text) (arguments : List String) :
    IO (List (Text × Except CommandLine.FileFault Text)) :=
  arguments.mapM fun word => do
    let path := (CommandLine.Surroundings.mk (fun _ => .error .missing) home).expand word.toList
    return (path, ← readOnce (String.ofList path))

/-- Writes a file. What goes wrong is reported. -/
def writeOrReport (path content : Text) : IO UInt32 := do
  try
    IO.FS.writeFile (String.ofList path) (String.ofList content)
    return 0
  catch e =>
    let failure := CommandLine.Failure.during ("writing ".toList ++ path)
      (CommandLine.Failure.ofText (faultOf e).message)
    IO.eprint (String.ofList failure.report)
    return 1

/-- Reads the files that the arguments may name, runs the command, and prints and writes what it
leaves. -/
def main (arguments : List String) : IO UInt32 := do
  let home := (← IO.getEnv "HOME").map (·.toList)
  let known ← readAll home arguments
  let read (path : Text) := (known.lookup path).getD (.error .missing)
  let outcome := CommandLine.run ⟨read, home⟩ (arguments.map (·.toList))
  IO.print (String.ofList outcome.stdout)
  IO.eprint (String.ofList outcome.stderr)
  match outcome.write with
  | none => return outcome.code.toUInt32
  | some (path, content) => writeOrReport path content
