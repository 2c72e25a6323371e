import YamlEdit.CommandLine.Arguments
import YamlEdit.CommandLine.Files
import YamlEdit.Edit.ScriptSchema

/-!
# Running a command

`CommandLine.run` says what a command prints, what it writes and how it exits, given the contents
of files. A file is written only when all went well and its text has changed. A run can fail, which
it reports, or break off at an offset inside a character.
-/

namespace YamlEdit

namespace CommandLine

/-- What a command needs to know of its surroundings. -/
structure Surroundings where
  read : Text → Except FileFault Text
  /-- The directory that a leading `~` stands for. -/
  home : Option Text

/-- What a run of the program shows and leaves behind. -/
structure Outcome where
  code : Nat
  stdout : Text
  stderr : Text
  /-- The file to write, as a path, and its new content. -/
  write : Option (Text × Text)
  deriving DecidableEq, Repr

namespace Outcome

/-- A run that only prints. -/
def success (stdout : Text) : Outcome := ⟨0, stdout, [], none⟩

/-- A run that reports a failure has exit code 1 and writes nothing. -/
def failure (f : Failure) : Outcome := ⟨1, [], f.report, none⟩

/-- A run that breaks off has exit code 101 and writes nothing. -/
def crash (offset : BadOffset) : Outcome :=
  ⟨101, [], (EditError.badOffset offset).message ++ ['\n'], none⟩

end Outcome

/-- The path that a word names. -/
def Surroundings.expand (s : Surroundings) (word : Text) : Text :=
  match word, s.home with
  | '~' :: rest, some home => if rest.isEmpty ∨ rest.head? = some '/' then home ++ rest else word
  | _, _ => word

/-- How a run ends early. -/
inductive Halt where
  | failure (f : Failure)
  /-- A cut through a character is no failure: the run breaks off. -/
  | crash (offset : BadOffset)
  deriving DecidableEq, Repr

namespace Halt

/-- The end of a run at an error of an edit. -/
def ofEdit : EditError → Halt
  | .badOffset offset => crash offset
  | e => failure (.ofEdit e)

/-- Adds what was to be done to a failure. -/
def during (context : Text) : Halt → Halt
  | failure f => failure (f.during context)
  | crash offset => crash offset

/-- What is left of a run that ended early. -/
def outcome : Halt → Outcome
  | failure f => .failure f
  | crash offset => .crash offset

end Halt

/-- A part of a run, which can end early. -/
abbrev Task := Except Halt

/-- Adds what was to be done to a failure. -/
def Task.during {α : Type} (context : Text) (x : Task α) : Task α :=
  x.mapError (Halt.during context)

/-- A value in an argument. -/
def readValue (word : Text) : Task Value :=
  Task.during (Text.quoted word ++ " is not a YAML value".toList)
    ((Value.parse word).mapError fun e => .failure (.ofText e.message))

/-- The operation that a request asks for. -/
def Request.operation : Request → Task Operation
  | .delete path => .ok (.delete path)
  | .update path value => do return .update path (← readValue value)
  | .rename path newName => .ok (.rename path newName)
  | .mapAdd path key value => do return .mapAdd path key (← readValue value)
  | .seqAdd path value index => do return .seqAdd path (← readValue value) index

namespace Surroundings

/-- The operations of the script in a file. -/
def readScript (s : Surroundings) (word : Text) : Task (List Operation) := do
  let path := s.expand word
  let script ← Task.during ("reading edit script ".toList ++ path)
    ((s.read path).mapError fun fault => .failure (.ofText fault.message))
  Task.during ("parsing edit script ".toList ++ path)
    ((Script.read script).mapError fun e => .failure (.ofText e.message))

/-- An editor of the document in a file, and the path of the file. -/
def openFile (s : Surroundings) (word : Text) : Task (Text × Editor) := do
  let path := s.expand word
  let editor ← Task.during ("loading ".toList ++ path) do
    let source ← (s.read path).mapError fun fault => .failure (.ofLoad fault)
    (Editor.load source).mapError Halt.ofEdit
  return (path, editor)

/-- Applies operations to the document in a file. -/
def edit (s : Surroundings) (word : Text) (os : List Operation) (output : Output) :
    Task Outcome := do
  let (path, editor) ← s.openFile word
  let (editor, rendered) := (os.foldl Editor.enqueue editor).render
  let text ← Task.during ("editing ".toList ++ path) (rendered.mapError Halt.ofEdit)
  let stdout := if output.diff then editor.diff else if output.inPlace then [] else text
  let write := if output.inPlace ∧ editor.isModified then some (path, text) else none
  return ⟨0, stdout, [], write⟩

/-- The value at a path of the document in a file. -/
def get (s : Surroundings) (word path : Text) : Task Outcome := do
  let (_, editor) ← s.openFile word
  let value ← (editor.value path).mapError Halt.ofEdit
  let text ← value.render.mapError fun fault => .failure (.ofText fault.message)
  return Outcome.success text

/-- Runs a command that has been read. -/
def runCommand (s : Surroundings) : Command → Task Outcome
  | .edit file request output => do s.edit file [← request.operation] output
  | .apply file script output => do s.edit file (← s.readScript script) output
  | .get file path => s.get file path
  | .schema => .ok (Outcome.success (Script.schema.pretty 0 ++ ['\n']))

end Surroundings

/-- The name and version of the program. -/
def versionText : Text := "yaml-splice 0.1.0\n".toList

/-- What the program does with the given arguments. -/
def run (s : Surroundings) (arguments : List Text) : Outcome :=
  match parse arguments with
  | .version => Outcome.success versionText
  | .help => Outcome.success []
  | .refuse => ⟨2, [], [], none⟩
  | .run command =>
    match s.runCommand command with
    | .ok outcome => outcome
    | .error halt => halt.outcome

/-- What the program does in a working directory that is the home directory too, and the files
after that. -/
def runIn (files : Files) (arguments : List Text) : Outcome × Files :=
  let outcome := run ⟨files.read, some ['.']⟩ arguments
  let after := match outcome.write with
    | none => files
    | some (path, content) =>
      match files.locate path with
      | .ok place => files.write place content
      | .error _ => files
  (outcome, after)

end CommandLine

end YamlEdit
