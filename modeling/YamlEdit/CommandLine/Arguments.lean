import YamlEdit.Text.Basic

/-!
# Arguments

What the words of a command line ask for. A word that starts with `-` is an option, wherever it
stands; after `--` all words are taken as they are.
-/

namespace YamlEdit

namespace CommandLine

/-- What becomes of the edited text. -/
structure Output where
  /-- Write it back to the file instead of printing it. -/
  inPlace : Bool
  /-- Print a unified diff. -/
  diff : Bool
  deriving DecidableEq, Repr

/-- A single edit, its values as they are written in the arguments. -/
inductive Request where
  | delete (path : Text)
  | update (path value : Text)
  | rename (path newName : Text)
  | mapAdd (path key value : Text)
  | seqAdd (path value : Text) (index : Option Nat)
  deriving DecidableEq, Repr

/-- What a command line that is accepted asks for. -/
inductive Command where
  | edit (file : Text) (request : Request) (output : Output)
  | apply (file script : Text) (output : Output)
  | get (file path : Text)
  | schema
  deriving DecidableEq, Repr

/-- What to do. -/
inductive Invocation where
  | run (command : Command)
  | version
  | help
  /-- The arguments make no sense. -/
  | refuse
  deriving DecidableEq, Repr

/-! ## Words and options -/

/-- The options that a command takes. -/
structure Accepts where
  output : Bool
  index : Bool

/-- The words and options read so far. -/
structure Reading where
  /-- The words, last one first. -/
  words : List Text
  output : Output
  index : Option Nat

/-- Nothing has been read. -/
def Reading.start : Reading := ⟨[], ⟨false, false⟩, none⟩

/-- Why reading stops early. -/
inductive Stop where
  | help
  | refuse
  deriving DecidableEq, Repr

/-- A reading that stops is a request for help or a refusal. -/
def Stop.invocation : Stop → Invocation
  | help => .help
  | refuse => .refuse

namespace Reading

/-- An option that may be given only once. -/
def setInPlace (accepts : Accepts) (r : Reading) : Except Stop Reading :=
  if accepts.output ∧ !r.output.inPlace then
    .ok { r with output := { r.output with inPlace := true } }
  else .error .refuse

/-- A flag counts once, and only where the form accepts it. -/
def setDiff (accepts : Accepts) (r : Reading) : Except Stop Reading :=
  if accepts.output ∧ !r.output.diff then .ok { r with output := { r.output with diff := true } }
  else .error .refuse

/-- Reads a number that fits 64 bits, perhaps with a plus sign. -/
def number? (t : Text) : Option Nat :=
  let digits := match t with
    | '+' :: r => r
    | r => r
  let n := Text.toNatDigits digits
  if !digits.isEmpty ∧ digits.all Text.isDigit ∧ n < UInt64.size then some n else none

/-- An index counts once, where the form accepts it, and is a number. -/
def setIndex (accepts : Accepts) (r : Reading) (value : Text) : Except Stop Reading :=
  match accepts.index, r.index, number? value with
  | true, none, some n => .ok { r with index := some n }
  | _, _, _ => .error .refuse

/-- The options of one letter each in a word, after its dash. -/
def letters (accepts : Accepts) (r : Reading) : Text → Except Stop Reading
  | [] => .ok r
  | c :: rest =>
    if c = 'h' then .error .help
    else if c = 'i' then do (← r.setInPlace accepts).letters accepts rest
    else .error .refuse

/-- A word beyond those that the form takes is refused. -/
def addWord (count : Nat) (r : Reading) (word : Text) : Except Stop Reading :=
  if r.words.length < count then .ok { r with words := word :: r.words } else .error .refuse

/-- Whether a word is an option. A lone dash is none. -/
def isOption (word : Text) : Bool := word.head? == some '-' && 2 ≤ word.length

/-- Reads the words of a command that takes `count` of them. -/
def all (accepts : Accepts) (count : Nat) (r : Reading) : List Text → Except Stop Reading
  | [] => if r.words.length = count then .ok r else .error .refuse
  | word :: rest =>
    if word = "--".toList then do
      let r ← rest.foldlM (addWord count) r
      if r.words.length = count then return r else throw .refuse
    else if !isOption word then do (← r.addWord count word).all accepts count rest
    else if word = "--help".toList then .error .help
    else if word = "--in-place".toList then do (← r.setInPlace accepts).all accepts count rest
    else if word = "--diff".toList then do (← r.setDiff accepts).all accepts count rest
    else if word = "--index".toList then
      match rest with
      | [] => .error .refuse
      | value :: rest =>
        if isOption value then .error .refuse
        else do (← r.setIndex accepts value).all accepts count rest
    else match Text.dropStart? word "--index=".toList with
      | some value => do (← r.setIndex accepts value).all accepts count rest
      | none =>
        if word.take 2 = "--".toList then .error .refuse
        else do (← r.letters accepts (word.drop 1)).all accepts count rest

end Reading

/-! ## Commands -/

/-- A command that takes words. -/
structure Form where
  name : Text
  count : Nat
  accepts : Accepts
  /-- The command of as many words as it takes. -/
  build : Reading → List Text → Option Command

/-- A form that edits a file. -/
def editForm (name : String) (count : Nat) (takesIndex : Bool)
    (request : Reading → List Text → Option Request) : Form where
  name := name.toList
  count := count
  accepts := ⟨true, takesIndex⟩
  build r
    | file :: words => (request r words).map fun q => .edit file q r.output
    | [] => none

/-- The forms of a command line, each with the words that it takes. -/
def forms : List Form := [
  editForm "delete" 2 false fun _ words => match words with
    | [path] => some (.delete path)
    | _ => none,
  editForm "update" 3 false fun _ words => match words with
    | [path, value] => some (.update path value)
    | _ => none,
  editForm "rename" 3 false fun _ words => match words with
    | [path, newName] => some (.rename path newName)
    | _ => none,
  editForm "map-add" 4 false fun _ words => match words with
    | [path, key, value] => some (.mapAdd path key value)
    | _ => none,
  editForm "seq-add" 3 true fun r words => match words with
    | [path, value] => some (.seqAdd path value r.index)
    | _ => none,
  ⟨"apply".toList, 2, ⟨true, false⟩, fun r words => match words with
    | [file, script] => some (.apply file script r.output)
    | _ => none⟩,
  ⟨"get".toList, 2, ⟨false, false⟩, fun _ words => match words with
    | [file, path] => some (.get file path)
    | _ => none⟩,
  ⟨"schema".toList, 0, ⟨false, false⟩, fun _ _ => some .schema⟩]

/-- The command with the given name and words. -/
def command (name : Text) (words : List Text) : Invocation :=
  match forms.find? fun f => f.name == name with
  | none => .refuse
  | some form =>
    match Reading.start.all form.accepts form.count words with
    | .error stop => stop.invocation
    | .ok r => ((form.build r r.words.reverse).map .run).getD .refuse

/-- The words after `help`: none, or the name of a command. -/
def helpOn (words : List Text) : Invocation :=
  match words with
  | [] => .help
  | [name] => if name = "help".toList ∨ forms.any (·.name == name) then .help else .refuse
  | _ => .refuse

/-- What the arguments ask for. -/
def parse : List Text → Invocation
  | [] => .refuse
  | first :: rest =>
    if first = "--version".toList then .version
    else if first = "--help".toList then .help
    else if first.take 2 = "-V".toList then .version
    else if first.take 2 = "-h".toList then .help
    else if first = "help".toList then helpOn rest
    else command first rest

end CommandLine

end YamlEdit
