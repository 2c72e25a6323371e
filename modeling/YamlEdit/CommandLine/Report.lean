import YamlEdit.Edit.Editor
import YamlEdit.Edit.Script

/-!
# Reports of failures

A failure is told as a chain of messages, each one with the cause of the one in front of it.
-/

namespace YamlEdit

namespace CommandLine

/-- Why a file cannot be read. -/
inductive FileFault where
  | missing
  | isDirectory
  | notDirectory
  | nameTooLong
  | other (message : Text)
  deriving DecidableEq, Repr

/-- The words of the operating system. -/
def FileFault.message : FileFault → Text
  | missing => "No such file or directory (os error 2)".toList
  | isDirectory => "Is a directory (os error 21)".toList
  | notDirectory => "Not a directory (os error 20)".toList
  | nameTooLong => "File name too long (os error 36)".toList
  | other message => message

/-- What is wrong, and its causes, the nearest one first. -/
structure Failure where
  message : Text
  causes : List Text
  deriving DecidableEq, Repr

namespace Failure

/-- The failure of what was to be done, caused by another one. -/
def during (context : Text) (f : Failure) : Failure := ⟨context, f.message :: f.causes⟩

/-- A failure without a cause. -/
def ofText (message : Text) : Failure := ⟨message, []⟩

/-- Values that cannot be written or read are the cause of the error around them. -/
def ofEdit (e : EditError) : Failure :=
  ⟨e.message, match e with
    | .unwritable fault => [fault.message]
    | .unreadable error => [error.message]
    | _ => []⟩

/-- The failure to load a document. -/
def ofLoad (fault : FileFault) : Failure := ⟨"I/O error: ".toList ++ fault.message, [fault.message]⟩

/-- Every line but the first one behind the given margin. -/
def hang (margin : Text) (t : Text) : Text :=
  t.flatMap fun c => if c = '\n' then '\n' :: margin else [c]

/-- The causes, each one numbered. -/
def numbered (number : Nat) : List Text → Text
  | [] => []
  | cause :: rest =>
    let digits := Text.ofNat number
    '\n' :: Text.spaces (5 - digits.length) ++ digits ++ ": ".toList ++
      hang (Text.spaces 7) cause ++ numbered (number + 1) rest

/-- The failure as it is reported; one cause alone has no number. -/
def report (f : Failure) : Text :=
  "Error: ".toList ++ f.message ++
    (match f.causes with
    | [] => []
    | [cause] =>
      "\n\nCaused by:\n".toList ++ Text.spaces 4 ++ hang (Text.spaces 4) cause
    | causes => "\n\nCaused by:".toList ++ numbered 0 causes) ++ ['\n']

end Failure

end CommandLine

end YamlEdit
