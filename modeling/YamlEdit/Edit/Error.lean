import YamlEdit.Node.Locate
import YamlEdit.Selector.Parse
import YamlEdit.Value.Fragment
import YamlEdit.Value.Read

/-!
# Errors of edits

Every way in which loading, finding or editing can fail, and its wording.
-/

namespace YamlEdit

/-- The edits that need an entry of a collection. -/
inductive EntryAction where
  | delete
  | update
  | rename
  deriving DecidableEq, Repr

/-- The verb that messages use. -/
def EntryAction.name : EntryAction → Text
  | delete => "delete".toList
  | update => "update".toList
  | rename => "rename".toList

/-- A node of the wrong kind for an edit. -/
inductive Mismatch where
  | root (action : EntryAction)
  | updateInside (parent : Kind)
  | renameElement (path : Text) (parent : Kind)
  | notMapping (path : Text) (kind : Kind)
  | notSequence (path : Text) (kind : Kind)
  deriving DecidableEq, Repr

/-- Why the nodes do not fit. -/
def Mismatch.message : Mismatch → Text
  | root action => "cannot ".toList ++ action.name ++ " the document root".toList
  | updateInside parent => "cannot update a value inside a ".toList ++ parent.name
  | renameElement path parent =>
    "`".toList ++ path ++ "` is a ".toList ++ parent.name ++
      " element, only mapping keys can be renamed".toList
  | notMapping path kind =>
    "`".toList ++ path ++ "` is a ".toList ++ kind.name ++
      ", keys can only be added to a mapping".toList
  | notSequence path kind =>
    "`".toList ++ path ++ "` is a ".toList ++ kind.name ++
      ", items can only be added to a sequence".toList

/-- A value that does not fit where it should go. -/
inductive Unsupported where
  | complexInFlow (container : Kind) (start : Position)
  | complexUpdate (path : Text) (parent : Kind)
  | multilineKey (key : Text)
  deriving DecidableEq, Repr

/-- Why the edit is not supported. -/
def Unsupported.message : Unsupported → Text
  | complexInFlow container start =>
    "complex values cannot be added to the flow ".toList ++ container.name ++ " at ".toList ++
      start.display
  | complexUpdate path parent =>
    "`".toList ++ path ++ "` is inside a flow ".toList ++ parent.name ++
      "; only single-line scalars fit there".toList
  | multilineKey key => "key ".toList ++ Text.quoted key ++ " does not fit on one line".toList

/-- Why an edit, or a look at a text, fails. -/
inductive EditError where
  /-- The text is no document. -/
  | malformed (error : SyntaxError) (source : Text)
  | path (path : Text) (error : PathError)
  | unknownAnchor (name : Text)
  | mismatch (m : Mismatch)
  | unsupported (u : Unsupported)
  | notFound (path : Text)
  | shape (fault : ShapeFault)
  | unwritable (fault : Value.WriteFault)
  | unreadable (error : Value.ReadError)
  | badOffset (offset : BadOffset)

/-- The wording of a path that cannot be read. -/
def PathError.describe (e : PathError) (path : Text) : Text :=
  "Invalid path `".toList ++ path ++ "` at index ".toList ++ Text.ofNat e.position ++ ": ".toList ++
    e.fault.message

/-- The wording of a text that is no document, which it quotes. -/
def SyntaxError.describe (e : SyntaxError) (source : Text) : Text :=
  "YAML syntax error at line ".toList ++ Text.ofNat e.mark.line ++ ", column ".toList ++
    Text.ofNat (e.mark.column + 1) ++ ": ".toList ++ e.fault.message ++
    "\nInput was:\n".toList ++ source

namespace EditError

/-- An error in words. -/
def message : EditError → Text
  | malformed e source => e.describe source
  | .path p e => e.describe p
  | unknownAnchor name => "Unknown anchor `".toList ++ name ++ ['`']
  | mismatch m => "Type mismatch: ".toList ++ m.message
  | unsupported u => "Unsupported edit: ".toList ++ u.message
  | notFound p => "Path `".toList ++ p ++ "` does not match any node".toList
  | shape fault => "Internal error: ".toList ++ fault.message
  | unwritable fault => "Serialization error: ".toList ++ fault.message
  | unreadable e => "Serialization error: ".toList ++ e.message
  | badOffset e => "offset ".toList ++ Text.ofNat e.offset ++ " is inside a character".toList

/-- The error of a text whose tree cannot be built. -/
def ofTree (source : Text) : TreeError → EditError
  | .malformed e => malformed e source
  | .shape fault => shape fault
  | .badOffset e => badOffset e

/-- A failed search is a failed edit. -/
def ofLocate : LocateError → EditError
  | .unknownAnchor name => unknownAnchor name
  | .shape fault => shape fault

/-- A computation that can fail with an error of an edit. -/
abbrev Result := Except EditError

instance : MonadLift (Except BadOffset) Result := ⟨fun x => x.mapError badOffset⟩

instance : MonadLift (Except LocateError) Result := ⟨fun x => x.mapError ofLocate⟩

instance : MonadLift (Except Value.WriteFault) Result := ⟨fun x => x.mapError unwritable⟩

end EditError

end YamlEdit
