import YamlEdit.Text.Indentation
import YamlEdit.Value.Write

/-!
# Fragments

A value as a text that can be put into a document: its written form without the line feeds at the
end.
-/

namespace YamlEdit

/-- A value as text that can be put into a document. -/
structure Fragment where
  text : Text
  /-- Whether the value is a sequence or mapping that is not empty, so that it takes lines of its
  own. -/
  isContainer : Bool
  deriving DecidableEq, Repr

namespace Fragment

/-- The text of a value without the line feeds around it. -/
def ofValue (v : Value) : Except Value.WriteFault Fragment := do
  return ⟨(← v.render).trimLineFeeds, v.isContainer⟩

/-- Whether the text takes more than one line. -/
def isMultiline (f : Fragment) : Bool := f.text.contains '\n'

/-- Whether the fragment fits between brackets. -/
def isInline (f : Fragment) : Bool := !f.isContainer && !f.isMultiline

/-- The text with its lines moved to a column. -/
def indented (f : Fragment) (column : Nat) (indentFirst : Bool) : Text :=
  Indentation.reindent column indentFirst f.text

end Fragment

end YamlEdit
