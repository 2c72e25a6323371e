import YamlEdit.Token.Basic

/-!
# Events

A document as the sequence of its openings, closings and leaves. Anchors are numbered from one in
the order in which they are written, and an alias carries the number of its anchor; zero stands
for no anchor.
-/

namespace YamlEdit

/-- What the tokens of a text say, in its order. Anchors are numbered from 1 on; 0 is none. -/
inductive Event where
  | streamStart
  | streamEnd
  | documentStart
  | documentEnd
  | scalar (text : Text) (style : ScalarStyle) (anchor : Nat)
  | sequenceStart (anchor : Nat)
  | sequenceEnd
  | mappingStart (anchor : Nat)
  | mappingEnd
  | aliasTo (anchor : Nat)
  deriving DecidableEq, Repr

/-- A value that is not written: a plain scalar of no width. -/
def Event.missing : Event := .scalar ['~'] .plain 0

end YamlEdit
