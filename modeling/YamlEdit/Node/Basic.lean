import YamlEdit.Text.LineIndex

/-!
# The node tree

A document stream as a tree of nodes that know where they are written. The children of a mapping
alternate key and value. A node is named by its `Address`, the child indices that lead to it from
the root.
-/

namespace YamlEdit

/-- How a collection is written. -/
inductive Style where
  /-- By indentation, a line for every entry. -/
  | block
  /-- In brackets. -/
  | flow
  deriving DecidableEq, Repr

/-- What a node is. -/
inductive Kind where
  | stream
  | document
  | mapping (style : Style)
  | sequence (style : Style)
  /-- A scalar with its decoded text. -/
  | scalar (text : Text)
  /-- A reference to the node with the given anchor. -/
  | aliasTo (name : Text)
  deriving DecidableEq, Repr

/-- The child indices from the root to a node. -/
abbrev Address := List Nat

/-- The address of the node above; the root has none. -/
def Address.parent? (a : Address) : Option Address := if a.isEmpty then none else some a.dropLast

namespace Kind

/-- The word that messages use. -/
def name : Kind → Text
  | stream => "stream".toList
  | document => "document".toList
  | mapping _ => "mapping".toList
  | sequence _ => "sequence".toList
  | scalar _ => "scalar".toList
  | aliasTo _ => "alias".toList

/-- The style of a collection. -/
def style? : Kind → Option Style
  | mapping style | sequence style => some style
  | _ => none

/-- Whether this is a mapping. -/
def isMapping : Kind → Bool
  | mapping _ => true
  | _ => false

/-- Whether this is a sequence. -/
def isSequence : Kind → Bool
  | sequence _ => true
  | _ => false

/-- A stream or a document, which only wraps what is inside. -/
def isWrapper : Kind → Bool
  | stream | document => true
  | _ => false

/-- Whether this is a collection in flow style. -/
def isFlow (kind : Kind) : Bool := kind.style? == some .flow

end Kind

/-- A node of a document, with the place in the text that is its own. -/
structure Node where
  kind : Kind
  start : Position
  /-- The end of what belongs to the node itself. -/
  stop : Position
  anchor : Option Text
  children : List Node
  deriving Repr

namespace Node

/-- The decoded text of a scalar. -/
def scalar? (n : Node) : Option Text :=
  match n.kind with
  | .scalar text => some text
  | _ => none

/-- The name that an alias refers to. -/
def alias? (n : Node) : Option Text :=
  match n.kind with
  | .aliasTo name => some name
  | _ => none

/-- Whether this is a mapping. -/
def isMapping (n : Node) : Bool := n.kind.isMapping

/-- Whether this is a sequence. -/
def isSequence (n : Node) : Bool := n.kind.isSequence

/-- Whether this is a collection in flow style. -/
def isFlow (n : Node) : Bool := n.kind.isFlow

/-- The number of pairs of a mapping, or of children of another node. -/
def entryCount (n : Node) : Nat :=
  if n.isMapping then n.children.length / 2 else n.children.length

/-- The node at an address below this one. -/
def descendant? (n : Node) : Address → Option Node
  | [] => some n
  | i :: rest =>
    match n.children[i]? with
    | some child => child.descendant? rest
    | none => none

end Node

end YamlEdit
