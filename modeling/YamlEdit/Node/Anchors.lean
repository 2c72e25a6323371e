import YamlEdit.Node.Basic

/-!
# Anchors

The anchors of a tree with the addresses of the nodes that carry them. Only values are searched:
an anchor on a mapping key, or inside one, is not found. Of two anchors with one name the later
one counts.
-/

namespace YamlEdit

/-- Whether anchors are looked for below child number `index` of a node of this kind. -/
def Kind.searchesChild (kind : Kind) (index : Nat) : Bool :=
  match kind with
  | .stream | .document => index == 0
  | .sequence _ => true
  | .mapping _ => index % 2 == 1
  | .scalar _ | .aliasTo _ => false

namespace Node

mutual

/-- The anchors below a node, in the order in which they are written; `address` is the node's
own. -/
def anchorsFrom (address : Address) : Node → List (Text × Address)
  | ⟨kind, _, _, anchor, children⟩ =>
    (anchor.map fun name => (name, address)).toList ++ anchorsInside address kind 0 children

/-- The anchors below the children of a node, from child number `index` on. -/
def anchorsInside (address : Address) (kind : Kind) (index : Nat) :
    List Node → List (Text × Address)
  | [] => []
  | child :: rest =>
    (if kind.searchesChild index then child.anchorsFrom (address ++ [index]) else []) ++
      anchorsInside address kind (index + 1) rest

end

end Node

/-- The anchors of a tree, in the order in which they are written. -/
structure AnchorTable where
  anchors : List (Text × Address)
  deriving DecidableEq, Repr

namespace AnchorTable

/-- The anchors of a tree, in the order of the text. -/
def ofRoot (root : Node) : AnchorTable := ⟨root.anchorsFrom []⟩

/-- The address of the last node with the given anchor. -/
def get? (table : AnchorTable) (name : Text) : Option Address := table.anchors.reverse.lookup name

/-- The names, each one once. -/
def names (table : AnchorTable) : List Text := (table.anchors.map (·.1)).eraseDups

/-- The number of names. -/
def size (table : AnchorTable) : Nat := table.names.length

/-- Whether there is no anchor. -/
def isEmpty (table : AnchorTable) : Bool := table.anchors.isEmpty

end AnchorTable

end YamlEdit
