import YamlEdit.Node.Anchors
import YamlEdit.Node.OfEvents
import YamlEdit.Selector.Basic

/-!
# Finding a node

A selector is followed from the content of the first document, one step at a time. Aliases are
followed to the node that carries the anchor, so that the place found is always the place where
the node is written.
-/

namespace YamlEdit

/-- A root and the anchors below it. -/
structure Tree where
  root : Node
  anchors : AnchorTable
  deriving Repr

/-- A tree with the table of its anchors. -/
def Tree.ofRoot (root : Node) : Tree := ⟨root, AnchorTable.ofRoot root⟩

/-- Where a selector leads. -/
structure Location where
  target : Address
  /-- The node above the target, which is the one above the anchor if an alias was followed.
  The content of the document has none. -/
  parent : Option Address
  deriving DecidableEq, Repr

/-- The number of the target among the children of its parent. -/
def Location.index? (l : Location) : Option Nat :=
  match l.parent with
  | none => none
  | some _ => l.target.getLast?

/-- Why a search ends without an answer. -/
inductive LocateError where
  | unknownAnchor (name : Text)
  | shape (fault : ShapeFault)
  deriving DecidableEq, Repr

namespace Tree

/-- The node at an address, which has to exist. -/
def node (t : Tree) (address : Address) : Except LocateError Node :=
  match t.root.descendant? address with
  | some n => .ok n
  | none => .error (.shape (.noNode address))

/-- The node that carries an anchor, and its address. -/
def resolve (t : Tree) (name : Text) : Except LocateError (Address × Node) :=
  match t.anchors.get? name with
  | none => .error (.unknownAnchor name)
  | some address =>
    match t.root.descendant? address with
    | some n => .ok (address, n)
    | none => .error (.shape (.anchorOutside name))

/-- The node itself, or the one that it refers to. -/
def deref (t : Tree) (n : Node) : Except LocateError Node :=
  match n.alias? with
  | some name => (·.2) <$> t.resolve name
  | none => .ok n

/-- Goes down through wrappers that are not empty. -/
def unwrap (t : Tree) : (fuel : Nat) → Address → Except LocateError (Address × Node)
  | 0, address => do return (address, ← t.node address)
  | fuel + 1, address => do
    let n ← t.node address
    if n.kind.isWrapper ∧ !n.children.isEmpty then t.unwrap fuel (address ++ [0])
    else return (address, n)

/-- The place that a step really leads to: inside wrappers, and at the anchor of an alias, which
is neither an alias nor a wrapper. A wrapper holds at most one more. -/
def settle (t : Tree) (address : Address) (parent : Option Address) :
    Except LocateError Location := do
  let (address, n) ← t.unwrap 2 address
  match n.alias? with
  | some name => do
    let (anchored, _) ← t.resolve name
    return ⟨anchored, anchored.parent?⟩
  | none => return ⟨address, parent⟩

/-- The number of the value whose key has the given text, in the children of a mapping from
number `index` on. -/
def valueIndex? (name : Text) : (index : Nat) → List Node → Option Nat
  | index, key :: _ :: rest =>
    if key.scalar? = some name then some (index + 1) else valueIndex? name (index + 2) rest
  | _, _ => none

/-- The number of the first child from number `index` on that satisfies `p`. -/
def findChild (p : Node → Except LocateError Bool) :
    (index : Nat) → List Node → Except LocateError (Option Nat)
  | _, [] => .ok none
  | index, child :: rest => do
    if ← p child then return some index else findChild p (index + 1) rest

/-- The number of the value for a key of a mapping. -/
def stepKey (n : Node) (name : Text) : Except LocateError (Option Nat) :=
  if n.children.length % 2 = 0 then .ok (valueIndex? name 0 n.children)
  else .error (.shape (.oddMapping n.start))

/-- Whether a child of a sequence is a mapping that holds `value` at `key`. -/
def matchesFilter (t : Tree) (name value : Text) (child : Node) : Except LocateError Bool := do
  let element ← t.deref child
  if !element.isMapping then return false
  match ← stepKey element name with
  | none => return false
  | some index =>
    match element.children[index]? with
    | none => return false
    | some held => return (← t.deref held).scalar? == some value

/-- The number of the child that a step leads to, if there is one. -/
def step (t : Tree) (n : Node) : Segment → Except LocateError (Option Nat)
  | .key name =>
    if n.isMapping then stepKey n name
    else if n.isSequence then
      findChild (fun child => return (← t.deref child).scalar? == some name) 0 n.children
    else .ok none
  | .index i => .ok (if n.isSequence ∧ i < n.children.length then some i else none)
  | .filter name value =>
    if n.isSequence then findChild (t.matchesFilter name value.text) 0 n.children else .ok none

/-- Follows steps from a place. -/
def follow (t : Tree) : List Segment → Location → Except LocateError (Option Location)
  | [], l => .ok (some l)
  | segment :: rest, l => do
    match ← t.step (← t.node l.target) segment with
    | none => return none
    | some index => t.follow rest (← t.settle (l.target ++ [index]) (some l.target))

/-- Where a selector leads, if it leads anywhere. -/
def locate (t : Tree) (s : Selector) : Except LocateError (Option Location) := do
  t.follow s.segments (← t.settle [] none)

end Tree

end YamlEdit
