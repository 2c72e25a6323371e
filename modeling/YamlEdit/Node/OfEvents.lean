import YamlEdit.Event.OfTokens
import YamlEdit.Node.Extent

/-!
# From events to the tree

`Node.ofEvents` folds the events of a document stream into its tree. Open collections wait on a
stack; a closing event turns the innermost one into a node. The places of nodes are derived from
the marks of the events, the text around them and the places of the children.
-/

namespace YamlEdit

/-- What events have to be but need not be by their type, and what the tree then has to be. -/
inductive ShapeFault where
  | expectedStreamStart
  | betweenDocuments
  | expectedNode
  | eventsEnded
  | unclosedCollection
  | oddMapping (start : Position)
  | noNode (address : Address)
  | anchorOutside (name : Text)
  | keyNotValue (index : Nat) (start : Position)
  | emptyBlockMapping (start : Position)
  | emptyBlockSequence (start : Position)
  deriving DecidableEq, Repr

/-- A fault in words. -/
def ShapeFault.message : ShapeFault → Text
  | expectedStreamStart => "expected stream start".toList
  | betweenDocuments => "unexpected event between documents".toList
  | expectedNode => "unexpected event where a node was expected".toList
  | eventsEnded => "event stream ended inside a document".toList
  | unclosedCollection => "collection is never closed".toList
  | oddMapping start =>
    "mapping at ".toList ++ start.display ++ " has an odd number of children".toList
  | noNode address =>
    "no node at [".toList ++ (", ".toList).intercalate (address.map Text.ofNat) ++ [']']
  | anchorOutside name => "anchor `".toList ++ name ++ "` points outside the tree".toList
  | keyNotValue index start =>
    "child ".toList ++ Text.ofNat index ++ " of the mapping at ".toList ++ start.display ++
      " is a key, not a value".toList
  | emptyBlockMapping start =>
    "block mapping at ".toList ++ start.display ++ " has no entries".toList
  | emptyBlockSequence start =>
    "block sequence at ".toList ++ start.display ++ " has no entries".toList

/-- Why a text has no tree. -/
inductive TreeError where
  | malformed (error : SyntaxError)
  | shape (fault : ShapeFault)
  | badOffset (offset : BadOffset)
  deriving DecidableEq, Repr

/-- A text with the conversions that its marks need. -/
structure SourceMap where
  source : Text
  lines : LineIndex
  deriving Repr

namespace SourceMap

/-- A text with its lines. -/
def ofText (source : Text) : SourceMap := ⟨source, LineIndex.ofText source⟩

/-- The bytes of the first `index` characters; beyond the end, of all of them. -/
def bytesOf : (index : Nat) → Text → Nat
  | 0, _ => 0
  | _ + 1, [] => 0
  | n + 1, c :: t => c.utf8Size + bytesOf n t

/-- The byte offset of a mark, which counts characters. -/
def offsetOfMark (m : SourceMap) (mark : Mark) : Nat := bytesOf mark.index m.source

/-- The position of a byte offset. -/
def position (m : SourceMap) (offset : Nat) : Position := m.lines.position offset

/-- The byte offset of a position. -/
def offset (m : SourceMap) (p : Position) : Nat := m.lines.offset p

end SourceMap

namespace TreeBuilder

/-- A collection whose end is still to come. -/
structure OpenCollection where
  isMapping : Bool
  /-- Where it starts, past its properties. -/
  opened : Nat
  anchor : Option Text
  /-- The children so far, the last one first. -/
  children : List Node
  deriving Repr

/-- Where in the stream the next event stands. -/
inductive Stage where
  | beforeStream
  | betweenDocuments
  /-- Inside a document, in the given collections, innermost first. -/
  | inside (nest : List OpenCollection)
  /-- After the content of a document. -/
  | afterContent
  | ended
  deriving Repr

/-- How far the building of a tree has got. -/
structure State where
  stage : Stage
  /-- The documents so far, the last one first. -/
  documents : List Node
  /-- The names of the anchors so far by number, the latest one first. -/
  labels : List (Nat × Text)
  deriving Repr

/-- A step of building a tree. -/
abbrev Build := StateT State (Except TreeError)

/-- The events are not those of a stream. -/
def fail {α : Type} (fault : ShapeFault) : Build α := fun _ => .error (.shape fault)

/-- A computation on offsets, in the builder. -/
def offsets {α : Type} (x : Except BadOffset α) : Build α := fun s =>
  match x with
  | .ok a => .ok (a, s)
  | .error e => .error (.badOffset e)

/-- The name of an anchor: what is written in front of the node. -/
def anchorName (m : SourceMap) (anchor start : Nat) : Except BadOffset Text :=
  (·.getD ("anchor-".toList ++ Text.ofNat anchor)) <$> Extent.anchorLabel m.source start

/-- Notes the name of a new anchor; anchor zero is none. -/
def label (m : SourceMap) (anchor start : Nat) : Build (Option Text) := do
  if anchor = 0 then return none
  let name ← offsets (anchorName m anchor start)
  modify fun s => { s with labels := (anchor, name) :: s.labels }
  return some name

/-- The end of the text from `start` to `stop` without the white space at its end. -/
def trimmedEnd (m : SourceMap) (start stop : Nat) : Except BadOffset Nat := do
  let content ← m.source.slice start stop
  return start + Text.size (Text.trimEnd content)

/-- Where a scalar is whose content reaches from `start` to `stop`, and its text. Both ends depend
on its style; a plain scalar of no width is a missing value. -/
def scalarExtent (m : SourceMap) (text : Text) (style : ScalarStyle) (start stop : Nat) :
    Except BadOffset (Nat × Nat × Text) := do
  match style with
  | .singleQuoted | .doubleQuoted =>
    let close ← Extent.quotedEnd m.source start
    return (start, close.getD stop, text)
  | .literal | .folded =>
    let stop ← trimmedEnd m start stop
    let header ← Extent.blockHeader m.source start
    return (header.getD start, stop, text)
  | .plain =>
    if start = stop then
      let place := (← Extent.indicatorEnd m.source start).getD start
      return (place, place, [])
    else
      let stop ← trimmedEnd m start stop
      return (start, stop, text)

/-- A scalar starts behind its properties. -/
def scalar (m : SourceMap) (text : Text) (style : ScalarStyle) (anchor : Nat) (span : Span) :
    Build Node := do
  let marked := m.offsetOfMark span.start
  let start ← offsets (Extent.skipProperties m.source marked)
  let stop := max (m.offsetOfMark span.stop) start
  let (start, stop, text) ← offsets (scalarExtent m text style start stop)
  let anchor ← label m anchor (min marked start)
  return ⟨.scalar text, m.position start, m.position stop, anchor, []⟩

/-- The name that an alias stands for: that of its anchor, or else the one that is written. -/
def aliasName (m : SourceMap) (label : Option Text) (start stop : Nat) : Except BadOffset Text :=
  match label with
  | some name => .ok name
  | none => (·.dropWhile (· == '*')) <$> m.source.slice start stop

/-- An alias ends with its name. -/
def aliasNode (m : SourceMap) (anchor : Nat) (span : Span) : Build Node := do
  let start := m.offsetOfMark span.start
  let stop := (← offsets (Extent.aliasEnd m.source start)).getD (m.offsetOfMark span.stop)
  let name ← offsets (aliasName m ((← get).labels.lookup anchor) start stop)
  return ⟨.aliasTo name, m.position start, m.position stop, none, []⟩

/-- Opens a collection. Its anchor is named before its children are met, which may refer to it. -/
def openCollection (m : SourceMap) (isMapping : Bool) (anchor : Nat) (span : Span) :
    Build OpenCollection := do
  let marked := m.offsetOfMark span.start
  let opened ← offsets (Extent.skipProperties m.source marked)
  let anchor ← label m anchor marked
  return ⟨isMapping, opened, anchor, []⟩

/-- Where a block collection starts: at its first child, or at the `-` in front of that. -/
def blockStart (m : SourceMap) (c : OpenCollection) (first : Option Nat) : Except BadOffset Nat := do
  if c.isMapping then return first.getD c.opened
  let marker ←
    match first with
    | some place => Extent.itemMarker m.source place
    | none => pure none
  match marker with
  | some place => return place
  | none =>
    let rest ← m.source.dropBytes c.opened
    if rest.headD ' ' = '-' then return c.opened
    return first.getD c.opened

/-- How a collection is written: in brackets, if it starts with one. -/
def collectionStyle (m : SourceMap) (c : OpenCollection) : Except BadOffset Style := do
  let rest ← m.source.dropBytes c.opened
  return if rest.headD ' ' = (if c.isMapping then '\x7b' else '[') then .flow else .block

/-- Where a collection of the given style with the given children starts and stops. -/
def collectionExtent (m : SourceMap) (c : OpenCollection) (style : Style) (children : List Node) :
    Except BadOffset (Nat × Nat) := do
  let first := children.head?.map fun child => m.offset child.start
  let last := (children.map fun child => m.offset child.stop).max?
  match style with
  | .flow =>
    let place := max (last.getD (c.opened + 1)) (c.opened + 1)
    let closer := if c.isMapping then '\x7d' else ']'
    return (c.opened, ← Extent.flowEnd m.source place closer)
  | .block =>
    let start ← blockStart m c first
    return (start, last.getD start)

/-- Turns a collection into a node. -/
def close (m : SourceMap) (c : OpenCollection) : Build Node := do
  let children := c.children.reverse
  if c.isMapping ∧ children.length % 2 ≠ 0 then fail (.oddMapping (m.position c.opened))
  else
    let style ← offsets (collectionStyle m c)
    let (start, stop) ← offsets (collectionExtent m c style children)
    let kind := if c.isMapping then Kind.mapping style else .sequence style
    return ⟨kind, m.position start, m.position stop, c.anchor, children⟩

/-- Moves on to another part of the stream. -/
def setStage (stage : Stage) : Build Unit := modify fun s => { s with stage := stage }

/-- Puts a node where it belongs: into the innermost open collection, or into its document. -/
def place (nest : List OpenCollection) (node : Node) : Build Unit :=
  match nest with
  | c :: outer => setStage (.inside ({ c with children := node :: c.children } :: outer))
  | [] =>
    modify fun s =>
      { s with
        stage := .afterContent
        documents := ⟨.document, node.start, node.stop, none, [node]⟩ :: s.documents }

/-- Reads an event inside a document. -/
def insideEvent (m : SourceMap) (nest : List OpenCollection) (event : Event) (span : Span) :
    Build Unit := do
  match event, nest with
  | .scalar text style anchor, _ => do place nest (← scalar m text style anchor span)
  | .aliasTo anchor, _ => do place nest (← aliasNode m anchor span)
  | .sequenceStart anchor, _ => do
    let c ← openCollection m false anchor span
    setStage (.inside (c :: nest))
  | .mappingStart anchor, _ => do
    let c ← openCollection m true anchor span
    setStage (.inside (c :: nest))
  | .sequenceEnd, c :: outer | .mappingEnd, c :: outer => do place outer (← close m c)
  | _, _ => fail .expectedNode

/-- Reads an event between documents. -/
def betweenEvent (event : Event) : Build Unit :=
  match event with
  | .documentStart => setStage (.inside [])
  | .streamEnd => setStage .ended
  | _ => fail .betweenDocuments

/-- Reads one event. -/
def step (m : SourceMap) (event : Event) (span : Span) : Build Unit := do
  match (← get).stage with
  | .beforeStream =>
    if event = .streamStart then setStage .betweenDocuments else fail .expectedStreamStart
  | .betweenDocuments => betweenEvent event
  | .inside nest => insideEvent m nest event span
  | .afterContent => if event = .documentEnd then setStage .betweenDocuments else betweenEvent event
  | .ended => pure ()

/-- Reads events one after the other. -/
def steps (m : SourceMap) : List (Event × Span) → Build Unit
  | [] => pure ()
  | (event, span) :: rest => do
    step m event span
    steps m rest

/-- Nothing has been built. -/
def start : State := ⟨.beforeStream, [], []⟩

/-- The tree, when all events are read. -/
def finish (m : SourceMap) (s : State) : Except TreeError Node :=
  match s.stage with
  | .beforeStream => .error (.shape .expectedStreamStart)
  | .inside [] => .error (.shape .eventsEnded)
  | .inside _ => .error (.shape .unclosedCollection)
  | .betweenDocuments | .afterContent | .ended =>
    .ok ⟨.stream, ⟨0, 0⟩, m.position (Text.size m.source), none, s.documents.reverse⟩

end TreeBuilder

namespace Node

/-- The tree that the events describe over a text. -/
def ofEvents (m : SourceMap) (events : List (Event × Span)) : Except TreeError Node := do
  let ((), s) ← (TreeBuilder.steps m events).run TreeBuilder.start
  TreeBuilder.finish m s

/-- The tree of a text. -/
def ofText (m : SourceMap) : Except TreeError Node :=
  match Event.ofDocument m.source with
  | .error e => .error (.malformed e)
  | .ok events => ofEvents m events

end Node

end YamlEdit
