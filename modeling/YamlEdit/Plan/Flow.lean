import YamlEdit.Edit.Snapshot
import YamlEdit.Edit.Splice

/-!
# Edits in brackets

Entries are taken out with one of the commas around them and put in with one of their own. What
is put in has to fit on one line.
-/

namespace YamlEdit

namespace Plan.Flow

open EditError (Result)

/-- The text of a value between brackets. -/
def inline (f : Fragment) (container : Node) : Result Text :=
  if f.isInline then .ok f.text.trim
  else .error (.unsupported (.complexInFlow container.kind container.start))

/-- What is inside the brackets of a collection. -/
def inside (s : Snapshot) (container : Node) : Nat × Nat :=
  let start := s.startOf container + 1
  (start, max (s.stopOf container - 1) start)

/-- Fills an empty collection. -/
def fill (s : Snapshot) (container : Node) (content : Text) : Splice :=
  let (start, stop) := inside s container
  Splice.replace start stop (' ' :: content ++ [' '])

/-- Puts an entry behind the last one. -/
def append (s : Snapshot) (container : Node) (content : Text) : Splice :=
  match container.children.getLast? with
  | some last => Splice.insert (s.stopOf last) (", ".toList ++ content)
  | none => fill s container content

/-- Adds a pair at the end of a mapping. -/
def addPair (s : Snapshot) (mapping : Node) (key value : Fragment) : Result Splice := do
  return append s mapping (key.text ++ ": ".toList ++ (← inline value mapping))

/-- Adds an item in front of the one at `index`, or at the end. -/
def addItem (s : Snapshot) (sequence : Node) (item : Fragment) (index : Option Nat) :
    Result Splice := do
  let content ← inline item sequence
  match index.bind (sequence.children[·]?) with
  | some next => return Splice.insert (s.startOf next) (content ++ ", ".toList)
  | none => return append s sequence content

/-- The text behind the comma that follows, in `rest`, after white space only. -/
def afterComma (rest : Text) : Option Text :=
  match rest.dropWhile Text.isAsciiBlank with
  | ',' :: after => some after
  | _ => none

/-- Takes out an entry that another one follows, with the comma behind it: the whole line if the
entry has one of its own, or else one space after the comma too. -/
def removeWithNext (s : Snapshot) (start stop : Nat) : Result Splice := do
  let after? := match s.source.dropBytes stop with
    | .ok rest => afterComma rest
    | .error _ => none
  match after? with
  | none => return Splice.remove start stop
  | some after =>
    let cut := Text.size s.source - Text.size after
    let before ← s.linePrefix start
    let line : Text := after.takeWhile (· ≠ '\n')
    if after.contains '\n' ∧ before.allBlank ∧ line.allBlank then
      return Splice.remove (start - Text.size before) (cut + Text.size line + 1)
    else return Splice.remove start (if after.head? = some ' ' then cut + 1 else cut)

/-- Takes out the last entry, with the comma in front of it. -/
def removeLast (s : Snapshot) (start stop : Nat) : Result Splice := do
  let before := (← s.source.takeBytes start).trimEnd
  if before.getLast? = some ',' then return Splice.remove (Text.size before - 1) stop
  else return Splice.remove start stop

/-- Takes out the entry number `position`, which reaches from `first` to `last`. -/
def remove (s : Snapshot) (parent first last : Node) (position : Nat) : Result Splice :=
  let start := s.startOf first
  let stop := s.stopOf last
  let entries := parent.entryCount
  if entries = 1 then
    let (start, stop) := inside s parent
    .ok (Splice.remove start stop)
  else if position + 1 < entries then removeWithNext s start stop
  else removeLast s start stop

end Plan.Flow

end YamlEdit
