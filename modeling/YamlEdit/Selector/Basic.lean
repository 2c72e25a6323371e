import YamlEdit.Text.Basic

/-!
# Selectors

A selector names a node of a document: mapping keys, sequence indices and filters, as in
`items[name='bob'].emails.0`.
-/

namespace YamlEdit

/-- The value that a filter compares with. -/
inductive FilterValue where
  | integer (n : Nat)
  | string (text : Text)
  | boolean (value : Bool)
  deriving DecidableEq, Repr

/-- One step of a selector. -/
inductive Segment where
  /-- A mapping key, or the text of a scalar element of a sequence. -/
  | key (name : Text)
  /-- An element of a sequence, counted from zero. -/
  | index (n : Nat)
  /-- The first mapping in a sequence that holds `value` at `key`. -/
  | filter (key : Text) (value : FilterValue)
  deriving DecidableEq, Repr

/-- A path and the steps it stands for. -/
structure Selector where
  path : Text
  segments : List Segment
  deriving DecidableEq, Repr

/-- No step at all: the content of the document. -/
def Selector.isRoot (s : Selector) : Bool := s.segments.isEmpty

namespace FilterValue

/-- The text a scalar must have to be equal to the value. -/
def text : FilterValue → Text
  | integer n => Text.ofNat n
  | string t => t
  | boolean true => "true".toList
  | boolean false => "false".toList

end FilterValue

namespace Segment

/-- Writes a backslash in front of every single quote. -/
def escapeQuotes (t : Text) : Text :=
  t.flatMap fun c => if c = '\'' then ['\\', '\''] else [c]

/-- The written form of a step; a string in a filter is quoted. -/
def display : Segment → Text
  | key name => name
  | index n => Text.ofNat n
  | filter name (.string t) => '[' :: name ++ ['=', '\''] ++ escapeQuotes t ++ ['\'', ']']
  | filter name value => '[' :: name ++ '=' :: value.text ++ [']']

end Segment

/-! ## What can be wrong with a path -/

/-- Why a path is no selector. -/
inductive PathFault where
  | indexTooLarge (digits : Text)
  | unterminatedFilter
  | missingEquals
  | emptyKey
  | notAnInteger (text : Text)
  | unexpectedEquals
  | textAfterQuote
  | unterminatedQuote (quote : Char)
  deriving DecidableEq, Repr

/-- A fault in words. -/
def PathFault.message : PathFault → Text
  | indexTooLarge digits => "index `".toList ++ digits ++ "` is too large".toList
  | unterminatedFilter => "unterminated filter, expected `]`".toList
  | missingEquals => "filter is missing `=`".toList
  | emptyKey => "filter key is empty".toList
  | notAnInteger text => '`' :: text ++ "` is not an integer".toList
  | unexpectedEquals => "unexpected `=` in filter value".toList
  | textAfterQuote => "unexpected characters after closing quote".toList
  | unterminatedQuote quote => "unterminated ".toList ++ quote :: "-quoted string".toList

/-- A fault and the byte offset in the path at which it was noticed. -/
structure PathError where
  position : Nat
  fault : PathFault
  deriving DecidableEq, Repr

end YamlEdit
