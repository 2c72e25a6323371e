import YamlEdit.Text.Printable

/-!
# Quoted texts

How a text is shown inside a message: in double quotes, on one line, with nothing invisible.
-/

namespace YamlEdit

namespace Text

/-- One character of a quoted text. -/
def quotedChar (c : Char) : Text :=
  if c = '\x00' then ['\\', '0']
  else if c = '\t' then ['\\', 't']
  else if c = '\r' then ['\\', 'r']
  else if c = '\n' then ['\\', 'n']
  else if c = '"' then ['\\', '"']
  else if c = '\\' then ['\\', '\\']
  else if isExtending c || !isPrintable c then
    '\\' :: 'u' :: '\x7b' :: ofNatHex 1 c.toNat ++ ['\x7d']
  else [c]

/-- A text with its quotes. -/
def quoted (t : Text) : Text := '"' :: t.flatMap quotedChar ++ ['"']

end Text

end YamlEdit
