import YamlEdit.Text.Basic

/-!
# The readable part of a text

A value is read in blocks of bytes. A character that no text may hold shows as soon as its block is
read, so that of a text with such a character only the blocks in front count.
-/

namespace YamlEdit.Value.Source

/-- A character that a text may hold. -/
def isTextChar (c : Char) : Bool :=
  let n := c.toNat
  n == 0x09 || n == 0x0A || n == 0x0D || (0x20 ≤ n && n ≤ 0x7E) || n == 0x85 ||
    (0xA0 ≤ n && n ≤ 0xFFFD) || 0x10000 ≤ n

/-- The greatest number of bytes of a block. Characters are not divided. -/
def blockSize : Nat := 16384

/-- The number of characters in front of the block that holds the first character that no text may
hold, or of all, if there is none. The block that is being read starts after `start` characters and
has `used` bytes up to character `index`. -/
def readableFrom (start used index : Nat) : Text → Nat
  | [] => index
  | c :: t =>
    let isNew := blockSize < used + c.utf8Size
    let start := if isNew then index else start
    let used := if isNew then c.utf8Size else used + c.utf8Size
    if isTextChar c then readableFrom start used (index + 1) t else start

/-- A text as far as it can be read. -/
structure Readable where
  text : Text
  /-- The byte offset of the character that cannot be read, if there is one. -/
  illegal : Option Nat
  deriving DecidableEq, Repr

/-- The part of a text that can be read. -/
def readable (text : Text) : Readable where
  text := text.take (readableFrom 0 0 0 text)
  illegal := if text.all isTextChar then none else some (Text.size (text.takeWhile isTextChar))

end YamlEdit.Value.Source
