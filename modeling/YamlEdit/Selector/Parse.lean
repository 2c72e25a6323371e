import YamlEdit.Selector.Basic

/-!
# Reading a selector

A path is read from left to right by longest match: `.` separates and stands for nothing, a run of
digits is an index, `[` opens a filter that ends at the first `]` outside quotes, and any other
character starts a key that runs up to the next `.` or `[`.
-/

namespace YamlEdit

namespace Selector

/-- What is read inside a filter: the quote that is open, if any. -/
abbrev OpenQuote := Option Char

/-- Splits a filter at the `]` that closes it: the body, and the path after the bracket. Inside
quotes a bracket is text, and a backslash takes the next character with it. -/
def closeFilter : OpenQuote → Text → Option (Text × Text)
  | _, [] => none
  | some q, c :: cs =>
    if c = '\\' then
      match cs with
      | [] => none
      | d :: cs => (closeFilter (some q) cs).map fun (body, rest) => (c :: d :: body, rest)
    else (closeFilter (if c = q then none else some q) cs).map fun (body, rest) => (c :: body, rest)
  | none, c :: cs =>
    if c = ']' then some ([], cs)
    else
      (closeFilter (if c = '\'' ∨ c = '"' then some c else none) cs).map
        fun (body, rest) => (c :: body, rest)

/-- Reads the inside of a quoted string up to its closing quote: the string, and the text after
the quote. A backslash escapes the quote only; before another character it stands for itself. -/
def readQuoted (quote : Char) : Text → Option (Text × Text)
  | [] => none
  | c :: cs =>
    if c = '\\' then
      match cs with
      | [] => none
      | d :: cs =>
        (readQuoted quote cs).map fun (value, rest) =>
          (if d = quote then d :: value else c :: d :: value, rest)
    else if c = quote then some ([], cs)
    else (readQuoted quote cs).map fun (value, rest) => (c :: value, rest)

/-- The largest integer that a filter can name. -/
def maxInteger : Nat := Nat.pow 2 63 - 1

/-- The largest index that a path can name. -/
def maxIndex : Nat := UInt64.size - 1

/-- Reads the trimmed right side of a filter; `start` is its offset in the path. -/
def filterValue (start : Nat) (text : Text) : Except PathError FilterValue :=
  match text with
  | [] => .ok (.string [])
  | c :: cs =>
    if Text.isDigit c then
      if text.all Text.isDigit ∧ Text.toNatDigits text ≤ maxInteger then
        .ok (.integer (Text.toNatDigits text))
      else .error ⟨start, .notAnInteger text⟩
    else if c = '\'' ∨ c = '"' then
      match readQuoted c cs with
      | none => .error ⟨start, .unterminatedQuote c⟩
      | some (value, []) => .ok (.string value)
      | some (_, rest) => .error ⟨start + (Text.size text - Text.size rest), .textAfterQuote⟩
    else if text = "true".toList then .ok (.boolean true)
    else if text = "false".toList then .ok (.boolean false)
    else if text.contains '=' then
      .error ⟨start + Text.size (text.takeWhile (· ≠ '=')), .unexpectedEquals⟩
    else .ok (.string text)

/-- Reads the body of the filter whose `[` is at offset `start`. -/
def filterBody (start : Nat) (body : Text) : Except PathError Segment :=
  if body.contains '=' then
    let left := body.takeWhile (· ≠ '=')
    let right := (body.dropWhile (· ≠ '=')).drop 1
    let key := Text.trim left
    if key.isEmpty then .error ⟨start + 1, .emptyKey⟩
    else
      let valueStart :=
        start + 1 + Text.size left + 1 + (Text.size right - Text.size (Text.trimStart right))
      (filterValue valueStart (Text.trim right)).map (.filter key)
  else .error ⟨start, .missingEquals⟩

/-- A character that can stand inside a key. -/
def isKeyChar (c : Char) : Bool := c != '.' && c != '['

/-- What one step of the reader finds: the step, if it is more than a separator, and the rest of
the path. -/
def nextSegment (offset : Nat) (c : Char) (cs : Text) :
    Except PathError (Option Segment × Text) :=
  if c = '.' then .ok (none, cs)
  else if c = '[' then
    match closeFilter none cs with
    | none => .error ⟨offset, .unterminatedFilter⟩
    | some (body, rest) => (filterBody offset body).map fun segment => (some segment, rest)
  else if Text.isDigit c then
    let digits := c :: cs.takeWhile Text.isDigit
    if Text.toNatDigits digits ≤ maxIndex then
      .ok (some (.index (Text.toNatDigits digits)), cs.dropWhile Text.isDigit)
    else .error ⟨offset, .indexTooLarge digits⟩
  else .ok (some (.key (c :: cs.takeWhile isKeyChar)), cs.dropWhile isKeyChar)

/-! ### Every step leaves less to read -/

theorem length_dropWhile_le (p : Char → Bool) : ∀ t : Text, (t.dropWhile p).length ≤ t.length
  | [] => Nat.le_refl _
  | c :: t => by
    rw [List.dropWhile_cons]
    split
    · exact Nat.le_succ_of_le (length_dropWhile_le p t)
    · exact Nat.le_refl _

theorem length_closeFilter_lt {q : OpenQuote} {t body rest : Text}
    (h : closeFilter q t = some (body, rest)) : rest.length < t.length := by
  fun_induction closeFilter q t generalizing body rest <;>
    simp_all [Option.map_eq_some_iff] <;> grind

theorem length_nextSegment_le {offset : Nat} {c : Char} {cs rest : Text} {s : Option Segment}
    (h : nextSegment offset c cs = .ok (s, rest)) : rest.length ≤ cs.length := by
  unfold nextSegment at h
  split at h
  · cases h; exact Nat.le_refl _
  · split at h
    · split at h
      · cases h
      · next body rest' hclose =>
        have := length_closeFilter_lt hclose
        cases hb : filterBody offset body with
        | error e => rw [hb] at h; cases h
        | ok segment => rw [hb] at h; cases h; omega
    · split at h
      · dsimp only at h
        split at h
        · cases h; exact length_dropWhile_le _ cs
        · cases h
      · cases h; exact length_dropWhile_le _ cs

/-- Reads a path, or the part of one that starts at `offset`. -/
def segmentsFrom (offset : Nat) : Text → Except PathError (List Segment)
  | [] => .ok []
  | c :: cs =>
    match _h : nextSegment offset c cs with
    | .error e => .error e
    | .ok (segment, rest) =>
      let next := offset + (Text.size (c :: cs) - Text.size rest)
      (segmentsFrom next rest).map (segment.toList ++ ·)
termination_by t => t.length
decreasing_by exact Nat.lt_succ_of_le (length_nextSegment_le _h)

/-- Reads a selector. -/
def parse (path : Text) : Except PathError Selector :=
  (segmentsFrom 0 path).map fun segments => ⟨path, segments⟩

end Selector

end YamlEdit
