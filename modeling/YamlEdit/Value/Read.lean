import YamlEdit.Value.Source.Event
import YamlEdit.Value.Plain

/-!
# Reading values

`Value.parse` reads the one document of a text. Aliases are replaced by what they stand for, and
plain scalars by the values that they denote.
-/

namespace YamlEdit.Value

/-- The way from the value that is read to a part of it. -/
inductive Path where
  | whole
  | item (parent : Path) (index : Nat)
  | entry (parent : Path) (key : Text)
  /-- The value for a key that is no scalar. -/
  | unnamed (parent : Path)
  /-- What an alias stands for. -/
  | aliased (parent : Path)
  deriving DecidableEq, Repr

mutual

/-- A path in a message; the whole value is a dot. -/
def Path.display : Path → Text
  | whole => ['.']
  | item parent index => parent.display ++ '[' :: Text.ofNat index ++ [']']
  | entry parent key => parent.inFront ++ key
  | unnamed parent => parent.inFront ++ ['?']
  | aliased parent => parent.display

/-- The display of a path in front of a further step. -/
def Path.inFront : Path → Text
  | whole => []
  | item parent index => parent.display ++ '[' :: Text.ofNat index ++ [']', '.']
  | entry parent key => parent.inFront ++ key ++ ['.']
  | unnamed parent => parent.inFront ++ ['?', '.']
  | aliased parent => parent.display ++ ['.']

end

/-- What a tag of the standard repertory asks for. -/
inductive Forced where
  | bool
  | integer
  | float
  | null
  deriving DecidableEq, Repr

/-- The kind in words. -/
def Forced.name : Forced → Text
  | bool => "a boolean".toList
  | integer => "an integer".toList
  | float => "a float".toList
  | null => "null".toList

/-- What is wrong with a part of a value. -/
inductive ContentFault where
  | duplicate (d : DuplicateKey)
  /-- An integer that does not fit 64 bits. -/
  | wide (n : Int)
  /-- A scalar that is not what its tag asks for. -/
  | mismatch (text : Text) (forced : Forced)

/-- A fault in words. -/
def ContentFault.message : ContentFault → Text
  | duplicate d => d.message
  | wide n =>
    "invalid type: integer `".toList ++ Text.ofInt n ++ "` as ".toList ++
      (if 0 ≤ n then "u128".toList else "i128".toList) ++ ", expected any YAML value".toList
  | mismatch text forced =>
    "invalid value: string ".toList ++ Text.quoted text ++ ", expected ".toList ++ forced.name

/-- Why a text has no value. -/
inductive ReadError where
  | malformed (complaint : Source.Complaint)
  | unknownAnchor (mark : Mark)
  | manyDocuments
  | nothingLeft
  | tooDeep (mark : Mark)
  | tooManyAliases
  | content (path : Path) (mark : Mark) (fault : ContentFault)

/-- An error in words. -/
def ReadError.message : ReadError → Text
  | malformed complaint => complaint.message
  | unknownAnchor mark => "unknown anchor".toList ++ Source.atMark mark
  | manyDocuments =>
    "deserializing from YAML containing more than one document is not supported".toList
  | nothingLeft => "EOF while parsing a value".toList
  | tooDeep mark => "recursion limit exceeded".toList ++ Source.atMark mark
  | tooManyAliases => "repetition limit exceeded".toList
  | content path mark fault =>
    (if path.display = ['.'] then [] else path.display ++ ": ".toList) ++ fault.message ++
      Source.atMark mark

/-! ## Scalars -/

/-- An integer that fits 64 bits, with a sign or without. -/
def bit64? (n : Int) : Except ContentFault Value :=
  if -(Nat.pow 2 63 : Int) ≤ n ∧ n < UInt64.size then .ok (integer n) else .error (.wide n)

/-- The value of a scalar without quotes and tag. -/
def ofPlain (t : Text) : Except ContentFault Value :=
  match Plain.sense t with
  | .null => .ok null
  | .bool b => .ok (bool b)
  | .integer n => bit64? n
  | .float x => .ok (float x)
  | .string => .ok (string t)

/-- The tags that decide the kind of a scalar. -/
def forced? (tag : Text) : Option Forced :=
  if tag = "tag:yaml.org,2002:bool".toList then some .bool
  else if tag = "tag:yaml.org,2002:int".toList then some .integer
  else if tag = "tag:yaml.org,2002:float".toList then some .float
  else if tag = "tag:yaml.org,2002:null".toList then some .null
  else none

/-- A scalar whose tag decides its kind has to be written like one. -/
def ofForced (t : Text) (forced : Forced) : Except ContentFault Value :=
  match forced with
  | .bool => ((Plain.bool? t).map fun b => .ok (bool b)).getD (.error (.mismatch t forced))
  | .integer => ((Plain.integer? t).map bit64?).getD (.error (.mismatch t forced))
  | .float => ((Plain.float? t).map fun x => .ok (float x)).getD (.error (.mismatch t forced))
  | .null => if Plain.isNullWord t then .ok null else .error (.mismatch t forced)

/-- The value of a scalar; a local tag in front of it counts elsewhere. -/
def ofScalar (t : Text) (isPlain : Bool) (tag? : Option Text) : Except ContentFault Value :=
  match tag? with
  | none | some ('!' :: _) => if isPlain then ofPlain t else .ok (string t)
  | some tag => ((forced? tag).map (ofForced t)).getD (.ok (string t))

/-- The name of a local tag. One with bytes that are no character, for which NUL stands, has
none. -/
def localTag? (tag? : Option Text) : Option Text :=
  match tag? with
  | some ('!' :: name) =>
    if name.contains '\x00' then none
    else match name with
      | [] => some ['!']
      | '!' :: rest => some (if rest.isEmpty then name else rest)
      | _ => some name
  | _ => none

/-! ## Aliases -/

/-- An event of a document, an alias given by the number of its anchor. -/
inductive ReadStep where
  | aliasTo (number : Nat)
  | event (e : Source.Event)

/-- The anchors in front of an event. -/
structure Numbering where
  anchors : List (Text × Nat)
  /-- Where the nodes with the numbered anchors start. -/
  places : List (Nat × Nat)

/-- Numbers the anchor of the event at `index`. The number is that of different names so far. -/
def Numbering.add (n : Numbering) (index : Nat) (anchor? : Option Text) : Numbering :=
  match anchor? with
  | none => n
  | some name =>
    let number := (n.anchors.map (·.1)).eraseDups.length
    ⟨(name, number) :: n.anchors, (number, index) :: n.places⟩

/-- A document as it is decoded. -/
structure Contents where
  steps : List (ReadStep × Mark)
  places : List (Nat × Nat)
  /-- What is wrong behind the last step. -/
  fault : Option ReadError

/-- Numbers anchors and aliases from the event at `index` on, up to an unknown alias. -/
def Contents.ofEvents (fault : Option ReadError) (index : Nat) (n : Numbering) :
    List (Source.Event × Mark) → Contents
  | [] => ⟨[], n.places, fault⟩
  | (event, mark) :: rest =>
    let after (step : ReadStep) (n : Numbering) : Contents :=
      let c := Contents.ofEvents fault (index + 1) n rest
      { c with steps := (step, mark) :: c.steps }
    match event with
    | .aliasTo name =>
      match n.anchors.lookup name with
      | none => ⟨[], n.places, some (.unknownAnchor mark)⟩
      | some number => after (.aliasTo number) n
    | .scalar _ _ p | .sequenceStart p | .mappingStart p =>
      after (.event event) (n.add index p.anchor)
    | _ => after (.event event) n

/-! ## Decoding -/

/-- The nesting that is read. -/
def maxDepth : Nat := 128

/-- A reader, which counts the aliases that it follows. -/
abbrev Decode := StateT Nat (Except ReadError)

namespace Decode

/-- Reading fails. -/
def fail {α : Type} (e : ReadError) : Decode α := fun _ => .error e

/-- A part of a value, or what is wrong with it. -/
def content (path : Path) (mark : Mark) (x : Except ContentFault Value) : Decode Value := fun n =>
  match x with
  | .ok v => .ok (v, n)
  | .error fault => .error (.content path mark fault)

/-- Steps that are left. -/
abbrev Rest := List (ReadStep × Mark)

/-- Fails for want of a further step. -/
def endOf {α : Type} (c : Contents) : Decode α := fail (c.fault.getD .nothingLeft)

/-- Follows an alias. -/
def follow (c : Contents) (number : Nat) : Decode Rest := do
  let count := (← get) + 1
  set count
  if c.steps.length * 100 < count then fail .tooManyAliases
  return c.steps.drop ((c.places.lookup number).getD c.steps.length)

mutual

/-- Decodes the node that comes next: its value, and what is left. `depth` is the nesting that is
still allowed; a tag counts unless `tagSeen`. -/
def node (c : Contents) (fuel depth : Nat) (path : Path) (tagSeen : Bool) (rest : Rest) :
    Decode (Value × Rest) := do
  match fuel with
  | 0 => fail .tooManyAliases
  | fuel + 1 =>
    match rest with
    | [] => endOf c
    | (.aliasTo number, _) :: after =>
      let (v, _) ← node c fuel depth (.aliased path) false (← follow c number)
      return (v, after)
    | (.event event, mark) :: after =>
      let tag? := match event with
        | .scalar _ _ p | .sequenceStart p | .mappingStart p => p.tag
        | _ => none
      match tagSeen, localTag? tag? with
      | false, some tag =>
        let (v, left) ← node c fuel depth path true rest
        return (.tagged tag v, left)
      | _, _ =>
        match event, depth with
        | .scalar t isPlain _, _ =>
          let v ← content path mark (ofScalar t isPlain (if tagSeen then none else tag?))
          return (v, after)
        | .sequenceStart _, depth + 1 =>
          let (vs, left) ← items c fuel depth path 0 after
          return (.sequence vs, left)
        | .mappingStart _, depth + 1 =>
          let (es, left) ← entries c fuel depth path mark [] after
          return (.mapping es, left)
        | .sequenceStart _, 0 | .mappingStart _, 0 => fail (.tooDeep mark)
        | _, _ => endOf c

/-- Decodes the items of a sequence from number `index` on, and its end. -/
def items (c : Contents) (fuel depth : Nat) (path : Path) (index : Nat) (rest : Rest) :
    Decode (List Value × Rest) := do
  match fuel with
  | 0 => fail .tooManyAliases
  | fuel + 1 =>
    match rest with
    | [] => endOf c
    | (.event .sequenceEnd, _) :: after => return ([], after)
    | _ =>
      let (v, left) ← node c fuel depth (.item path index) false rest
      let (vs, left) ← items c fuel depth path (index + 1) left
      return (v :: vs, left)

/-- Decodes the entries of a mapping that started at `start` and has the entries `read`, last one
first, so far. -/
def entries (c : Contents) (fuel depth : Nat) (path : Path) (start : Mark)
    (read : List (Value × Value)) (rest : Rest) : Decode (List (Value × Value) × Rest) := do
  match fuel with
  | 0 => fail .tooManyAliases
  | fuel + 1 =>
    match rest with
    | [] => endOf c
    | (.event .mappingEnd, _) :: after => return (read.reverse, after)
    | (first, _) :: _ =>
      let (key, left) ← node c fuel depth path false rest
      if hasKey read key then fail (.content path start (.duplicate ⟨key⟩))
      let below := match first with
        | .event (.scalar t _ _) => Path.entry path t
        | _ => Path.unnamed path
      let (v, left) ← node c fuel depth below false left
      entries c fuel depth path start ((key, v) :: read) left

end

end Decode

/-- The value of a document. An empty one is null. -/
def ofDocument (d : Source.Document) : Except ReadError Value := do
  let fault := d.complaint.map ReadError.malformed
  let c := Contents.ofEvents fault 0 ⟨[], []⟩ d.events
  -- a nest of at most `maxDepth` collections, each with at most all the steps
  let fuel := 3 * (maxDepth + 2) * (c.steps.length + 2)
  let v ←
    if d.events.isEmpty ∧ fault.isNone then pure null
    else (·.1.1) <$> (Decode.node c fuel maxDepth .whole false c.steps).run 0
  match c.fault with
  | some e => throw e
  | none => if d.isLast then return v else throw .manyDocuments

/-- The value that a text holds. -/
def parse (t : Text) : Except ReadError Value := ofDocument (Source.parse t)

end YamlEdit.Value
