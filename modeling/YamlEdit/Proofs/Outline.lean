import YamlEdit.Node.Basic

/-!
# Outlines

The outline of a node is what the node says: its kind and the outlines of its children. The kind of
a scalar has its decoded text, that of a reference its name, and that of a collection its style;
places in the text and anchors are no part of an outline. Outlines are what an edit is specified on:
replacing, erasing and inserting below an address.

An outline is written down as a list of `Sign`s, an opening and a closing one around what a
collection holds. Main statements: `Outline.signs_injective`, an outline is known by its signs, and
`Outline.signs_at`, what is at an address is a run of them.
-/

namespace YamlEdit

/-- What can hold other nodes. -/
inductive Bracket where
  | stream
  | document
  | sequence (style : Style)
  | mapping (style : Style)
  deriving DecidableEq, Repr

/-- The other side of a bracket, which does not tell the style. -/
inductive Closing where
  | stream
  | document
  | sequence
  | mapping
  deriving DecidableEq, Repr

/-- The side that goes with a bracket. -/
def Bracket.closing : Bracket → Closing
  | stream => .stream
  | document => .document
  | sequence _ => .sequence
  | mapping _ => .mapping

/-- What a node says. -/
inductive Outline where
  | scalar (text : Text)
  | reference (name : Text)
  | group (bracket : Bracket) (children : List Outline)
  deriving Repr

/-- One sign of a written outline. -/
inductive Sign where
  | scalar (text : Text)
  | reference (name : Text)
  | opening (bracket : Bracket)
  | closing (closing : Closing)
  deriving DecidableEq, Repr

namespace Outline

/-! ## Written outlines -/

mutual

/-- An outline as a list of signs. -/
def signs : Outline → List Sign
  | scalar text => [.scalar text]
  | reference name => [.reference name]
  | group bracket children => .opening bracket :: (signsOf children ++ [.closing bracket.closing])

/-- Outlines one after the other. -/
def signsOf : List Outline → List Sign
  | [] => []
  | o :: rest => signs o ++ signsOf rest

end

@[simp] theorem signsOf_nil : signsOf [] = [] := by rw [signsOf]

@[simp] theorem signsOf_cons (o : Outline) (rest : List Outline) :
    signsOf (o :: rest) = signs o ++ signsOf rest := by rw [signsOf]

@[simp] theorem signsOf_append (l l' : List Outline) :
    signsOf (l ++ l') = signsOf l ++ signsOf l' := by
  induction l with
  | nil => rfl
  | cons o rest ih => simp [ih]

/-- No outline starts with a closing sign. -/
theorem signs_ne_closing (o : Outline) (c : Closing) (rest rest' : List Sign) :
    signs o ++ rest ≠ .closing c :: rest' := by
  cases o <;> simp [signs]

mutual

/-- **Unique reading.** Two texts that start with outlines and agree start with the same outline
and go on in the same way. -/
theorem signs_append_inj : ∀ {o o' : Outline} {rest rest' : List Sign},
    signs o ++ rest = signs o' ++ rest' → o = o' ∧ rest = rest'
  | .scalar _, .scalar _, _, _, h => by simpa [signs] using h
  | .reference _, .reference _, _, _, h => by simpa [signs] using h
  | .group b cs, .group b' cs', rest, rest', h => by
      simp only [signs, List.cons_append, List.append_assoc, List.cons.injEq, Sign.opening.injEq]
        at h
      obtain ⟨rfl, hrest⟩ := h
      obtain ⟨rfl, hend⟩ := signsOf_append_inj hrest
      exact ⟨rfl, hend⟩
  | .scalar _, .reference _, _, _, h => by simp [signs] at h
  | .scalar _, .group _ _, _, _, h => by simp [signs] at h
  | .reference _, .scalar _, _, _, h => by simp [signs] at h
  | .reference _, .group _ _, _, _, h => by simp [signs] at h
  | .group _ _, .scalar _, _, _, h => by simp [signs] at h
  | .group _ _, .reference _, _, _, h => by simp [signs] at h

/-- The same for the children of a collection, up to its closing sign. -/
theorem signsOf_append_inj : ∀ {l l' : List Outline} {c : Closing} {rest rest' : List Sign},
    signsOf l ++ ([.closing c] ++ rest) = signsOf l' ++ ([.closing c] ++ rest') →
      l = l' ∧ rest = rest'
  | [], [], _, _, _, h => by simpa using h
  | [], o :: l', _, _, _, h => by
      rw [signsOf_nil, signsOf_cons, List.append_assoc] at h
      exact absurd h.symm (signs_ne_closing o _ _ _)
  | o :: l, [], _, _, _, h => by
      rw [signsOf_nil, signsOf_cons, List.append_assoc] at h
      exact absurd h (signs_ne_closing o _ _ _)
  | o :: l, o' :: l', _, _, _, h => by
      rw [signsOf_cons, signsOf_cons, List.append_assoc, List.append_assoc] at h
      obtain ⟨rfl, hrest⟩ := signs_append_inj h
      obtain ⟨rfl, hend⟩ := signsOf_append_inj hrest
      exact ⟨rfl, hend⟩

end

/-- **An outline is known by its signs.** -/
theorem signs_injective {o o' : Outline} (h : signs o = signs o') : o = o' :=
  (signs_append_inj (show signs o ++ [] = signs o' ++ [] by rw [h])).1

/-! ## Well-formed outlines -/

/-- A node: no wrapper is inside it, and its mappings hold whole pairs. -/
inductive IsNode : Outline → Prop where
  | scalar (text : Text) : IsNode (.scalar text)
  | reference (name : Text) : IsNode (.reference name)
  | sequence (style : Style) {l : List Outline} (inner : ∀ o ∈ l, IsNode o) :
      IsNode (.group (.sequence style) l)
  | mapping (style : Style) {l : List Outline} (paired : l.length % 2 = 0)
      (inner : ∀ o ∈ l, IsNode o) : IsNode (.group (.mapping style) l)

/-- Documents with the given contents. -/
def documents (contents : List Outline) : List Outline :=
  contents.map fun content => .group .document [content]

/-- A stream of documents with the given contents. -/
def stream (contents : List Outline) : Outline := .group .stream (documents contents)

/-! ## Addresses -/

/-- What is directly inside. -/
def children : Outline → List Outline
  | group _ children => children
  | _ => []

/-- What is at an address. -/
def at? (o : Outline) : Address → Option Outline
  | [] => some o
  | i :: rest =>
    match o.children[i]? with
    | some child => child.at? rest
    | none => none

/-- Changes what is at an address. -/
def modify (f : Outline → Outline) : Address → Outline → Outline
  | [], o => f o
  | i :: rest, group bracket children => group bracket (children.modify i (modify f rest))
  | _ :: _, o => o

/-- Puts another outline at an address. -/
def replace (o : Outline) (address : Address) (new : Outline) : Outline :=
  o.modify (fun _ => new) address

/-- Takes `count` children out, from number `index` on. -/
def eraseChildren (index count : Nat) : Outline → Outline
  | group bracket children =>
    group bracket (children.take index ++ children.drop (index + count))
  | o => o

/-- Puts a child in front of number `index`. -/
def insertChild (index : Nat) (new : Outline) : Outline → Outline
  | group bracket children => group bracket (children.take index ++ new :: children.drop index)
  | o => o

/-- Puts children behind the last one. -/
def appendChildren (new : List Outline) : Outline → Outline
  | group bracket children => group bracket (children ++ new)
  | o => o

/-- The signs in front of what is at an address. -/
def before (o : Outline) : Address → List Sign
  | [] => []
  | i :: rest =>
    match o with
    | group bracket children =>
      .opening bracket :: (signsOf (children.take i) ++
        match children[i]? with
        | some child => child.before rest
        | none => [])
    | _ => []

/-- The signs behind what is at an address. -/
def behind (o : Outline) : Address → List Sign
  | [] => []
  | i :: rest =>
    match o with
    | group bracket children =>
      (match children[i]? with
        | some child => child.behind rest
        | none => []) ++ (signsOf (children.drop (i + 1)) ++ [.closing bracket.closing])
    | _ => []

/-- What is at an address below a child is at a longer one below the collection. -/
theorem at?_cons_eq_some {o x : Outline} {i : Nat} {rest : Address} :
    o.at? (i :: rest) = some x ↔
      ∃ bracket l child, o = .group bracket l ∧ l[i]? = some child ∧ child.at? rest = some x := by
  cases o with
  | scalar text => simp [at?, children]
  | reference name => simp [at?, children]
  | group bracket l =>
      simp only [at?, children, group.injEq]
      constructor
      · intro h
        split at h
        · next child hi => exact ⟨bracket, l, child, ⟨rfl, rfl⟩, hi, h⟩
        · cases h
      · rintro ⟨_, _, child, ⟨rfl, rfl⟩, hi, hx⟩
        rw [hi]
        exact hx

/-- **A change at an address is a change in the middle of the signs.** -/
theorem signs_modify (f : Outline → Outline) : ∀ {address : Address} {o x : Outline},
    o.at? address = some x →
      (o.modify f address).signs = o.before address ++ (f x).signs ++ o.behind address
  | [], o, x, h => by
      obtain rfl : o = x := by simpa [at?] using h
      simp [modify, before, behind]
  | i :: rest, o, x, h => by
      obtain ⟨bracket, l, child, rfl, hi, hx⟩ := at?_cons_eq_some.mp h
      have ih := signs_modify f hx
      obtain ⟨hlt, hget⟩ := List.getElem?_eq_some_iff.mp hi
      rw [modify, List.modify_eq_take_cons_drop hlt, hget]
      simp only [signs, signsOf_append, signsOf_cons, ih, before, behind, hi]
      simp

/-- The signs of an outline, taken apart at an address. -/
theorem signs_at {address : Address} {o x : Outline} (h : o.at? address = some x) :
    o.signs = o.before address ++ x.signs ++ o.behind address := by
  have hid : o.modify id address = o := by
    clear h
    induction address generalizing o with
    | nil => rfl
    | cons i rest ih =>
        cases o with
        | scalar text => rfl
        | reference name => rfl
        | group bracket l =>
            have hmap : modify id rest = id := funext fun o => ih (o := o)
            rw [modify, hmap, List.modify_id]
  have := signs_modify id h
  rwa [hid] at this

/-! ## Children of a collection -/

/-- What is in front of an address, taken in two parts. -/
theorem before_append {o y : Outline} {a : Address} (h : o.at? a = some y) (b : Address) :
    o.before (a ++ b) = o.before a ++ y.before b := by
  induction a generalizing o with
  | nil =>
      obtain rfl : o = y := by simpa [at?] using h
      rfl
  | cons i rest ih =>
      obtain ⟨bracket, l, child, rfl, hi, hy⟩ := at?_cons_eq_some.mp h
      simp only [List.cons_append, before, hi, ih hy, List.append_assoc]

theorem before_child (bracket : Bracket) (l : List Outline) (i : Nat) :
    (group bracket l).before [i] = .opening bracket :: signsOf (l.take i) := by
  rw [before]
  cases l[i]? <;> simp [before]

end Outline

/-! ## The outline of a node -/

namespace Node

mutual

/-- What a node says. -/
def outline : Node → Outline
  | ⟨.scalar text, _, _, _, _⟩ => .scalar text
  | ⟨.aliasTo name, _, _, _, _⟩ => .reference name
  | ⟨.stream, _, _, _, children⟩ => .group .stream (outlines children)
  | ⟨.document, _, _, _, children⟩ => .group .document (outlines children)
  | ⟨.sequence style, _, _, _, children⟩ => .group (.sequence style) (outlines children)
  | ⟨.mapping style, _, _, _, children⟩ => .group (.mapping style) (outlines children)

/-- What nodes say, one after the other. -/
def outlines : List Node → List Outline
  | [] => []
  | n :: rest => outline n :: outlines rest

end

theorem outlines_eq_map : ∀ l : List Node, outlines l = l.map outline
  | [] => by rw [outlines]; rfl
  | n :: rest => by rw [outlines, outlines_eq_map rest]; rfl

end Node

end YamlEdit
