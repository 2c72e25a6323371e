import YamlEdit.Proofs.Paths
import YamlEdit.Proofs.SheetTrees

/-!
# Sheets with a part put in

A node of a sheet is in an entry, with other entries in front of that and behind it: a `Frame`. The
frames around a node, innermost first, say what the text in front of it and behind it is, at which
address it is and how far it is indented (`Sheet.plug`). Whatever fits in the place of the node
makes a sheet again (`Sheet.Fits.plug`), and nothing changes at other addresses
(`Sheet.outline_plug`).

Every walk of keys and indices ends at a node in frames: `Sheet.exists_plug`.
-/

namespace YamlEdit

namespace Outline

/-- A change at a longer address is one at the shorter one. -/
theorem modify_append (F : Outline → Outline) (a b : Address) (o : Outline) :
    o.modify F (a ++ b) = o.modify (fun x => x.modify F b) a := by
  induction a generalizing o with
  | nil => rfl
  | cons i a ih =>
      cases o with
      | group bracket l =>
          rw [List.cons_append, modify, modify]
          exact congrArg (fun g => group bracket (l.modify i g)) (funext ih)
      | _ => rfl

/-- A change of what is at an address puts something else there. -/
theorem modify_eq_replace {F : Outline → Outline} {o x : Outline} {a : Address}
    (h : o.at? a = some x) : o.modify F a = o.replace a (F x) := by
  induction a generalizing o with
  | nil =>
      obtain rfl : o = x := by simpa [at?] using h
      rfl
  | cons i a ih =>
      obtain ⟨bracket, l, child, rfl, hi, hx⟩ := at?_cons_eq_some.mp h
      obtain ⟨hlt, hget⟩ := List.getElem?_eq_some_iff.mp hi
      rw [modify, replace, modify, List.modify_eq_take_cons_drop hlt,
        List.modify_eq_take_cons_drop hlt, hget, ih hx]
      rfl

end Outline

/-! ## Entries in front of others -/

/-- An entry: its head and its node. -/
abbrev Entry := Head × Sheet

namespace Entry

/-- What is written. -/
def text (e : Entry) : Text := e.1.text ++ e.2.text

/-- What the entry adds to the children of its collection. -/
def outlines (e : Entry) : List Outline := e.1.outlines ++ [e.2.outline]

/-- The nodes that the entry adds, if it starts at a byte offset. -/
def nodes (m : SourceMap) (place : Nat) (e : Entry) : List Node :=
  e.1.nodes m place ++ [e.2.tree m (place + Text.size e.1.text)]

/-- An entry with others behind it in a collection at a column. -/
structure Fits (column : Nat) (isKey : Bool) (e : Entry) : Prop where
  head : e.1.Fits column
  follows : Sheet.Follows e.1 e.2
  node : e.2.Fits (Text.columnBehind column e.1.text)
  aligned : Text.columnBehind 0 e.2.tail = column
  kind : e.1.isKey = isKey

/-- Entries one after the other, as text. -/
def textOf (es : List Entry) : Text := es.flatMap text

/-- What entries add to the children of their collection. -/
def outlinesOf (es : List Entry) : List Outline := es.flatMap outlines

/-- The nodes that entries add, if the first one starts at a byte offset. -/
def nodesOf (m : SourceMap) : (place : Nat) → List Entry → List Node
  | _, [] => []
  | place, e :: es => e.nodes m place ++ nodesOf m (place + Text.size e.text) es

@[simp] theorem textOf_nil : textOf [] = [] := rfl

@[simp] theorem textOf_cons (e : Entry) (es : List Entry) :
    textOf (e :: es) = e.text ++ textOf es :=
  rfl

@[simp] theorem textOf_append (es es' : List Entry) :
    textOf (es ++ es') = textOf es ++ textOf es' :=
  List.flatMap_append

theorem length_outlinesOf (m : SourceMap) (place : Nat) (es : List Entry) :
    (nodesOf m place es).length = (outlinesOf es).length := by
  induction es generalizing place with
  | nil => rfl
  | cons e es ih =>
      obtain ⟨head, node⟩ := e
      have hhead : (head.nodes m place).length = head.outlines.length := by cases head <;> rfl
      rw [nodesOf, outlinesOf, List.length_append, List.flatMap_cons, List.length_append, ih]
      simp [nodes, outlines, hhead, outlinesOf]

/-- Keys and values take turns. -/
theorem even_outlinesOf {es : List Entry} (h : ∀ e ∈ es, e.1.isKey = true) :
    (outlinesOf es).length % 2 = 0 := by
  induction es with
  | nil => rfl
  | cons e es ih =>
      obtain ⟨head, node⟩ := e
      have hrest := ih fun e he => h e (List.mem_cons_of_mem _ he)
      have hhead := h (head, node) List.mem_cons_self
      rw [outlinesOf, List.flatMap_cons, List.length_append]
      cases head with
      | dash => cases hhead
      | key => simpa [outlines, Head.outlines, Nat.add_comm, outlinesOf] using hrest

end Entry

namespace Sheet

/-- Entries in front of others. -/
def behind (es : List Entry) (t : Sheet) : Sheet := es.foldr (fun e t => more e.1 e.2 t) t

/-- Whether the entries are pairs; a scalar has none. -/
def isKey? (t : Sheet) : Option Bool := t.head?.map Head.isKey

variable {column : Nat} {k : Bool} {es : List Entry} {t : Sheet}

@[simp] theorem behind_nil (t : Sheet) : behind [] t = t := rfl

@[simp] theorem behind_cons (e : Entry) (es : List Entry) (t : Sheet) :
    behind (e :: es) t = more e.1 e.2 (behind es t) := rfl

theorem behind_append (es es' : List Entry) (t : Sheet) :
    behind (es ++ es') t = behind es (behind es' t) := List.foldr_append

theorem text_behind (es : List Entry) (t : Sheet) :
    (behind es t).text = Entry.textOf es ++ t.text := by
  induction es with
  | nil => rfl
  | cons e es ih =>
      rw [behind_cons, text, ih, Entry.textOf_cons, Entry.text, List.append_assoc _ _ t.text]

theorem tail_behind (es : List Entry) (t : Sheet) : (behind es t).tail = t.tail := by
  induction es with
  | nil => rfl
  | cons e es ih => exact ih

theorem children_behind (es : List Entry) (t : Sheet) :
    (behind es t).outline.children = Entry.outlinesOf es ++ t.outline.children := by
  induction es with
  | nil => rfl
  | cons e es ih =>
      rw [behind_cons, outline, Outline.children, ih]
      simp [Entry.outlinesOf, Entry.outlines]

theorem nodes_behind (m : SourceMap) (es : List Entry) (t : Sheet) (place : Nat) :
    ((behind es t).tree m place).children = Entry.nodesOf m place es ++
      (t.tree m (place + Text.size (Entry.textOf es))).children := by
  induction es generalizing place with
  | nil => rfl
  | cons e es ih =>
      rw [behind_cons, tree, ih, Entry.nodesOf]
      simp [Entry.nodes, Entry.text, Text.size_append, Nat.add_assoc]

theorem isKey?_behind (ht : t.isKey? = some k) (hes : ∀ e ∈ es, e.1.isKey = k) :
    (behind es t).isKey? = some k := by
  cases es with
  | nil => exact ht
  | cons e es => exact congrArg some (hes e List.mem_cons_self)

/-- Entries are put in front of others of the same kind. -/
theorem Fits.behind (ht : t.Fits column) (hk : t.isKey? = some k)
    (hes : ∀ e ∈ es, e.Fits column k) : (behind es t).Fits column := by
  induction es with
  | nil => exact ht
  | cons e es ih =>
      have he := hes e List.mem_cons_self
      have hrest := fun e' he' => hes e' (List.mem_cons_of_mem e he')
      refine .more he.head he.follows he.node he.aligned ?_ (ih hrest)
      rw [he.kind]
      exact isKey?_behind hk fun e' he' => (hrest e' he').kind

/-- What is behind entries fits, and so do the entries. -/
theorem Fits.of_behind (h : (Sheet.behind es t).Fits column) (hk : t.isKey? = some k) :
    t.Fits column ∧ ∀ e ∈ es, e.Fits column k := by
  induction es with
  | nil => exact ⟨h, nofun⟩
  | cons e es ih =>
      cases h with
      | more hhead hfollows hnode haligned hkind hrest =>
          obtain ⟨ht, hes⟩ := ih hrest
          have hrest := isKey?_behind hk fun e' he' => (hes e' he').kind
          refine ⟨ht, List.forall_mem_cons.mpr ⟨⟨hhead, hfollows, hnode, haligned, ?_⟩, hes⟩⟩
          exact Option.some.inj (hkind.symm.trans hrest)

end Sheet

/-! ## Frames -/

/-- An entry without its node, among the other entries of its collection. -/
structure Frame where
  before : List Entry
  head : Head
  rest : Option Sheet

namespace Frame

/-- The entry with a node, and those behind it. -/
def entry (f : Frame) (t : Sheet) : Sheet :=
  match f.rest with
  | none => .last f.head t
  | some rest => .more f.head t rest

/-- The collection with a node put in. -/
def fill (f : Frame) (t : Sheet) : Sheet := Sheet.behind f.before (f.entry t)

/-- The text in front of the node. -/
def front (f : Frame) : Text := Entry.textOf f.before ++ f.head.text

/-- The text behind the node. -/
def back (f : Frame) : Text :=
  match f.rest with
  | none => []
  | some rest => rest.text

/-- The number of the node among the children of the collection. -/
def index (f : Frame) : Nat := (Entry.outlinesOf f.before).length + f.head.outlines.length

variable {column : Nat} {f : Frame} {t u : Sheet}

/-- The value of a pair is behind its key. -/
theorem index_of_key {name gap : Text} (hhead : f.head = .key name gap) :
    f.index = (Entry.outlinesOf f.before).length + 1 := by
  rw [index, hhead]
  rfl

theorem text_fill (f : Frame) (t : Sheet) : (f.fill t).text = f.front ++ (t.text ++ f.back) := by
  obtain ⟨before, head, rest⟩ := f
  cases rest <;> simp [fill, front, back, entry, Sheet.text_behind, Sheet.text]

theorem isKey?_entry (f : Frame) (t : Sheet) : (f.entry t).isKey? = some f.head.isKey := by
  obtain ⟨before, head, rest⟩ := f
  cases rest <;> rfl

theorem isWord_fill (f : Frame) (t : Sheet) : (f.fill t).isWord = false := by
  obtain ⟨before, head, rest⟩ := f
  cases before <;> cases rest <;> rfl

theorem isKey?_fill (h : (f.fill t).Fits column) : (f.fill t).isKey? = some f.head.isKey :=
  Sheet.isKey?_behind (f.isKey?_entry t) fun e he => ((h.of_behind (f.isKey?_entry t)).2 e he).kind

/-- What is put in, with a head of the same kind, has to end like what it replaces, if there is an
entry behind it. -/
theorem fits_fill {head : Head} (h : (f.fill t).Fits column) (hhead : head.Fits column)
    (hkey : head.isKey = f.head.isKey) (hu : u.Fits (Text.columnBehind column head.text))
    (hfollows : Sheet.Follows head u)
    (htail : Text.columnBehind 0 u.tail = Text.columnBehind 0 t.tail) :
    ({ f with head := head }.fill u).Fits column := by
  obtain ⟨hentry, hbefore⟩ := h.of_behind (f.isKey?_entry t)
  obtain ⟨before, old, rest⟩ := f
  refine .behind ?_ (hkey ▸ isKey?_entry ⟨before, head, rest⟩ u) hbefore
  cases rest with
  | none => exact .last hhead hfollows hu
  | some rest =>
      cases hentry with
      | more _ _ _ haligned hkind hrest =>
          exact .more hhead hfollows hu (htail.trans haligned) (hkey ▸ hkind) hrest

/-- The node in a frame. -/
theorem fits_of_fill (h : (f.fill t).Fits column) :
    f.head.Fits column ∧ Sheet.Follows f.head t ∧
      t.Fits (Text.columnBehind column f.head.text) := by
  obtain ⟨hentry, -⟩ := h.of_behind (f.isKey?_entry t)
  obtain ⟨before, head, rest⟩ := f
  cases rest with
  | none =>
      cases hentry with
      | last hhead hfollows hnode => exact ⟨hhead, hfollows, hnode⟩
  | some rest =>
      cases hentry with
      | more hhead hfollows hnode _ _ _ => exact ⟨hhead, hfollows, hnode⟩

theorem columnBehind_tail_fill {head : Head}
    (htail : Text.columnBehind 0 u.tail = Text.columnBehind 0 t.tail) :
    Text.columnBehind 0 ({ f with head := head }.fill u).tail =
      Text.columnBehind 0 (f.fill t).tail := by
  obtain ⟨before, head, rest⟩ := f
  rw [fill, fill, Sheet.tail_behind, Sheet.tail_behind]
  cases rest with
  | none => exact htail
  | some rest => rfl

/-- The nodes of an entry are among the children of its collection. -/
theorem exists_outline_fill (f : Frame) : ∃ bracket l, ∀ head t, head.isKey = f.head.isKey →
    ({ f with head := head }.fill t).outline =
      .group bracket (Entry.outlinesOf f.before ++ (head.outlines ++ t.outline :: l)) := by
  obtain ⟨before, head, rest⟩ := f
  refine ⟨(before.map Prod.fst ++ [head]).head (by simp) |>.bracket,
    (rest.map (·.outline.children)).getD [], fun head' t hkey => ?_⟩
  have hbracket : head'.bracket = head.bracket := by rw [Head.bracket, Head.bracket, hkey]
  have hentry : (entry ⟨before, head', rest⟩ t).outline = .group head.bracket
      (head'.outlines ++ t.outline :: (rest.map (·.outline.children)).getD []) := by
    rw [← hbracket]
    cases rest <;> rfl
  have hchildren := Sheet.children_behind before (entry ⟨before, head', rest⟩ t)
  rw [hentry] at hchildren
  cases before with
  | nil => simpa [fill, Entry.outlinesOf] using hentry
  | cons e before =>
      rw [fill, Sheet.behind_cons, Sheet.outline] at *
      rw [Outline.children] at hchildren
      rw [hchildren]
      simp [Outline.children]

theorem modify_length (l l' : List Outline) (x : Outline) (g : Outline → Outline) :
    (l ++ x :: l').modify l.length g = l ++ g x :: l' := by
  induction l with
  | nil => rfl
  | cons y l ih => exact congrArg (y :: ·) ih

theorem children_fill (f : Frame) (t : Sheet) :
    (f.fill t).outline.children[f.index]? = some t.outline := by
  obtain ⟨bracket, l, houtline⟩ := f.exists_outline_fill
  rw [houtline f.head t rfl, Outline.children, ← List.append_assoc, index, ← List.length_append,
    List.getElem?_append_right (Nat.le_refl _), Nat.sub_self]
  rfl

/-- Another node behind a head that says the same changes nothing else. -/
theorem outline_fill (f : Frame) {head : Head} (hkey : head.isKey = f.head.isKey)
    (hhead : head.outlines = f.head.outlines) (t u : Sheet) :
    ({ f with head := head }.fill u).outline =
      (f.fill t).outline.replace [f.index] u.outline := by
  obtain ⟨bracket, l, houtline⟩ := f.exists_outline_fill
  have hold := houtline f.head t rfl
  rw [← List.append_assoc] at hold
  rw [houtline head u hkey, hhead, hold, index, ← List.length_append, Outline.replace,
    Outline.modify, modify_length, ← List.append_assoc]
  rfl

/-- Another key changes nothing else. -/
theorem outline_fill_key (f : Frame) {name gap name' gap' : Text} (hhead : f.head = .key name gap)
    (t : Sheet) : ({ f with head := .key name' gap' }.fill t).outline =
      (f.fill t).outline.replace [(Entry.outlinesOf f.before).length] (.scalar name') := by
  obtain ⟨bracket, l, houtline⟩ := f.exists_outline_fill
  have hold := houtline f.head t rfl
  rw [houtline (.key name' gap') t (by rw [hhead]; rfl), hold, hhead, Outline.replace,
    Outline.modify]
  show _ = Outline.group bracket
    ((Entry.outlinesOf f.before ++ .scalar name :: t.outline :: l).modify _ _)
  rw [modify_length]
  rfl

theorem nodes_fill (m : SourceMap) (f : Frame) (t : Sheet) (place : Nat) :
    ((f.fill t).tree m place).children[f.index]? =
      some (t.tree m (place + Text.size f.front)) := by
  obtain ⟨before, head, rest⟩ := f
  have hhead : ∀ p, (head.nodes m p).length = head.outlines.length := by
    intro p
    cases head <;> rfl
  rw [fill, Sheet.nodes_behind, index, ← Entry.length_outlinesOf m place,
    List.getElem?_append_right (Nat.le_add_right _ _), Nat.add_sub_cancel_left,
    ← hhead (place + Text.size (Entry.textOf before))]
  cases rest <;> simp [entry, Sheet.tree, front, Text.size_append, Nat.add_assoc]

/-- The key of a pair is the node in front of its value. -/
theorem nodes_fill_key (m : SourceMap) (f : Frame) {name gap : Text}
    (hhead : f.head = .key name gap)
    (t : Sheet) (place : Nat) :
    ((f.fill t).tree m place).children[(Entry.outlinesOf f.before).length]? =
      some ⟨.scalar name, m.position (place + Text.size (Entry.textOf f.before)),
        m.position (place + Text.size (Entry.textOf f.before) + Text.size name), none, []⟩ := by
  obtain ⟨before, head, rest⟩ := f
  obtain rfl : head = .key name gap := hhead
  rw [fill, Sheet.nodes_behind, ← Entry.length_outlinesOf m place,
    List.getElem?_append_right (Nat.le_refl _), Nat.sub_self]
  cases rest <;> rfl

end Frame

namespace Sheet

/-! ### Frames in frames -/

/-- The sheet with a node put in; the innermost frame comes first. -/
def plug : List Frame → Sheet → Sheet
  | [], t => t
  | f :: fs, t => plug fs (f.fill t)

/-- The text in front of the node. -/
def front : List Frame → Text
  | [] => []
  | f :: fs => front fs ++ f.front

/-- The text behind the node. -/
def back : List Frame → Text
  | [] => []
  | f :: fs => f.back ++ back fs

/-- The address of the node. -/
def addr : List Frame → Address
  | [] => []
  | f :: fs => addr fs ++ [f.index]

/-- The column of the node in a sheet at a column. -/
def columnIn (column : Nat) : List Frame → Nat
  | [] => column
  | f :: fs => Text.columnBehind (columnIn column fs) f.head.text

variable {column : Nat} {fs : List Frame} {t u : Sheet}

theorem text_plug (fs : List Frame) (t : Sheet) :
    (plug fs t).text = front fs ++ (t.text ++ back fs) := by
  induction fs generalizing t with
  | nil => simp [plug, front, back]
  | cons f fs ih => rw [plug, ih, f.text_fill, front, back]; simp

/-- The innermost frame belongs to what stands in the others. -/
theorem Fits.fill {f : Frame} (h : (Sheet.plug (f :: fs) t).Fits column) :
    (Sheet.plug fs (f.fill t)).Fits column := h

/-- The node in frames. -/
theorem Fits.of_plug (h : (Sheet.plug fs t).Fits column) : t.Fits (columnIn column fs) := by
  induction fs generalizing t with
  | nil => exact h
  | cons f fs ih => exact (Frame.fits_of_fill (ih h)).2.2

/-- What stands in the frames may stand there. -/
def FollowsIn (fs : List Frame) (t : Sheet) : Prop := ∀ f ∈ fs.head?, Follows f.head t

theorem FollowsIn.of_plug (h : (Sheet.plug fs t).Fits column) : FollowsIn fs t := by
  cases fs with
  | nil => exact nofun
  | cons f fs =>
      rintro _ ⟨⟩
      exact (Frame.fits_of_fill (Fits.of_plug h)).2.1

/-- Anything may stand where a collection does. -/
theorem FollowsIn.of_collection (h : (Sheet.plug fs t).Fits column) (hword : t.isWord = false) :
    FollowsIn fs u := by
  intro f hf hkey hfeed
  have := FollowsIn.of_plug h f hf hkey hfeed
  rw [hword] at this
  cases this

/-- **Another node is put in.** It has to end like the one that it replaces. -/
theorem Fits.plug (h : (Sheet.plug fs t).Fits column) (hu : u.Fits (columnIn column fs))
    (hfollows : FollowsIn fs u)
    (htail : Text.columnBehind 0 u.tail = Text.columnBehind 0 t.tail) :
    (Sheet.plug fs u).Fits column ∧ Text.columnBehind 0 (Sheet.plug fs u).tail =
      Text.columnBehind 0 (Sheet.plug fs t).tail := by
  induction fs generalizing t u with
  | nil => exact ⟨hu, htail⟩
  | cons f fs ih =>
      have hfill := Fits.of_plug h.fill
      exact ih h (Frame.fits_fill hfill (Frame.fits_of_fill hfill).1 rfl hu (hfollows f rfl) htail)
        (FollowsIn.of_collection h (f.isWord_fill t)) (Frame.columnBehind_tail_fill htail)

/-- Another node behind another head of the same kind. -/
theorem Fits.plug_head {f : Frame} {head : Head} (h : (Sheet.plug (f :: fs) t).Fits column)
    (hhead : head.Fits (columnIn column fs)) (hkey : head.isKey = f.head.isKey)
    (hu : u.Fits (Text.columnBehind (columnIn column fs) head.text))
    (hfollows : Follows head u)
    (htail : Text.columnBehind 0 u.tail = Text.columnBehind 0 t.tail) :
    (Sheet.plug ({ f with head := head } :: fs) u).Fits column ∧
      Text.columnBehind 0 (Sheet.plug ({ f with head := head } :: fs) u).tail =
        Text.columnBehind 0 (Sheet.plug (f :: fs) t).tail :=
  Fits.plug h.fill
    (Frame.fits_fill (Fits.of_plug h) hhead hkey hu hfollows htail)
    (FollowsIn.of_collection h (f.isWord_fill t)) (Frame.columnBehind_tail_fill htail)

theorem at?_plug (fs : List Frame) (t : Sheet) :
    (plug fs t).outline.at? (addr fs) = some t.outline := by
  induction fs generalizing t with
  | nil => rfl
  | cons f fs ih =>
      rw [plug, addr, Outline.at?_append (ih _), Outline.at?, f.children_fill]
      rfl

/-- **Nothing changes at other addresses.** -/
theorem outline_plug (fs : List Frame) (t u : Sheet) :
    (plug fs u).outline = (plug fs t).outline.replace (addr fs) u.outline := by
  induction fs generalizing t u with
  | nil => rfl
  | cons f fs ih =>
      rw [plug, plug, ih (f.fill t) (f.fill u), f.outline_fill rfl rfl t u, addr]
      exact ((Outline.modify_append _ _ _ _).trans
        (Outline.modify_eq_replace (at?_plug fs (f.fill t)))).symm

/-- Another node behind a head that says the same changes nothing at other addresses. -/
theorem outline_plug_head {f : Frame} {head : Head} (hkey : head.isKey = f.head.isKey)
    (hhead : head.outlines = f.head.outlines) (fs : List Frame) (t u : Sheet) :
    (plug ({ f with head := head } :: fs) u).outline =
      (plug (f :: fs) t).outline.replace (addr (f :: fs)) u.outline := by
  rw [plug, plug, outline_plug fs (f.fill t), f.outline_fill hkey hhead t u, addr]
  exact ((Outline.modify_append _ _ _ _).trans
    (Outline.modify_eq_replace (at?_plug fs (f.fill t)))).symm

/-- Another key changes nothing at other addresses. -/
theorem outline_plug_key {f : Frame} {name gap name' gap' : Text} (hhead : f.head = .key name gap)
    (fs : List Frame) (t : Sheet) :
    (plug ({ f with head := .key name' gap' } :: fs) t).outline =
      (plug (f :: fs) t).outline.replace (addr fs ++ [(Entry.outlinesOf f.before).length])
        (.scalar name') := by
  rw [plug, plug, outline_plug fs (f.fill t), f.outline_fill_key hhead t]
  exact ((Outline.modify_append _ _ _ _).trans
    (Outline.modify_eq_replace (at?_plug fs (f.fill t)))).symm

theorem addr_head {f : Frame} {head : Head} (hhead : head.outlines = f.head.outlines)
    (fs : List Frame) : addr ({ f with head := head } :: fs) = addr (f :: fs) := by
  rw [addr, addr, Frame.index, Frame.index, hhead]

theorem isReference_outline (t : Sheet) : t.outline.isReference = false := by
  cases t <;> rfl

theorem descendant?_plug (m : SourceMap) (fs : List Frame) (t : Sheet) (place : Nat) :
    ((plug fs t).tree m place).descendant? (addr fs) =
      some (t.tree m (place + Text.size (front fs))) := by
  induction fs generalizing t with
  | nil => simp [plug, addr, front, Node.descendant?]
  | cons f fs ih =>
      rw [plug, addr, Node.descendant?_append (ih _), Node.descendant?, f.nodes_fill, front,
        Text.size_append, Nat.add_assoc]
      rfl

/-! ### Walks -/

theorem plug_append (fs gs : List Frame) (t : Sheet) :
    plug (fs ++ gs) t = plug gs (plug fs t) := by
  induction fs generalizing t with
  | nil => rfl
  | cons f fs ih => exact ih _

theorem addr_append (fs gs : List Frame) : addr (fs ++ gs) = addr gs ++ addr fs := by
  induction fs with
  | nil => simp [addr]
  | cons f fs ih => rw [List.cons_append, addr, ih, addr, List.append_assoc]

theorem odd_of_valueIndex? {name : Text} {n i : Nat} {l : List Outline}
    (h : Outline.valueIndex? name n l = some i) : i % 2 = (n + 1) % 2 := by
  fun_induction Outline.valueIndex? name n l with
  | case1 => cases h; rfl
  | case2 n _ _ _ _ ih => rw [ih h]; omega
  | case3 => cases h

/-- A step leads to no key. -/
theorem exists_isKey?_of_step? {segment : Segment} {i : Nat}
    (h : t.outline.step? segment = some i) :
    ∃ k, t.isKey? = some k ∧ (k = true → i % 2 = 1) := by
  have hhead : ∀ {head : Head} {l : List Outline}, (Outline.group head.bracket l).step? segment =
      some i → head.isKey = true → i % 2 = 1 := by
    intro head l h hkey
    rw [Head.bracket, hkey] at h
    cases segment with
    | key => exact odd_of_valueIndex? h
    | _ => cases h
  cases t with
  | word => cases segment <;> cases h
  | last head node | more head node rest => exact ⟨head.isKey, rfl, hhead h⟩

/-- A child that is no key is the node of an entry. -/
theorem exists_fill {i : Nat} {child : Outline} (h : t.Fits column) (hk : t.isKey? = some k)
    (hi : t.outline.children[i]? = some child) (hvalue : k = true → i % 2 = 1) :
    ∃ (f : Frame) (u : Sheet), t = f.fill u ∧ f.index = i ∧ u.outline = child := by
  -- what is not in front of the node of the first entry
  have hfirst : ∀ {head : Head} {i : Nat}, some head.isKey = some k → (k = true → i % 2 = 1) →
      head.outlines.length ≤ i ∧ (k = true → head.outlines.length = 1) := by
    rintro (_ | _) i ⟨⟩ hvalue
    · exact ⟨Nat.zero_le i, nofun⟩
    · have := hvalue rfl
      exact ⟨by show 1 ≤ i; omega, fun _ => rfl⟩
  induction h generalizing i with
  | word => cases hk
  | @last _ head node _ _ _ _ =>
      obtain ⟨hle, -⟩ := hfirst hk hvalue
      rw [outline, Outline.children, List.getElem?_append_right hle] at hi
      obtain ⟨hzero, hchild⟩ : i - head.outlines.length = 0 ∧ node.outline = child := by
        simpa [List.getElem?_singleton] using hi
      refine ⟨⟨[], head, none⟩, node, rfl, ?_, hchild⟩
      show 0 + head.outlines.length = i
      omega
  | @more _ head node rest _ _ _ _ hkind _ _ ih =>
      obtain ⟨hle, hlength⟩ := hfirst hk hvalue
      rw [outline, Outline.children, List.getElem?_append_right hle] at hi
      by_cases hat : i = head.outlines.length
      · rw [hat, Nat.sub_self] at hi
        exact ⟨⟨[], head, some rest⟩, node, rfl, hat ▸ Nat.zero_add _, Option.some.inj hi⟩
      · obtain ⟨j, rfl⟩ := Nat.exists_eq_add_of_lt (Nat.lt_of_le_of_ne hle (Ne.symm hat))
        rw [show head.outlines.length + j + 1 - head.outlines.length = j + 1 by omega,
          List.getElem?_cons_succ] at hi
        have hrest : rest.isKey? = some k := hkind.trans hk
        have hodd : k = true → j % 2 = 1 := by
          intro hkey
          have := hvalue hkey
          have := hlength hkey
          omega
        obtain ⟨⟨before, head', rest'⟩, u, rfl, hindex, hu⟩ := ih hrest hi hodd
        refine ⟨⟨(head, node) :: before, head', rest'⟩, u, rfl, ?_, hu⟩
        rw [← hindex]
        simp [Frame.index, Entry.outlinesOf, Entry.outlines]
        omega

/-- **A walk ends at a node in frames.** -/
theorem exists_plug {segments : List Segment} {a : Address} (h : t.Fits column)
    (ha : Outline.walk segments t.outline = some a) :
    ∃ fs u, t = plug fs u ∧ addr fs = a := by
  induction segments generalizing t column a with
  | nil =>
      cases ha
      exact ⟨[], t, rfl, rfl⟩
  | cons segment rest ih =>
      obtain ⟨i, child, b, hi, hchild, -, hb, rfl⟩ := Outline.walk_cons_eq_some.mp ha
      obtain ⟨k, hk, hvalue⟩ := exists_isKey?_of_step? hi
      obtain ⟨f, u, rfl, rfl, rfl⟩ := exists_fill h hk hchild hvalue
      obtain ⟨fs, u', rfl, rfl⟩ := ih (Frame.fits_of_fill h).2.2 hb
      exact ⟨fs ++ [f], u', (plug_append fs [f] u').symm, addr_append fs [f]⟩

end Sheet

end YamlEdit
