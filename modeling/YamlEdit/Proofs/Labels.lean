import YamlEdit.Proofs.Building
import YamlEdit.Proofs.EventMarks
import YamlEdit.Proofs.Nodes
import YamlEdit.Proofs.WrittenNames

/-!
# Names, numbers and nodes

The parser gives anchors and aliases numbers; the builder looks the name of an anchor up in the text
when its node starts, and gives an alias the name that was noted under its number. Names are listed
here as they stand in the tree, those of keys as well (`Node.mentions`), and in a state of the
builder in the same order. A step appends what its event adds (`TreeBuilder.Adds`, one case for
each), so name number `n` in the list is the one that was found for the event with anchor number
`n`, and the one that is noted under it.

Main statement: `Node.named_of_ofEvents`.
-/

namespace YamlEdit

/-- A name in a tree: the one of an anchor, or the one that an alias refers to, with its place. -/
inductive Mention where
  | anchor (name : Text)
  | reference (name : Text) (start : Position)

namespace Mention

/-- The name of an anchor. -/
def anchor? : Mention → Option Text
  | anchor name => some name
  | reference _ _ => none

/-- The names of anchors, in their order. -/
def anchors (mentions : List Mention) : List Text := mentions.filterMap anchor?

@[simp] theorem anchors_append (l l' : List Mention) :
    anchors (l ++ l') = anchors l ++ anchors l' := by
  simp [anchors]

@[simp] theorem anchors_anchor (name : Text) : anchors [.anchor name] = [name] := rfl

@[simp] theorem anchors_reference (name : Text) (start : Position) :
    anchors [.reference name start] = [] := rfl

end Mention

namespace Node

/-- The names at a node itself. -/
def ownMentions (n : Node) : List Mention :=
  n.anchor.toList.map .anchor ++ n.alias?.toList.map (.reference · n.start)

mutual

/-- The names at a node and below it, in the order of the text. -/
def mentions : Node → List Mention
  | ⟨kind, start, stop, anchor, children⟩ =>
    ownMentions ⟨kind, start, stop, anchor, children⟩ ++ mentionsIn children

/-- The names in nodes that stand one after the other. -/
def mentionsIn : List Node → List Mention
  | [] => []
  | n :: rest => n.mentions ++ mentionsIn rest

end

theorem mentions_eq (n : Node) : n.mentions = n.ownMentions ++ mentionsIn n.children := by
  obtain ⟨kind, start, stop, anchor, children⟩ := n
  rw [mentions]

@[simp] theorem mentionsIn_nil : mentionsIn [] = [] := by rw [mentionsIn]

@[simp] theorem mentionsIn_append (l l' : List Node) :
    mentionsIn (l ++ l') = mentionsIn l ++ mentionsIn l' := by
  induction l with
  | nil => rw [mentionsIn_nil, List.nil_append, List.nil_append]
  | cons n rest ih => rw [List.cons_append, mentionsIn, mentionsIn, ih, List.append_assoc]

@[simp] theorem mentionsIn_singleton (n : Node) : mentionsIn [n] = n.mentions := by
  rw [mentionsIn, mentionsIn_nil, List.append_nil]

theorem mem_mentionsIn {l : List Node} {x : Mention} :
    x ∈ mentionsIn l ↔ ∃ n ∈ l, x ∈ n.mentions := by
  induction l with
  | nil => simp
  | cons n rest ih => simp [mentionsIn, ih]

/-- What is at a node below is in the list. -/
theorem mem_mentions_of_descendant? {n d : Node} {a : Address} {x : Mention}
    (h : n.descendant? a = some d) (hx : x ∈ d.ownMentions) : x ∈ n.mentions := by
  induction a generalizing n with
  | nil =>
      cases h
      rw [mentions_eq]
      exact List.mem_append_left _ hx
  | cons i rest ih =>
      obtain ⟨c, hc, hd⟩ := descendant?_cons_eq_some.mp h
      rw [mentions_eq]
      exact List.mem_append_right _
        (mem_mentionsIn.mpr ⟨c, List.mem_of_getElem? hc, ih hd⟩)

/-- The names of the anchors of a tree, in the order of the text. -/
def names (n : Node) : List Text := Mention.anchors n.mentions

end Node

namespace Event

/-- The name that the text gives to the anchor of an event. -/
def nameAt (m : SourceMap) (y : Event × Span) : Except BadOffset Text := do
  let (anchor, place) ← anchorAt m y
  TreeBuilder.anchorName m anchor place

/-- Whether the name that an event is given stands in front of its node, or none does and the name
is made of its number. -/
def Shows (source : Text) (y : Event × Span) (name : Text) : Prop :=
  ∃ place, anchorAt (SourceMap.ofText source) y = .ok (y.1.anchorNumber, place) ∧
    (Extent.IsNamed source place name ∨
      (¬ ∃ own, Extent.IsNamed source place own) ∧
        name = "anchor-".toList ++ Text.ofNat y.1.anchorNumber)

/-- The anchor that a name is looked for is that of the event. -/
theorem anchorAt_number {m : SourceMap} {y : Event × Span} {anchor place : Nat}
    (h : anchorAt m y = .ok (anchor, place)) (hy : y.1.anchorNumber ≠ 0) :
    anchor = y.1.anchorNumber := by
  obtain ⟨e, span⟩ := y
  cases e with
  | scalar text style n =>
      obtain ⟨_, -, h⟩ := bind_eq_ok.mp h
      obtain ⟨_, -, h⟩ := bind_eq_ok.mp h
      cases h
      rfl
  | sequenceStart n | mappingStart n =>
      cases h
      rfl
  | _ => exact absurd rfl hy

/-- **The name that is given is the one that stands there.** -/
theorem shows_iff {source : Text} {y : Event × Span} {name own : Text}
    (h : nameAt (SourceMap.ofText source) y = .ok own) (hy : y.1.anchorNumber ≠ 0) :
    Shows source y name ↔ own = name := by
  obtain ⟨⟨anchor, place⟩, hanchor, hname⟩ := bind_eq_ok.mp h
  obtain rfl := anchorAt_number hanchor hy
  obtain ⟨label, hlabel, rfl⟩ := map_eq_ok.mp hname
  replace hlabel : Extent.anchorLabel source place = .ok label := hlabel
  have hplace : Shows source y name ↔ Extent.IsNamed source place name ∨
      (¬ ∃ own, Extent.IsNamed source place own) ∧
        name = "anchor-".toList ++ Text.ofNat y.1.anchorNumber := by
    constructor
    · rintro ⟨place', hanchor', h⟩
      cases hanchor.symm.trans hanchor'
      exact h
    · exact fun h => ⟨place, hanchor, h⟩
  rw [hplace]
  simp only [← Extent.anchorLabel_eq_some, hlabel, Except.ok.injEq]
  cases label with
  | none => simp [eq_comm]
  | some own => simp

end Event

namespace TreeBuilder

/-! ## The names in a state -/

/-- The names in open collections, the innermost of which comes first. -/
def openMentions : List OpenCollection → List Mention
  | [] => []
  | c :: outer =>
    openMentions outer ++ (c.anchor.toList.map .anchor ++ Node.mentionsIn c.children.reverse)

/-- The names in what is open. -/
def Stage.mentions : Stage → List Mention
  | .inside nest => openMentions nest
  | _ => []

/-- The names so far, in the order of the text. -/
def State.mentions (s : State) : List Mention :=
  Node.mentionsIn s.documents.reverse ++ s.stage.mentions

/-- The names of the anchors so far. -/
def State.names (s : State) : List Text := Mention.anchors s.mentions

section Mentions

variable {m : SourceMap} {s s' : State} {nest : List OpenCollection} {n : Node}

theorem mentions_inside (hstage : s.stage = .inside nest) :
    s.mentions = Node.mentionsIn s.documents.reverse ++ openMentions nest := by
  rw [State.mentions, hstage, Stage.mentions]

/-- A node is put behind everything that is there. -/
theorem mentions_placed (s : State) (nest : List OpenCollection) (n : Node) :
    (s.placed nest n).mentions =
      Node.mentionsIn s.documents.reverse ++ openMentions nest ++ n.mentions := by
  cases nest with
  | nil =>
      show Node.mentionsIn (⟨.document, n.start, n.stop, none, [n]⟩ :: s.documents).reverse ++ [] =
        _
      rw [List.reverse_cons, Node.mentionsIn_append, Node.mentionsIn_singleton, Node.mentions_eq]
      simp [Node.ownMentions, Node.alias?, openMentions]
  | cons c outer =>
      show _ ++ openMentions ({ c with children := n :: c.children } :: outer) = _
      simp [openMentions, State.placed]

/-- The name of an anchor is the one that is found in front of a place; anchor zero has none. -/
def Found (m : SourceMap) (anchor place : Nat) : Option Text → Prop
  | none => anchor = 0
  | some name => anchor ≠ 0 ∧ anchorName m anchor place = .ok name

/-- An anchor is looked up in the text and noted. -/
theorem found_of_label {anchor place : Nat} {own : Option Text}
    (h : label m anchor place s = .ok (own, s')) :
    Found m anchor place own ∧
      s' = { s with labels := own.toList.map (anchor, ·) ++ s.labels } := by
  unfold label at h
  split at h
  · next hzero =>
      cases h
      exact ⟨hzero, rfl⟩
  · next hanchor =>
      rw [offsets_bind] at h
      obtain ⟨name, hname, h⟩ := h
      cases h
      exact ⟨⟨hanchor, hname⟩, rfl⟩

end Mentions

/-! ## Steps -/

/-- What the event of a step adds to the names. -/
inductive Adds (m : SourceMap) (s : State) (y : Event × Span) (s' : State) : Prop where
  | nothing (hevent : ∀ n, y.1 ≠ .aliasTo n) (hzero : y.1.anchorNumber = 0)
      (hmentions : s'.mentions = s.mentions) (hlabels : s'.labels = s.labels)
  | anchor {name : Text} (hnumber : y.1.anchorNumber ≠ 0) (hname : Event.nameAt m y = .ok name)
      (hmentions : s'.mentions = s.mentions ++ [.anchor name])
      (hlabels : s'.labels = (y.1.anchorNumber, name) :: s.labels)
  | reference {n : Nat} {name : Text} {stop : Nat} (hevent : y.1 = .aliasTo n)
      (hname : aliasName m (s.labels.lookup n) (m.offsetOfMark y.2.start) stop = .ok name)
      (hmentions : s'.mentions =
        s.mentions ++ [.reference name (m.position (m.offsetOfMark y.2.start))])
      (hlabels : s'.labels = s.labels)

section Adds

variable {m : SourceMap} {s s' : State} {nest : List OpenCollection} {e : Event} {span : Span}

/-- An event that makes no node and opens no collection. -/
theorem adds_nothing (hevent : ∀ n, e ≠ .aliasTo n) (hzero : e.anchorNumber = 0)
    (hdocuments : s'.documents = s.documents) (hlabels : s'.labels = s.labels)
    (hstage : s.stage.mentions = []) (hstage' : s'.stage.mentions = []) :
    Adds m s (e, span) s' := by
  refine .nothing hevent hzero ?_ hlabels
  rw [State.mentions, State.mentions, hdocuments, hstage, hstage']

/-- A name that has been looked for is added. -/
theorem adds_of_label {place : Nat} {own : Option Text}
    (hanchor : Event.anchorAt m (e, span) = .ok (e.anchorNumber, place))
    (hevent : ∀ n, e ≠ .aliasTo n)
    (hown : Found m e.anchorNumber place own)
    (hmentions : s'.mentions = s.mentions ++ own.toList.map .anchor)
    (hlabels : s'.labels = own.toList.map (e.anchorNumber, ·) ++ s.labels) :
    Adds m s (e, span) s' := by
  cases own with
  | none => exact .nothing hevent hown (by simpa using hmentions) hlabels
  | some name =>
      refine .anchor hown.1 ?_ hmentions hlabels
      exact bind_eq_ok.mpr ⟨_, hanchor, hown.2⟩

theorem adds_opener {isMapping : Bool} {anchor : Nat} {c : OpenCollection} {s₁ : State}
    (hstage : s.stage = .inside nest)
    (hc : openCollection m isMapping anchor span s = .ok (c, s₁)) :
    Adds m s (openerOf isMapping anchor, span) { s₁ with stage := .inside (c :: nest) } := by
  unfold openCollection at hc
  rw [offsets_bind] at hc
  obtain ⟨opened, -, hc⟩ := hc
  rw [stateful_bind_eq_ok] at hc
  obtain ⟨own, s₂, hlabel, hc⟩ := hc
  cases hc
  obtain ⟨hown, rfl⟩ := found_of_label hlabel
  have hnumber : (openerOf isMapping anchor).anchorNumber = anchor := by cases isMapping <;> rfl
  have hanchor : Event.anchorAt m (openerOf isMapping anchor, span) =
      .ok ((openerOf isMapping anchor).anchorNumber, m.offsetOfMark span.start) := by
    cases isMapping <;> rfl
  rw [← hnumber] at hown
  refine adds_of_label hanchor (by cases isMapping <;> exact nofun) hown ?_ ?_
  · rw [mentions_inside hstage]
    show _ ++ openMentions (⟨isMapping, opened, own, []⟩ :: nest) = _
    simp [openMentions]
  · rw [hnumber]

/-- A collection that is closed keeps its names and their place. -/
theorem adds_closer {c : OpenCollection} {outer : List OpenCollection} {n : Node}
    (hstage : s.stage = .inside (c :: outer)) (he : e = .sequenceEnd ∨ e = .mappingEnd)
    (hn : close m c s = .ok (n, s)) : Adds m s (e, span) (s.placed outer n) := by
  obtain ⟨style, start, stop, -, -, rfl, -, -⟩ := close_eq hn
  have halias : Node.alias? ⟨kindOf c.isMapping style, m.position start, m.position stop, c.anchor,
      c.children.reverse⟩ = none := by
    unfold kindOf
    cases c.isMapping <;> rfl
  have hnone : (∀ n, e ≠ .aliasTo n) ∧ e.anchorNumber = 0 := by
    rcases he with rfl | rfl <;> exact ⟨nofun, rfl⟩
  refine .nothing hnone.1 hnone.2 ?_ (by cases outer <;> rfl)
  rw [mentions_placed, mentions_inside hstage, Node.mentions_eq]
  simp [Node.ownMentions, halias, openMentions]

/-- **A step of the builder** adds the names of its event, at the end. -/
theorem adds_of_step (hended : s.stage ≠ .ended) (h : step m e span s = .ok ((), s')) :
    Adds m s (e, span) s' := by
  cases reads_of_step h with
  | behind hstage => exact absurd hstage hended
  | stream hstage | documentEnd hstage =>
      exact adds_nothing nofun rfl rfl rfl (by rw [hstage]; rfl) rfl
  | document hstage | streamEnd hstage =>
      exact adds_nothing nofun rfl rfl rfl (by rcases hstage with h | h <;> (rw [h]; rfl)) rfl
  | @scalar nest text style anchor _ _ _ hstage hn =>
      obtain ⟨start, first, last, taken, own, hstart, hextent, hlabel, rfl⟩ := scalar_eq hn
      obtain ⟨hown, rfl⟩ := found_of_label hlabel
      have hanchor : Event.anchorAt m (.scalar text style anchor, span) =
          .ok (anchor, min (m.offsetOfMark span.start) first) :=
        bind_eq_ok.mpr ⟨start, hstart, bind_eq_ok.mpr ⟨_, hextent, rfl⟩⟩
      refine adds_of_label hanchor nofun hown ?_ ?_
      · rw [mentions_placed, mentions_inside hstage, Node.mentions_eq]
        simp [Node.ownMentions, Node.alias?]
      · cases nest <;> rfl
  | @reference nest _ _ _ hstage hn =>
      obtain ⟨stop, name, -, hname, rfl⟩ := aliasNode_eq hn
      refine .reference rfl hname ?_ ?_
      · rw [mentions_placed, mentions_inside hstage, Node.mentions_eq]
        simp [Node.ownMentions, Node.alias?]
      · cases nest <;> rfl
  | opener hstage he hc =>
      subst he
      exact adds_opener hstage hc
  | closer hstage he hn => exact adds_closer hstage he hn

end Adds

end TreeBuilder

/-! ## Runs -/

/-- Whether an alias is written at a position, and the name is the one that a list has under the
number of what is written. -/
def Mention.Refers (source : Text) (names : List Text) (name : Text) (start : Position) : Prop :=
  ∃ rest k, source.dropBytes ((SourceMap.ofText source).offset start) = .ok ('*' :: rest) ∧
    Token.Names (Token.scan source).tokens (k + 1) (rest.takeWhile Token.isAnchorChar) ∧
    names[k]? = some name

/-- Names that are those of the given events of a text. -/
structure Mention.Named (source : Text) (events : List (Event × Span)) (mentions : List Mention) :
    Prop where
  length : (anchors mentions).length = (Event.anchorNumbers events).length
  /-- The name of an anchor is the one that is found for its event. -/
  found : ∀ y ∈ events, ∀ k, y.1.anchorNumber = k + 1 →
    ∃ name, Event.nameAt (SourceMap.ofText source) y = .ok name ∧ (anchors mentions)[k]? = some name
  /-- The name of an alias is the one of the anchor with its number. -/
  references : ∀ name start, .reference name start ∈ mentions →
    Refers source (anchors mentions) name start

/-- A list of names that goes on refers to the same. -/
theorem Mention.Refers.append {source : Text} {names : List Text} {name : Text} {start : Position}
    (h : Refers source names name start) (more : List Text) :
    Refers source (names ++ more) name start := by
  obtain ⟨rest, k, hrest, hnames, hname⟩ := h
  obtain ⟨hlt, -⟩ := List.getElem?_eq_some_iff.mp hname
  exact ⟨rest, k, hrest, hnames, (List.getElem?_append_left hlt).trans hname⟩

namespace Event

variable {source : Text} {front rest : List (Event × Span)} {y : Event × Span}

theorem anchorNumbers_append (events events' : List (Event × Span)) :
    anchorNumbers (events ++ events') = anchorNumbers events ++ anchorNumbers events' := by
  simp [anchorNumbers]

theorem anchorNumbers_concat (events : List (Event × Span)) (y : Event × Span) :
    anchorNumbers (events ++ [y]) =
      anchorNumbers events ++ if y.1.anchorNumber = 0 then [] else [y.1.anchorNumber] := by
  rw [anchorNumbers_append, anchorNumbers_cons]
  rfl

/-- An anchor has the number that comes next. -/
theorem Marked.next (h : Marked source (front ++ y :: rest)) (hy : y.1.anchorNumber ≠ 0) :
    y.1.anchorNumber = (anchorNumbers front).length + 1 := by
  have hsplit : anchorNumbers (front ++ y :: rest) =
      anchorNumbers front ++ y.1.anchorNumber :: anchorNumbers rest := by
    rw [anchorNumbers_append, anchorNumbers_cons, if_neg hy]
  have hnumber : (anchorNumbers (front ++ y :: rest))[(anchorNumbers front).length]? =
      some y.1.anchorNumber := by
    rw [hsplit]
    simp
  rw [h.numbered, List.getElem?_range' (by rw [hsplit]; simp)] at hnumber
  have := Option.some.inj hnumber
  omega

end Event

namespace Mention.Named

variable {source : Text} {front : List (Event × Span)} {y : Event × Span} {l : List Mention}
  {name : Text} {start : Position}

/-- An event without an anchor adds nothing. -/
theorem skip (h : Named source front l) (hzero : y.1.anchorNumber = 0) :
    Named source (front ++ [y]) l where
  length := by rw [h.length, Event.anchorNumbers_concat, if_pos hzero, List.append_nil]
  found := by
    intro z hz k hk
    rcases List.mem_append.mp hz with hz | hz
    · exact h.found z hz k hk
    · rw [List.mem_singleton.mp hz, hzero] at hk
      cases hk
  references := h.references

/-- The name of an alias is added. -/
theorem reference (h : Named source front l) (hrefers : Refers source (anchors l) name start) :
    Named source front (l ++ [.reference name start]) := by
  have hsame : anchors (l ++ [.reference name start]) = anchors l := by simp
  refine ⟨by rw [hsame, h.length], by rw [hsame]; exact h.found, fun name' start' hmem => ?_⟩
  rw [hsame]
  rcases List.mem_append.mp hmem with hmem | hmem
  · exact h.references name' start' hmem
  · cases List.mem_singleton.mp hmem
    exact hrefers

/-- The name of the next anchor is added. -/
theorem anchor (h : Named source front l)
    (hnext : y.1.anchorNumber = (Event.anchorNumbers front).length + 1)
    (hname : Event.nameAt (SourceMap.ofText source) y = .ok name) :
    Named source (front ++ [y]) (l ++ [.anchor name]) := by
  have hadded : anchors (l ++ [.anchor name]) = anchors l ++ [name] := by simp
  have hlength := h.length
  refine ⟨?_, fun z hz k hk => ?_, fun name' start hmem => ?_⟩
  · rw [hadded, Event.anchorNumbers_concat, if_neg (by omega), List.length_append,
      List.length_append, hlength]
    rfl
  · rw [hadded]
    rcases List.mem_append.mp hz with hz | hz
    · obtain ⟨own, hown, hk⟩ := h.found z hz k hk
      obtain ⟨hlt, -⟩ := List.getElem?_eq_some_iff.mp hk
      exact ⟨own, hown, (List.getElem?_append_left hlt).trans hk⟩
    · cases List.mem_singleton.mp hz
      refine ⟨name, hname, ?_⟩
      rw [show k = (anchors l).length by omega]
      simp
  · rw [hadded]
    rcases List.mem_append.mp hmem with hmem | hmem
    · exact (h.references name' start hmem).append _
    · cases List.mem_singleton.mp hmem

end Mention.Named

namespace TreeBuilder

/-- The names so far are those of the given events, and they are noted under their numbers. -/
structure State.Named (source : Text) (front : List (Event × Span)) (s : State) : Prop where
  mentions : Mention.Named source front s.mentions
  labels : ∀ k, s.labels.lookup (k + 1) = s.names[k]?

section Runs

variable {source : Text} {s s' : State} {front rest : List (Event × Span)} {y : Event × Span}

/-- A name that is noted under the next number is the next one. -/
theorem lookup_next {labels : List (Nat × Text)} {names : List Text} {name : Text}
    (h : ∀ k, labels.lookup (k + 1) = names[k]?) (k : Nat) :
    ((names.length + 1, name) :: labels).lookup (k + 1) = (names ++ [name])[k]? := by
  rw [List.lookup_cons]
  by_cases hk : k = names.length
  · simp [hk]
  · have hne : (k + 1 == names.length + 1) = false := by simpa using hk
    rw [hne, h k]
    rcases Nat.lt_or_gt_of_ne hk with hlt | hgt
    · rw [List.getElem?_append_left hlt]
    · rw [List.getElem?_eq_none (by omega), List.getElem?_eq_none (by simp; omega)]

/-- An alias that is written in the text refers to a name that has been noted. -/
theorem refers_of_alias (hmarked : Event.Marked source (front ++ y :: rest))
    (hs : s.Named source front) {n : Nat} {name : Text} {stop : Nat} (hevent : y.1 = .aliasTo n)
    (hname : aliasName (SourceMap.ofText source) (s.labels.lookup n)
      ((SourceMap.ofText source).offsetOfMark y.2.start) stop = .ok name) :
    Mention.Refers source s.names name
      ((SourceMap.ofText source).position ((SourceMap.ofText source).offsetOfMark y.2.start)) := by
  obtain ⟨written, text, hwritten, hdrop, rfl⟩ :=
    hmarked.references y (by simp) n hevent
  obtain ⟨k, rfl⟩ := Nat.exists_eq_succ_of_ne_zero hwritten.1
  have hlt : k < s.names.length := by
    have hsplit : front ++ y :: rest = front ++ (.aliasTo (k + 1), y.2) :: rest := by rw [← hevent]
    have hle := hmarked.earlier hsplit
    have hlength : s.names.length = (Event.anchorNumbers front).length := hs.mentions.length
    omega
  -- the number has a name, so the text is not asked for it
  rw [hs.labels k, List.getElem?_eq_getElem hlt] at hname
  cases hname
  have hoffset := @SourceMap.offset_position source _
    ((SourceMap.ofText source).isBoundary_offsetOfMark y.2.start).le_size
  refine ⟨text, k, ?_, hwritten, List.getElem?_eq_getElem hlt⟩
  rw [hoffset, ← hdrop]
  exact (SourceMap.ofText source).dropBytes_offsetOfMark y.2.start

/-- **What a step adds keeps names and numbers together.** -/
theorem named_of_adds (hmarked : Event.Marked source (front ++ y :: rest))
    (hs : s.Named source front) (h : Adds (SourceMap.ofText source) s y s') :
    s'.Named source (front ++ [y]) := by
  cases h with
  | nothing _ hzero hmentions hlabels =>
      refine ⟨hmentions ▸ hs.mentions.skip hzero, ?_⟩
      rw [State.names, hmentions, hlabels]
      exact hs.labels
  | @anchor name hnumber hname hmentions hlabels =>
      have hnext := hmarked.next hnumber
      have hnames : s'.names = s.names ++ [name] := by
        rw [State.names, hmentions, Mention.anchors_append, Mention.anchors_anchor, State.names]
      refine ⟨hmentions ▸ hs.mentions.anchor hnext hname, ?_⟩
      rw [hlabels, hnames, hnext, ← hs.mentions.length]
      exact lookup_next hs.labels
  | @reference n name stop hevent hname hmentions hlabels =>
      have hrefers := refers_of_alias hmarked hs hevent hname
      have hnames : s'.names = s.names := by
        rw [State.names, hmentions, Mention.anchors_append, Mention.anchors_reference,
          List.append_nil, State.names]
      refine ⟨hmentions ▸ (hs.mentions.reference hrefers).skip (by rw [hevent]; rfl), ?_⟩
      rw [hlabels, hnames]
      exact hs.labels

/-- The same for all events, one after the other. -/
theorem named_of_steps {signs : List Sign} (hmarked : Event.Marked source (front ++ rest))
    (hs : s.Named source front) (hfits : List.Forall₂ Event.Fits rest signs)
    (hroles : Role.ReadsAll s.stage.roles signs)
    (h : steps (SourceMap.ofText source) rest s = .ok ((), s')) :
    s'.Named source (front ++ rest) := by
  induction hfits generalizing s front with
  | nil =>
      cases h
      simpa using hs
  | @cons y sign rest signs hfit _ ih =>
      obtain ⟨e, span⟩ := y
      obtain ⟨look, rfl⟩ := hfit
      obtain ⟨s₁, hstep, hrest⟩ := steps_cons.mp h
      -- after the end of the stream there is no event
      have hended : s.stage ≠ .ended := by
        intro hended
        rw [hended] at hroles
        cases hroles
      have hroles₁ := (yields_iff.mp (step_progress hroles)).1 _ hstep
      have hs₁ := named_of_adds hmarked hs (adds_of_step hended hstep)
      rw [List.append_cons] at hmarked ⊢
      exact ih hmarked hs₁ hroles₁ hrest

/-- The names in a tree are those of its documents. -/
theorem mentions_of_finish {m : SourceMap} {root : Node} (h : finish m s = .ok root) :
    root.mentions = s.mentions := by
  obtain rfl := finish_eq h
  have hstage : s.stage.mentions = [] := by
    unfold finish at h
    cases hstage : s.stage with
    | inside nest =>
        rw [hstage] at h
        cases nest <;> cases h
    | _ => rfl
  rw [Node.mentions_eq, State.mentions, hstage, List.append_nil]
  rfl

end Runs

end TreeBuilder

/-- **The names in the tree of a text are those of its events.** -/
theorem Node.named_of_ofEvents {source : Text} {events : List (Event × Span)} {root : Node}
    (hevents : Event.ofDocument source = .ok events)
    (h : Node.ofEvents (SourceMap.ofText source) events = .ok root) :
    Mention.Named source events root.mentions := by
  obtain ⟨⟨⟨⟩, s⟩, hsteps, hfinish⟩ := bind_eq_ok.mp h
  obtain ⟨contents, hcontents, hsigns⟩ := Event.nested_of_ofTokens hevents
    (Event.fits_signs (SourceMap.ofText source) [] events)
  have hstart : TreeBuilder.start.Named source [] :=
    ⟨⟨rfl, fun _ hy => (nomatch hy), fun _ _ hmem => (nomatch hmem)⟩, fun _ => rfl⟩
  have hroles : Role.ReadsAll TreeBuilder.start.stage.roles
      (Event.signs (SourceMap.ofText source) [] events) :=
    Role.readsAll_singleton ⟨contents, hcontents, hsigns⟩
  rw [TreeBuilder.mentions_of_finish hfinish]
  exact (TreeBuilder.named_of_steps (Event.marked_of_ofDocument hevents) hstart
    (Event.fits_signs _ _ _) hroles hsteps).mentions

end YamlEdit
