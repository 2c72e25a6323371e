import YamlEdit.Proofs.Building
import YamlEdit.Proofs.OffsetErrors

/-!
# Trees of events

Well-nested events are the events of an `EventTree`, in documents of an `EventStream`. The builder
takes all of them and makes nodes that mirror them (`TreeBuilder.steps_tree`, by induction on the
tree together with its children): kinds and children are those of the events, and a node is
anchored if its event has a number. What is known of the names of anchors is passed on from node to
node in the order of the text, so that an alias has the name of the latest node with its number.
Besides a mapping with an odd number of children, only an offset can be in the way, and exactly if
an event trips the builder (`TreeBuilder.trips_iff`).

Main statement: `EventStream.ofEvents_cases`.
-/

namespace YamlEdit

open TreeBuilder (openerOf kindOf)

/-- A node in a list of events: the events that it takes. -/
inductive EventTree where
  | scalar (text : Text) (style : ScalarStyle) (anchor : Nat) (span : Span)
  | reference (anchor : Nat) (span : Span)
  | collection (isMapping : Bool) (anchor : Nat) (opened : Span) (children : List EventTree)
      (closed : Span)

/-- The event that closes a collection. -/
def closerOf (isMapping : Bool) : Event := if isMapping then .mappingEnd else .sequenceEnd

namespace EventTree

mutual

/-- The events of a node, in their order. -/
def events : EventTree → List (Event × Span)
  | scalar text style anchor span => [(.scalar text style anchor, span)]
  | reference anchor span => [(.aliasTo anchor, span)]
  | collection isMapping anchor opened children closed =>
    (openerOf isMapping anchor, opened) :: (eventsOf children ++ [(closerOf isMapping, closed)])

/-- The events of nodes that stand one after the other. -/
def eventsOf : List EventTree → List (Event × Span)
  | [] => []
  | tree :: rest => tree.events ++ eventsOf rest

end

mutual

/-- Whether a node is a mapping with an odd number of children, or holds one. -/
def hasOdd : EventTree → Bool
  | scalar .. | reference .. => false
  | collection isMapping _ _ children _ =>
    isMapping && children.length % 2 != 0 || anyOdd children

/-- Whether one of some nodes is, or holds, a mapping with an odd number of children. -/
def anyOdd : List EventTree → Bool
  | [] => false
  | tree :: rest => tree.hasOdd || anyOdd rest

end

end EventTree

/-- A document in a list of events. -/
structure EventDocument where
  opened : Span
  content : EventTree
  closed : Span

/-- The events of a document. -/
def EventDocument.events (d : EventDocument) : List (Event × Span) :=
  (.documentStart, d.opened) :: (d.content.events ++ [(.documentEnd, d.closed)])

/-- A list of events as the documents that it holds. -/
structure EventStream where
  opened : Span
  documents : List EventDocument
  closed : Span

namespace EventStream

/-- The events of a stream but for the last one. -/
def eventsBeforeEnd (stream : EventStream) : List (Event × Span) :=
  (.streamStart, stream.opened) :: stream.documents.flatMap EventDocument.events

/-- The events of a stream. -/
def events (stream : EventStream) : List (Event × Span) :=
  stream.eventsBeforeEnd ++ [(.streamEnd, stream.closed)]

/-- Whether some mapping of a stream has an odd number of children. -/
def hasOdd (stream : EventStream) : Bool := stream.documents.any fun d => d.content.hasOdd

end EventStream

/-! ## Nodes that mirror events -/

/-- The names of anchors after a node with the given number and anchor. A node is anchored if its
number is not zero. -/
inductive Event.Registers (labels : Event.Labels) : Nat → Option Text → Event.Labels → Prop where
  | unanchored : Registers labels 0 none labels
  | anchored {anchor : Nat} (name : Text) (h : anchor ≠ 0) :
      Registers labels anchor (some name) ((anchor, name) :: labels)

/-- Whether a plain scalar has no width, seen from behind its properties. -/
def Event.IsMissing (m : SourceMap) (style : ScalarStyle) (span : Span) : Prop :=
  style = .plain ∧ ∃ start, Extent.skipProperties m.source (m.offsetOfMark span.start) = .ok start ∧
    m.offsetOfMark span.stop ≤ start

/-- A node that is made of the event of a scalar: it is where its extent is, and has the text that
comes with that. -/
structure Node.OfScalar (m : SourceMap) (text : Text) (style : ScalarStyle) (span : Span)
    (n : Node) : Prop where
  made : ∃ start first last taken,
    Extent.skipProperties m.source (m.offsetOfMark span.start) = .ok start ∧
    TreeBuilder.scalarExtent m text style start (max (m.offsetOfMark span.stop) start) =
      .ok (first, last, taken) ∧
    n.kind = .scalar taken ∧ n.start = m.position first ∧ n.stop = m.position last
  leaf : n.children = []

/-- A node that is made of the event of an alias, in the light of the names so far: it has the
latest one for its number, if there is one. -/
structure Node.OfReference (m : SourceMap) (labels : Event.Labels) (anchor : Nat) (span : Span)
    (n : Node) : Prop where
  made : ∃ name stop, Extent.aliasEnd m.source (m.offsetOfMark span.start) = .ok stop ∧
    n.kind = .aliasTo name ∧ n.start = m.position (m.offsetOfMark span.start) ∧
    n.stop = m.position (stop.getD (m.offsetOfMark span.stop)) ∧
    ∀ known, labels.lookup anchor = some known → name = known
  unanchored : n.anchor = none
  leaf : n.children = []

/-- A node that is made of the events that open and close a collection: it is where the extent of
its children is. -/
def Node.OfCollection (m : SourceMap) (isMapping : Bool) (opened : Span) (n : Node) : Prop :=
  ∃ c style first last, c.isMapping = isMapping ∧
    Extent.skipProperties m.source (m.offsetOfMark opened.start) = .ok c.opened ∧
    TreeBuilder.collectionStyle m c = .ok style ∧
    TreeBuilder.collectionExtent m c style n.children = .ok (first, last) ∧
    n.kind = kindOf isMapping style ∧ n.start = m.position first ∧ n.stop = m.position last

namespace EventTree

mutual

/-- A node that says what its events say: `labels` are the names of anchors in front of it, and
`labels'` those behind it. -/
inductive Mirrors (m : SourceMap) : Event.Labels → EventTree → Node → Event.Labels → Prop where
  | scalar {labels labels' : Event.Labels} {text : Text} {style : ScalarStyle} {anchor : Nat}
      {span : Span} {n : Node} (made : n.OfScalar m text style span)
      (registers : Event.Registers labels anchor n.anchor labels') :
      Mirrors m labels (.scalar text style anchor span) n labels'
  | reference {labels : Event.Labels} {anchor : Nat} {span : Span} {n : Node}
      (made : n.OfReference m labels anchor span) :
      Mirrors m labels (.reference anchor span) n labels
  | collection {labels inner labels' : Event.Labels} {isMapping : Bool} {anchor : Nat}
      {opened closed : Span} {children : List EventTree} {n : Node}
      (made : n.OfCollection m isMapping opened)
      (registers : Event.Registers labels anchor n.anchor inner)
      (held : MirrorsAll m inner children n.children labels') :
      Mirrors m labels (.collection isMapping anchor opened children closed) n labels'

/-- Nodes that say, one after the other, what their events say. -/
inductive MirrorsAll (m : SourceMap) :
    Event.Labels → List EventTree → List Node → Event.Labels → Prop where
  | nil {labels : Event.Labels} : MirrorsAll m labels [] [] labels
  | cons {labels between labels' : Event.Labels} {tree : EventTree} {rest : List EventTree}
      {n : Node} {nodes : List Node} (head : Mirrors m labels tree n between)
      (tail : MirrorsAll m between rest nodes labels') :
      MirrorsAll m labels (tree :: rest) (n :: nodes) labels'

end

/-- There is one node for each tree. -/
theorem MirrorsAll.length_eq {m : SourceMap} {labels labels' : Event.Labels}
    {trees : List EventTree} {nodes : List Node} (h : MirrorsAll m labels trees nodes labels') :
    nodes.length = trees.length := by
  induction trees generalizing labels nodes with
  | nil =>
      cases h
      rfl
  | cons tree rest ih =>
      cases h with
      | cons _ tail => rw [List.length_cons, List.length_cons, ih tail]

end EventTree

/-- The documents of a tree, which say what their events say. -/
inductive EventDocument.MirrorsAll (m : SourceMap) :
    Event.Labels → List EventDocument → List Node → Prop where
  | nil {labels : Event.Labels} : MirrorsAll m labels [] []
  | cons {labels labels' : Event.Labels} {d : EventDocument} {rest : List EventDocument} {n : Node}
      {nodes : List Node} (head : d.content.Mirrors m labels n labels')
      (tail : MirrorsAll m labels' rest nodes) :
      MirrorsAll m labels (d :: rest) (⟨.document, n.start, n.stop, none, [n]⟩ :: nodes)

/-- A tree that says what the events of a stream say. -/
structure EventStream.Mirrors (m : SourceMap) (stream : EventStream) (root : Node) : Prop where
  kind : root.kind = .stream
  unanchored : root.anchor = none
  documents : EventDocument.MirrorsAll m [] stream.documents root.children

/-- **The text of a scalar node** is that of its event, or the empty one if it is missing. -/
theorem Node.OfScalar.text {m : SourceMap} {text : Text} {style : ScalarStyle} {span : Span}
    {n : Node} (h : n.OfScalar m text style span) :
    Event.IsMissing m style span ∧ n.kind = .scalar [] ∨
      ¬ Event.IsMissing m style span ∧ n.kind = .scalar text := by
  obtain ⟨start, first, last, taken, hstart, hextent, hkind, -, -⟩ := h.made
  have htaken := TreeBuilder.scalarExtent_text hextent
  split at htaken
  · next hempty =>
      refine .inl ⟨⟨hempty.1, start, hstart, ?_⟩, by rw [hkind, htaken]⟩
      have := hempty.2
      omega
  · next hfull =>
      refine .inr ⟨?_, by rw [hkind, htaken]⟩
      rintro ⟨hplain, start', hstart', hle⟩
      obtain rfl := Except.ok.inj (hstart.symm.trans hstart')
      exact hfull ⟨hplain, by omega⟩

/-! ## The builder takes trees -/

/-- What can be in the way of a tree: an offset, or a mapping with an odd number of children. -/
def TreeError.InTheWay (odd : Bool) (e : TreeError) : Prop :=
  e.IsOffset ∨ odd = true ∧ ∃ p, e = .shape (.oddMapping p)

theorem TreeError.InTheWay.mono {odd odd' : Bool} {e : TreeError} (h : e.InTheWay odd)
    (hle : odd = true → odd' = true) : e.InTheWay odd' :=
  h.imp id fun ⟨hodd, hshape⟩ => ⟨hle hodd, hshape⟩

/-- Marks that stand in this order have their offsets in this order. -/
theorem SourceMap.offsetOfMark_mono (m : SourceMap) {mark mark' : Mark}
    (h : mark.index ≤ mark'.index) : m.offsetOfMark mark ≤ m.offsetOfMark mark' := by
  unfold offsetOfMark
  rw [bytesOf_eq_size, bytesOf_eq_size,
    ← List.take_append_drop mark.index (m.source.take mark'.index), List.take_take,
    Nat.min_eq_left h, Text.size_append]
  omega

namespace TreeBuilder

section Trees

variable {m : SourceMap} {s : State} {nest : List OpenCollection}

/-- Events in two parts are read one part after the other. -/
theorem steps_append_bind (es es' : List (Event × Span)) :
    steps m (es ++ es') s = (steps m es s >>= fun p => steps m es' p.2) := by
  induction es generalizing s with
  | nil => rfl
  | cons y rest ih =>
      obtain ⟨e, span⟩ := y
      show (step m e span s >>= fun p => steps m (rest ++ es') p.2) =
        ((step m e span s >>= fun p => steps m rest p.2) >>= fun p => steps m es' p.2)
      cases step m e span s with
      | error e => rfl
      | ok p => exact ih

theorem steps_singleton (y : Event × Span) : steps m [y] s = step m y.1 y.2 s := by
  show (step m y.1 y.2 s >>= fun p => .ok ((), p.2)) = _
  cases step m y.1 y.2 s <;> rfl

/-- A name is noted for a number that is not zero. -/
theorem yields_label_registers (anchor start : Nat) :
    Yields TreeError.IsOffset
      (fun r => ∃ labels', Event.Registers s.labels anchor r.1 labels' ∧
        r.2 = { s with labels := labels' })
      (label m anchor start s) := by
  unfold label
  split
  · next hzero =>
      subst hzero
      exact ⟨s.labels, .unanchored, rfl⟩
  · next hanchor =>
      show Yields _ _ ((offsets (anchorName m anchor start) >>= _) s)
      cases anchorName m anchor start with
      | error b => exact ⟨b, rfl⟩
      | ok name => exact ⟨_, .anchored name hanchor, rfl⟩

theorem yields_scalar_mirrors (text : Text) (style : ScalarStyle) (anchor : Nat) (span : Span) :
    Yields TreeError.IsOffset
      (fun r => ∃ labels',
        EventTree.Mirrors m s.labels (.scalar text style anchor span) r.1 labels' ∧
        r.2 = { s with labels := labels' })
      (scalar m text style anchor span s) := by
  refine (steady_scalar text style anchor span s).of_ok ?_
  rintro ⟨n, s'⟩ h
  obtain ⟨start, first, last, taken, name, hstart, hextent, hlabel, rfl⟩ := scalar_eq h
  obtain ⟨labels', hregisters, rfl⟩ := (yields_iff.mp (yields_label_registers _ _)).1 _ hlabel
  exact ⟨labels', .scalar ⟨⟨start, first, last, taken, hstart, hextent, rfl, rfl, rfl⟩, rfl⟩
    hregisters, rfl⟩

theorem yields_aliasNode_mirrors (anchor : Nat) (span : Span) :
    Yields TreeError.IsOffset
      (fun r => EventTree.Mirrors m s.labels (.reference anchor span) r.1 s.labels ∧ r.2 = s)
      (aliasNode m anchor span s) := by
  refine (steady_aliasNode anchor span s).of_ok ?_
  rintro ⟨n, s'⟩ h
  obtain rfl := (aliasNode_outline h).2
  obtain ⟨stop, name, hstop, hname, rfl⟩ := aliasNode_eq h
  refine ⟨.reference ⟨⟨name, stop, hstop, rfl, rfl, rfl, fun known hknown => ?_⟩, rfl, rfl⟩, rfl⟩
  rw [hknown] at hname
  exact (Except.ok.inj hname).symm

/-- A node is put where it belongs. -/
theorem yields_placed {Q : TreeError → Prop} {P : Node → State → Prop} {x : Build Node}
    (hx : Yields Q (fun r => P r.1 r.2) (x s)) :
    Yields Q (fun r => ∃ n s', P n s' ∧ r.2 = s'.placed nest n) ((x >>= place nest) s) := by
  refine hx.bind fun p hp => ?_
  show Yields _ _ (place nest p.1 p.2)
  rw [place_apply]
  exact ⟨p.1, p.2, hp, rfl⟩

theorem yields_opener (isMapping : Bool) (anchor : Nat) (span : Span)
    (hstage : s.stage = .inside nest) :
    Yields TreeError.IsOffset
      (fun r => ∃ opened name inner,
        Extent.skipProperties m.source (m.offsetOfMark span.start) = .ok opened ∧
        Event.Registers s.labels anchor name inner ∧
        r.2 = { s with
          labels := inner
          stage := .inside (⟨isMapping, opened, name, []⟩ :: nest) })
      (step m (openerOf isMapping anchor) span s) := by
  rw [step_inside hstage, insideEvent_opener]
  refine Yields.bind (P := fun r => ∃ opened name inner,
    Extent.skipProperties m.source (m.offsetOfMark span.start) = .ok opened ∧
    Event.Registers s.labels anchor name inner ∧ r.1 = ⟨isMapping, opened, name, []⟩ ∧
      r.2 = { s with labels := inner })
    ((steady_openCollection isMapping anchor span s).of_ok ?_) ?_
  · rintro ⟨c, s'⟩ h
    unfold openCollection at h
    rw [offsets_bind] at h
    obtain ⟨opened, hopened, h⟩ := h
    rw [stateful_bind_eq_ok] at h
    obtain ⟨name, s₁, hlabel, h⟩ := h
    cases h
    obtain ⟨inner, hregisters, rfl⟩ := (yields_iff.mp (yields_label_registers _ _)).1 _ hlabel
    exact ⟨opened, name, inner, hopened, hregisters, rfl, rfl⟩
  · rintro ⟨c, s'⟩ ⟨opened, name, inner, hopened, hregisters, rfl, rfl⟩
    exact ⟨opened, name, inner, hopened, hregisters, rfl⟩

/-- A collection is closed, unless it is a mapping with an odd number of children. -/
theorem yields_close_mirrors (c : OpenCollection) :
    Yields (TreeError.InTheWay (c.isMapping && c.children.length % 2 != 0))
      (fun r => (c.isMapping && c.children.length % 2 != 0) = false ∧
        (∃ style first last, collectionStyle m c = .ok style ∧
          collectionExtent m c style r.1.children = .ok (first, last) ∧
          r.1.kind = kindOf c.isMapping style ∧ r.1.start = m.position first ∧
          r.1.stop = m.position last) ∧
        r.1.anchor = c.anchor ∧ r.1.children = c.children.reverse ∧ r.2 = s)
      (close m c s) := by
  cases hodd : c.isMapping && c.children.length % 2 != 0 with
  | true =>
      obtain ⟨hmapping, hlength⟩ : c.isMapping = true ∧ c.children.reverse.length % 2 ≠ 0 := by
        simpa using hodd
      unfold close
      dsimp only
      rw [if_pos ⟨hmapping, hlength⟩]
      exact .inr ⟨rfl, _, rfl⟩
  | false =>
      have heven : c.isMapping = true → c.children.length % 2 = 0 := by
        intro hmapping
        simpa [hmapping] using hodd
      refine ((steady_close heven s).mono_error fun e he => .inl he).of_ok ?_
      rintro ⟨n, s'⟩ h
      obtain ⟨style, start, stop, hstyle, hextent, rfl, -, rfl⟩ := close_eq h
      exact ⟨rfl, ⟨style, start, stop, hstyle, hextent, rfl, rfl, rfl⟩, rfl, rfl, rfl⟩

/-- What a run over the events of a tree comes to. -/
def Takes (m : SourceMap) (tree : EventTree) : Prop :=
  ∀ ⦃s : State⦄ ⦃nest : List OpenCollection⦄, s.stage = .inside nest →
    Yields (TreeError.InTheWay tree.hasOdd)
      (fun r => tree.hasOdd = false ∧ ∃ n labels', tree.Mirrors m s.labels n labels' ∧
        r.2 = State.placed { s with labels := labels' } nest n)
      (steps m tree.events s)

/-- What a run over the events of the children of a collection comes to. -/
def TakesAll (m : SourceMap) (trees : List EventTree) : Prop :=
  ∀ ⦃s : State⦄ ⦃c : OpenCollection⦄ ⦃nest : List OpenCollection⦄,
    s.stage = .inside (c :: nest) →
    Yields (TreeError.InTheWay (EventTree.anyOdd trees))
      (fun r => EventTree.anyOdd trees = false ∧ ∃ nodes labels',
        EventTree.MirrorsAll m s.labels trees nodes labels' ∧
        r.2 = { s with
          labels := labels'
          stage := .inside ({ c with children := nodes.reverse ++ c.children } :: nest) })
      (steps m (EventTree.eventsOf trees) s)

/-- **A collection is built from its opening event, its children and its closing event.** -/
theorem takes_collection {isMapping : Bool} {anchor : Nat} {opened closed : Span}
    {children : List EventTree} (hchildren : TakesAll m children) :
    Takes m (.collection isMapping anchor opened children closed) := by
  intro s nest hstage
  have hodd : (EventTree.collection isMapping anchor opened children closed).hasOdd =
      (isMapping && children.length % 2 != 0 || EventTree.anyOdd children) := by
    rw [EventTree.hasOdd]
  rw [EventTree.events, hodd]
  show Yields _ _ (step m _ opened s >>= fun p =>
    steps m (EventTree.eventsOf children ++ [(closerOf isMapping, closed)]) p.2)
  -- the opening event
  refine ((yields_opener isMapping anchor opened hstage).mono_error
    fun e he => Or.inl he).bind ?_
  rintro p ⟨first, name, inner, hopened, hregisters, hp⟩
  rw [hp, steps_append_bind]
  -- the children
  refine ((hchildren rfl).mono_error fun e he => he.mono fun h => by rw [h, Bool.or_true]).bind ?_
  rintro q ⟨hinner, nodes, labels', hnodes, hq⟩
  rw [List.append_nil] at hq
  -- the closing event
  have hcloses : (closerOf isMapping).closes = true := by cases isMapping <;> rfl
  rw [steps_singleton, hq, step_inside rfl, insideEvent_of_closes hcloses, hinner, Bool.or_false]
  have hclose := yields_close_mirrors (m := m) (s := { s with
    labels := labels'
    stage := .inside (⟨isMapping, first, name, nodes.reverse⟩ :: nest) })
    ⟨isMapping, first, name, nodes.reverse⟩
  dsimp only at hclose
  rw [List.length_reverse, hnodes.length_eq, List.reverse_reverse] at hclose
  refine hclose.bind ?_
  rintro ⟨n, s'⟩ ⟨heven, ⟨style, start, stop, hmade⟩, hanchor, hheld, hs'⟩
  obtain rfl : s' = _ := hs'
  show Yields _ _ (place nest n _)
  rw [place_apply]
  rw [← hanchor] at hregisters
  rw [← hheld] at hnodes
  exact ⟨heven, n, labels',
    .collection ⟨_, style, start, stop, rfl, hopened, hmade⟩ hregisters hnodes,
    by cases nest <;> rfl⟩

mutual

/-- **The builder takes the events of a tree** and makes a node that mirrors them. -/
theorem steps_tree (m : SourceMap) : (tree : EventTree) → Takes m tree
  | .scalar text style anchor span => by
      intro s nest hstage
      rw [EventTree.events, steps_singleton, step_inside hstage]
      refine ((yields_placed (P := fun n s' => ∃ labels',
        EventTree.Mirrors m s.labels (.scalar text style anchor span) n labels' ∧
          s' = { s with labels := labels' })
        (yields_scalar_mirrors text style anchor span)).mono_error fun e he => Or.inl he).mono ?_
      rintro r ⟨n, s', ⟨labels', hmirrors, rfl⟩, hr⟩
      exact ⟨by rw [EventTree.hasOdd], n, labels', hmirrors, hr⟩
  | .reference anchor span => by
      intro s nest hstage
      rw [EventTree.events, steps_singleton, step_inside hstage]
      refine ((yields_placed (P := fun n s' =>
        EventTree.Mirrors m s.labels (.reference anchor span) n s.labels ∧ s' = s)
        (yields_aliasNode_mirrors anchor span)).mono_error fun e he => Or.inl he).mono ?_
      rintro r ⟨n, s', ⟨hmirrors, rfl⟩, hr⟩
      exact ⟨by rw [EventTree.hasOdd], n, _, hmirrors, hr⟩
  | .collection _ _ _ children _ => takes_collection (steps_trees m children)

/-- The same for the children of a collection, one after the other. -/
theorem steps_trees (m : SourceMap) : (trees : List EventTree) → TakesAll m trees
  | [] => by
      intro s c nest hstage
      rw [EventTree.eventsOf, EventTree.anyOdd]
      refine ⟨rfl, [], s.labels, .nil, ?_⟩
      rw [List.reverse_nil, List.nil_append, ← hstage]
  | tree :: rest => by
      intro s c nest hstage
      rw [EventTree.eventsOf, EventTree.anyOdd, steps_append_bind]
      refine ((steps_tree m tree hstage).mono_error
        fun e he => he.mono fun h => by rw [h, Bool.true_or]).bind ?_
      rintro p ⟨heven, n, between, hn, hp⟩
      rw [hp]
      refine ((steps_trees m rest rfl).mono_error
        fun e he => he.mono fun h => by rw [h, Bool.or_true]).mono ?_
      rintro r ⟨hrest, nodes, labels', hnodes, hr⟩
      refine ⟨by rw [heven, hrest, Bool.or_false], n :: nodes, labels', .cons hn hnodes, ?_⟩
      rw [hr]
      simp [State.placed]

end

/-- The documents of a stream, one after the other. -/
theorem steps_documents_mirror {documents : List EventDocument}
    (hstage : s.stage = .betweenDocuments) :
    Yields (TreeError.InTheWay (documents.any fun d => d.content.hasOdd))
      (fun r => (documents.any fun d => d.content.hasOdd) = false ∧ ∃ nodes,
        EventDocument.MirrorsAll m s.labels documents nodes ∧
        r.2.stage = .betweenDocuments ∧ r.2.documents = nodes.reverse ++ s.documents)
      (steps m (documents.flatMap EventDocument.events) s) := by
  induction documents generalizing s with
  | nil => exact ⟨rfl, [], .nil, hstage, rfl⟩
  | cons d rest ih =>
      rw [List.flatMap_cons, List.any_cons, steps_append_bind, EventDocument.events]
      have hdocument : Yields (TreeError.InTheWay d.content.hasOdd)
          (fun r => d.content.hasOdd = false ∧ ∃ n labels',
            d.content.Mirrors m s.labels n labels' ∧ r.2 = ⟨.betweenDocuments,
              ⟨.document, n.start, n.stop, none, [n]⟩ :: s.documents, labels'⟩)
          (steps m ((.documentStart, d.opened) ::
            (d.content.events ++ [(.documentEnd, d.closed)])) s) := by
        show Yields _ _ (step m .documentStart d.opened s >>= fun p =>
          steps m (d.content.events ++ [(.documentEnd, d.closed)]) p.2)
        rw [step_between hstage]
        show Yields _ _ (steps m _ { s with stage := .inside [] })
        rw [steps_append_bind]
        refine (steps_tree m d.content rfl).bind ?_
        rintro p ⟨heven, n, labels', hn, hp⟩
        rw [hp, steps_singleton]
        exact ⟨heven, n, labels', hn, rfl⟩
      refine (hdocument.mono_error fun e he => he.mono fun h => by rw [h, Bool.true_or]).bind ?_
      rintro p ⟨heven, n, labels', hn, hp⟩
      rw [hp]
      refine ((ih rfl).mono_error fun e he => he.mono fun h => by rw [h, Bool.or_true]).mono ?_
      rintro r ⟨hrest, nodes, hnodes, hstage', hheld⟩
      refine ⟨by rw [heven, hrest, Bool.or_false], _, .cons hn hnodes, hstage', ?_⟩
      rw [hheld]
      simp

end Trees

/-- The builder reads events to their end: the last one is the one that ends the stream. -/
def ReadsToEnd (m : SourceMap) (events : List (Event × Span)) : Prop :=
  ∃ s s', steps m events.dropLast start = .ok ((), s) ∧ s.stage = .betweenDocuments ∧
    steps m events start = .ok ((), s') ∧ s'.stage = .ended

/-! ## Offsets -/

/-- What fails at an offset: a search that stumbles, or an alias that the text does not show, of a
number that has no name, whose marks are the wrong way round. -/
inductive TripsOn (m : SourceMap) (s : State) : Event × Span → Prop where
  | stumbles {y : Event × Span} (h : StumblesOn m s y) : TripsOn m s y
  | backwards {nest : List OpenCollection} {anchor : Nat} {span : Span}
      (inside : s.stage = .inside nest) (unknown : s.labels.lookup anchor = none)
      (unmarked : ∀ rest, m.source.drop span.start.index ≠ '*' :: rest)
      (backwards : m.offsetOfMark span.stop < m.offsetOfMark span.start) :
      TripsOn m s (.aliasTo anchor, span)

/-- Whether one of some events trips the builder, when it has taken those in front of it. -/
def Trips (m : SourceMap) (events : List (Event × Span)) : Prop :=
  ∃ front y rest s, events = front ++ y :: rest ∧ steps m front start = .ok ((), s) ∧ TripsOn m s y

section Offsets

variable {source : Text} {s : State} {nest : List OpenCollection}

/-- A part of a text between boundaries is there, unless it stops in front of its start. -/
theorem slice_fails_iff {start stop : Nat} (hstart : source.IsBoundary start)
    (hstop : source.IsBoundary stop) :
    (∃ b, source.slice start stop = .error b) ↔ stop < start := by
  constructor
  · rintro ⟨b, hb⟩
    by_contra hle
    obtain ⟨y, hy⟩ := Text.slice_of_isBoundary hstart hstop (by omega)
    cases hy.symm.trans hb
  · intro hlt
    obtain ⟨rest, hrest⟩ := Text.isBoundary_iff_dropBytes.mp hstart
    refine ⟨⟨stop⟩, ?_⟩
    unfold Text.slice
    rw [hrest, ok_bind, if_neg (by omega)]
    rfl

/-- An alias that is not written as one fails at an offset if and only if its name is looked for
in a part of the text that stops in front of its start. -/
theorem aliasNode_fails_iff {anchor : Nat} {span : Span}
    (hmark : ∀ rest, source.drop span.start.index ≠ '*' :: rest) :
    (∃ b, aliasNode (SourceMap.ofText source) anchor span s = .error (.badOffset b)) ↔
      s.labels.lookup anchor = none ∧
        (SourceMap.ofText source).offsetOfMark span.stop <
          (SourceMap.ofText source).offsetOfMark span.start := by
  have hend : Extent.aliasEnd source ((SourceMap.ofText source).offsetOfMark span.start) =
      .ok none := by
    have hdrop := (SourceMap.ofText source).dropBytes_offsetOfMark span.start
    rw [show (SourceMap.ofText source).source = source from rfl] at hdrop
    unfold Extent.aliasEnd
    rw [hdrop, ok_bind]
    split
    · next rest heq => exact absurd heq (hmark rest)
    · rfl
  rw [← slice_fails_iff (isBoundary_offsetOfMark source span.start)
    (isBoundary_offsetOfMark source span.stop)]
  unfold aliasNode
  dsimp only
  rw [show (SourceMap.ofText source).source = source from rfl, hend, offsets_ok_bind, get_bind]
  unfold aliasName
  cases s.labels.lookup anchor with
  | some name => exact ⟨nofun, nofun⟩
  | none =>
      rw [Option.getD_none, show (SourceMap.ofText source).source = source from rfl]
      cases source.slice _ _ with
      | error b => exact ⟨fun _ => ⟨rfl, b, rfl⟩, fun _ => ⟨b, rfl⟩⟩
      | ok y => exact ⟨nofun, nofun⟩

/-- **A step fails at an offset if and only if it trips.** -/
theorem step_trips_iff {e : Event} {span : Span} (hs : s.Within source) :
    (∃ b, step (SourceMap.ofText source) e span s = .error (.badOffset b)) ↔
      TripsOn (SourceMap.ofText source) s (e, span) := by
  by_cases hmark : AliasMarked source (e, span)
  · rw [step_fails_iff hs hmark]
    refine ⟨.stumbles, fun h => ?_⟩
    cases h with
    | stumbles h => exact h
    | backwards _ _ hunmarked _ =>
        obtain ⟨rest, hrest⟩ := hmark _ rfl
        exact absurd hrest (hunmarked rest)
  · -- what is left is an alias that is not written as one
    obtain ⟨anchor, rfl, hunmarked⟩ : ∃ anchor, e = .aliasTo anchor ∧
        ∀ rest, source.drop span.start.index ≠ '*' :: rest := by
      unfold AliasMarked at hmark
      push Not at hmark
      exact hmark
    have hnode : ∀ nest, s.stage = .inside nest →
        ((∃ b, step (SourceMap.ofText source) (.aliasTo anchor) span s = .error (.badOffset b)) ↔
          ∃ b, aliasNode (SourceMap.ofText source) anchor span s = .error (.badOffset b)) := by
      intro nest hstage
      rw [step_inside hstage]
      show (∃ b, (aliasNode (SourceMap.ofText source) anchor span s >>= fun p =>
        place nest p.1 p.2) = _) ↔ _
      cases aliasNode (SourceMap.ofText source) anchor span s with
      | error e =>
          constructor
          all_goals
            rintro ⟨b, hb⟩
            cases hb
            exact ⟨b, rfl⟩
      | ok p =>
          refine ⟨?_, nofun⟩
          rintro ⟨b, hb⟩
          rw [ok_bind, place_apply] at hb
          cases hb
    constructor
    · rintro ⟨b, hb⟩
      cases hstage : s.stage with
      | inside nest =>
          obtain ⟨hunknown, hlt⟩ :=
            (aliasNode_fails_iff hunmarked).mp ((hnode nest hstage).mp ⟨b, hb⟩)
          exact .backwards hstage hunknown hunmarked hlt
      | _ =>
          unfold step at hb
          rw [get_bind, hstage] at hb
          cases hb
    · intro h
      cases h with
      | stumbles h =>
          cases h with
          | dash _ hcloses => cases hcloses
      | backwards hstage hunknown _ hlt =>
          exact (hnode _ hstage).mpr ((aliasNode_fails_iff hunmarked).mpr ⟨hunknown, hlt⟩)

/-- Steps fail at an offset if and only if one of them does, behind those that do not. -/
theorem steps_error_iff {m : SourceMap} {events : List (Event × Span)} {b : BadOffset} :
    steps m events s = .error (.badOffset b) ↔
      ∃ front e span rest s', events = front ++ (e, span) :: rest ∧
        steps m front s = .ok ((), s') ∧ step m e span s' = .error (.badOffset b) := by
  constructor
  · intro h
    induction events generalizing s with
    | nil => cases h
    | cons y rest ih =>
        obtain ⟨e, span⟩ := y
        change (step m e span s >>= fun p => steps m rest p.2) = _ at h
        rcases bind_eq_error.mp h with hfirst | ⟨⟨⟨⟩, s₁⟩, hfirst, hlater⟩
        · exact ⟨[], e, span, rest, s, rfl, rfl, hfirst⟩
        · obtain ⟨front, e', span', rest', s', rfl, hfront, hstep⟩ := ih hlater
          exact ⟨(e, span) :: front, e', span', rest', s', rfl,
            steps_cons.mpr ⟨s₁, hfirst, hfront⟩, hstep⟩
  · rintro ⟨front, e, span, rest, s', rfl, hfront, hstep⟩
    rw [steps_append_bind, hfront, ok_bind]
    show (step m e span s' >>= _) = _
    rw [hstep]
    rfl

/-- **The events of a tree fail at an offset if and only if one of them trips the builder.** -/
theorem trips_iff {events : List (Event × Span)} :
    (∃ b, Node.ofEvents (SourceMap.ofText source) events = .error (.badOffset b)) ↔
      Trips (SourceMap.ofText source) events := by
  have hstart : start.Within source :=
    holds_of_documents (fun _ hd => nomatch hd) (fun _ hnest => nomatch hnest)
  have hsteps : (∃ b, Node.ofEvents (SourceMap.ofText source) events = .error (.badOffset b)) ↔
      ∃ b, steps (SourceMap.ofText source) events start = .error (.badOffset b) := by
    show (∃ b, (steps (SourceMap.ofText source) events start >>= fun p =>
      finish (SourceMap.ofText source) p.2) = _) ↔ _
    constructor
    · rintro ⟨b, hb⟩
      rcases bind_eq_error.mp hb with h | ⟨p, -, hfinish⟩
      · exact ⟨b, h⟩
      · unfold finish at hfinish
        split at hfinish <;> cases hfinish
    · rintro ⟨b, hb⟩
      exact ⟨b, bind_eq_error.mpr (.inl hb)⟩
  rw [hsteps]
  constructor
  · rintro ⟨b, hb⟩
    obtain ⟨front, e, span, rest, s, rfl, hfront, hstep⟩ := steps_error_iff.mp hb
    have hs := holds_of_steps (gives_within source) hstart hfront
    exact ⟨front, (e, span), rest, s, rfl, hfront, (step_trips_iff hs).mp ⟨b, hstep⟩⟩
  · rintro ⟨front, ⟨e, span⟩, rest, s, rfl, hfront, htrips⟩
    have hs := holds_of_steps (gives_within source) hstart hfront
    obtain ⟨b, hstep⟩ := (step_trips_iff hs).mpr htrips
    exact ⟨b, steps_error_iff.mpr ⟨front, e, span, rest, s, rfl, hfront, hstep⟩⟩

end Offsets

end TreeBuilder

/-- The documents of a stream are read, unless something is in the way. -/
theorem EventStream.yields_eventsBeforeEnd (m : SourceMap) (stream : EventStream) :
    Yields (TreeError.InTheWay stream.hasOdd)
      (fun r => stream.hasOdd = false ∧ ∃ nodes,
        EventDocument.MirrorsAll m [] stream.documents nodes ∧
        r.2.stage = .betweenDocuments ∧ r.2.documents = nodes.reverse)
      (TreeBuilder.steps m stream.eventsBeforeEnd TreeBuilder.start) := by
  have h := @TreeBuilder.steps_documents_mirror m ⟨.betweenDocuments, [], []⟩ stream.documents rfl
  refine h.mono ?_
  rintro r ⟨heven, nodes, hnodes, hstage, hheld⟩
  exact ⟨heven, nodes, hnodes, hstage, by rw [hheld, List.append_nil]⟩

/-- The last event of a stream is read behind its documents. -/
theorem EventStream.steps_events {m : SourceMap} {stream : EventStream} {s : TreeBuilder.State}
    (h : TreeBuilder.steps m stream.eventsBeforeEnd TreeBuilder.start = .ok ((), s))
    (hstage : s.stage = .betweenDocuments) :
    TreeBuilder.steps m stream.events TreeBuilder.start =
      .ok ((), { s with stage := .ended }) := by
  rw [EventStream.events, TreeBuilder.steps_append_bind, h, ok_bind, TreeBuilder.steps_singleton,
    TreeBuilder.step_between hstage]
  rfl

/-- **A tree that is built of a stream mirrors it.** -/
theorem EventStream.mirrors_of_ofEvents {m : SourceMap} {stream : EventStream} {root : Node}
    (h : Node.ofEvents m stream.events = .ok root) : stream.Mirrors m root := by
  obtain ⟨⟨⟨⟩, s'⟩, hsteps, hfinish⟩ := bind_eq_ok.mp h
  obtain ⟨s, hbefore, -⟩ := TreeBuilder.steps_append.mp hsteps
  obtain ⟨-, nodes, hnodes, hstage, hheld⟩ :=
    (yields_iff.mp (stream.yields_eventsBeforeEnd m)).1 _ hbefore
  cases hsteps.symm.trans (EventStream.steps_events hbefore hstage)
  obtain rfl := TreeBuilder.finish_eq hfinish
  refine ⟨rfl, rfl, ?_⟩
  show EventDocument.MirrorsAll m [] stream.documents s.documents.reverse
  rwa [hheld, List.reverse_reverse]

/-- **What the builder makes of a stream.** An event trips it, or a mapping has an odd number of
children, or it reads the stream to its end and makes a tree that mirrors it. -/
theorem EventStream.ofEvents_cases (source : Text) (stream : EventStream) :
    (TreeBuilder.Trips (SourceMap.ofText source) stream.events ∧
      ∃ b, Node.ofEvents (SourceMap.ofText source) stream.events = .error (.badOffset b)) ∨
    (¬ TreeBuilder.Trips (SourceMap.ofText source) stream.events ∧ stream.hasOdd = true ∧
      ∃ p, Node.ofEvents (SourceMap.ofText source) stream.events =
        .error (.shape (.oddMapping p))) ∨
    (¬ TreeBuilder.Trips (SourceMap.ofText source) stream.events ∧ stream.hasOdd = false ∧
      TreeBuilder.ReadsToEnd (SourceMap.ofText source) stream.events ∧
      ∃ root, Node.ofEvents (SourceMap.ofText source) stream.events = .ok root ∧
        stream.Mirrors (SourceMap.ofText source) root) := by
  have hdocuments := stream.yields_eventsBeforeEnd (SourceMap.ofText source)
  have htrips := @TreeBuilder.trips_iff source stream.events
  cases hsteps : TreeBuilder.steps (SourceMap.ofText source) stream.eventsBeforeEnd
      TreeBuilder.start with
  | error e =>
      have herror : Node.ofEvents (SourceMap.ofText source) stream.events = .error e := by
        show (TreeBuilder.steps _ _ _ >>= _) = _
        rw [EventStream.events, TreeBuilder.steps_append_bind, hsteps]
        rfl
      rcases (yields_iff.mp hdocuments).2 e hsteps with ⟨b, rfl⟩ | ⟨hodd, p, rfl⟩
      · exact .inl ⟨htrips.mp ⟨b, herror⟩, b, herror⟩
      · refine .inr (.inl ⟨fun h => ?_, hodd, p, herror⟩)
        obtain ⟨b, hb⟩ := htrips.mpr h
        cases herror.symm.trans hb
  | ok r =>
      obtain ⟨⟨⟩, s⟩ := r
      obtain ⟨heven, -, -, hstage, -⟩ := (yields_iff.mp hdocuments).1 _ hsteps
      have hevents := EventStream.steps_events hsteps hstage
      obtain ⟨root, hroot⟩ : ∃ root,
          Node.ofEvents (SourceMap.ofText source) stream.events = .ok root :=
        ⟨_, bind_eq_ok.mpr ⟨_, hevents, rfl⟩⟩
      refine .inr (.inr ⟨fun h => ?_, heven, ⟨s, _, ?_, hstage, hevents, rfl⟩, root, hroot,
        EventStream.mirrors_of_ofEvents hroot⟩)
      · obtain ⟨b, hb⟩ := htrips.mpr h
        cases hroot.symm.trans hb
      · rw [EventStream.events, List.dropLast_concat]
        exact hsteps

/-- A stream of one document, which is a list with one item: as the event parser reads it off a
text whose first line ends with a comment. -/
def EventStream.behindComment : EventStream :=
  let first : Span := ⟨⟨0, 1, 0⟩, ⟨0, 1, 0⟩⟩
  let last : Span := ⟨⟨12, 3, 0⟩, ⟨12, 3, 0⟩⟩
  let item : EventTree := .scalar ['x'] .plain 0 ⟨⟨10, 2, 2⟩, ⟨11, 2, 3⟩⟩
  ⟨first, [⟨first, .collection false 0 first [item] last, last⟩], last⟩

/-- The error of a tree that cannot be built. -/
def TreeError.of? {α : Type} : Except TreeError α → Option TreeError
  | .error e => some e
  | .ok _ => none

theorem TreeError.eq_of_of? {α : Type} {x : Except TreeError α} {e : TreeError}
    (h : TreeError.of? x = some e) : x = .error e := by
  cases x with
  | error e' => exact congrArg _ (Option.some.inj h)
  | ok a => cases h

/-- **The events of a text need not have a tree**, although no mapping is there at all: the search
for the dash stumbles over the blank in the comment. -/
theorem EventStream.ofEvents_fails_behind_comment :
    Event.ofDocument "- # c\u00a0d\n  x\n".toList = .ok EventStream.behindComment.events ∧
      EventStream.behindComment.hasOdd = false ∧
      Node.ofEvents (SourceMap.ofText "- # c\u00a0d\n  x\n".toList)
        EventStream.behindComment.events = .error (.badOffset ⟨6⟩) := by
  refine ⟨?_, ?_, ?_⟩
  · decide +kernel
  · decide +kernel
  · exact TreeError.eq_of_of? (by decide +kernel)

end YamlEdit
