import YamlEdit.Edit.Snapshot
import YamlEdit.Proofs.EventNesting

/-!
# The tree says what the events say

The builder looks at the text around every mark to place its nodes, but what the tree says needs
only a `Look` at it: at the width of a plain scalar, for one of no width is a missing value and has
the empty text, at the first character of a collection, which tells its style, and at the name that
is written in front of an anchored node. A node takes the run of events that its signs are
(`TreeBuilder.steps_node`, by induction on the outline), so the outline of a text's tree has the
signs of its events.

Main statement: `Snapshot.reading_eq`.
-/

namespace YamlEdit

namespace Event

/-- The names of anchors by number, the latest one first. -/
abbrev Labels := List (Nat × Text)

/-- What the text around an event adds to it, the names of the anchors so far being given. -/
def look (m : SourceMap) (labels : Labels) : Event × Span → Except BadOffset Look
  | (.scalar text style _, span) => do
    let start ← Extent.skipProperties m.source (m.offsetOfMark span.start)
    let missing := style = .plain ∧ start = max (m.offsetOfMark span.stop) start
    return { text := if missing then [] else text }
  | (.sequenceStart _, span) => do
    let opened ← Extent.skipProperties m.source (m.offsetOfMark span.start)
    return { style := ← TreeBuilder.collectionStyle m ⟨false, opened, none, []⟩ }
  | (.mappingStart _, span) => do
    let opened ← Extent.skipProperties m.source (m.offsetOfMark span.start)
    return { style := ← TreeBuilder.collectionStyle m ⟨true, opened, none, []⟩ }
  | (.aliasTo anchor, span) => do
    let start := m.offsetOfMark span.start
    let stop := (← Extent.aliasEnd m.source start).getD (m.offsetOfMark span.stop)
    return { name := ← TreeBuilder.aliasName m (labels.lookup anchor) start stop }
  | _ => return {}

/-- The sign of an event in a text. -/
def signIn (m : SourceMap) (labels : Labels) (y : Event × Span) : Sign :=
  match look m labels y with
  | .ok look => y.1.sign look
  | .error _ => y.1.sign {}

/-- The anchor of an event and where its name is looked for: in front of a scalar, or at the mark
of a collection. Anchor zero is none. -/
def anchorAt (m : SourceMap) : Event × Span → Except BadOffset (Nat × Nat)
  | (.scalar text style anchor, span) => do
    let marked := m.offsetOfMark span.start
    let start ← Extent.skipProperties m.source marked
    let stop := max (m.offsetOfMark span.stop) start
    let (first, _) ← TreeBuilder.scalarExtent m text style start stop
    return (anchor, min marked first)
  | (.sequenceStart anchor, span) | (.mappingStart anchor, span) =>
    return (anchor, m.offsetOfMark span.start)
  | _ => return (0, 0)

/-- The names of anchors after a name has been looked for. -/
def named (m : SourceMap) (labels : Labels) (anchor start : Nat) : Labels :=
  if anchor = 0 then labels
  else match TreeBuilder.anchorName m anchor start with
    | .ok name => (anchor, name) :: labels
    | .error _ => labels

/-- The names of anchors after an event. -/
def labelled (m : SourceMap) (labels : Labels) (y : Event × Span) : Labels :=
  match anchorAt m y with
  | .ok (anchor, start) => named m labels anchor start
  | .error _ => labels

/-- The signs of events in a text. -/
def signs (m : SourceMap) : Labels → List (Event × Span) → List Sign
  | _, [] => []
  | labels, y :: rest => signIn m labels y :: signs m (labelled m labels y) rest

/-- The names of anchors after events. -/
def labelsAfter (m : SourceMap) (labels : Labels) (events : List (Event × Span)) : Labels :=
  events.foldl (labelled m) labels

/-- What the event parser reads off a text: the signs of its events. -/
def reading (source : Text) : Except SyntaxError (List Sign) :=
  (Event.ofDocument source).map (signs (SourceMap.ofText source) [])

/-! ## Signs, one event after the other -/

section Signs

variable {m : SourceMap} {labels : Labels} {events : List (Event × Span)} {sign : Sign}
  {u v : List Sign}

/-- An event has a sign of its own kind. -/
theorem fits_signIn (m : SourceMap) (labels : Labels) (y : Event × Span) :
    Fits y (signIn m labels y) := by
  unfold signIn
  split
  · next look _ => exact ⟨look, rfl⟩
  · exact ⟨{}, rfl⟩

theorem fits_signs (m : SourceMap) (labels : Labels) (events : List (Event × Span)) :
    List.Forall₂ Fits events (signs m labels events) := by
  induction events generalizing labels with
  | nil => exact .nil
  | cons y rest ih => exact .cons (fits_signIn m labels y) (ih _)

theorem signs_eq_nil (h : signs m labels events = []) : events = [] := by
  cases events with
  | nil => rfl
  | cons y rest => cases h

theorem signs_eq_cons (h : signs m labels events = sign :: v) :
    ∃ y rest, events = y :: rest ∧ signIn m labels y = sign ∧
      signs m (labelled m labels y) rest = v := by
  cases events with
  | nil => cases h
  | cons y rest =>
      cases h
      exact ⟨y, rest, rfl, rfl, rfl⟩

theorem signs_eq_append (h : signs m labels events = u ++ v) :
    ∃ es es', events = es ++ es' ∧ signs m labels es = u ∧
      signs m (labelsAfter m labels es) es' = v := by
  -- on the first signs, since there is one event for each of them
  induction u generalizing labels events with
  | nil => exact ⟨[], events, rfl, rfl, h⟩
  | cons sign u ih =>
      obtain ⟨y, rest, rfl, hy, hrest⟩ := signs_eq_cons h
      obtain ⟨es, es', rfl, hes, hes'⟩ := ih hrest
      exact ⟨y :: es, es', rfl, by rw [signs, hy, hes], hes'⟩

theorem signs_eq_singleton (h : signs m labels events = [sign]) :
    ∃ y, events = [y] ∧ signIn m labels y = sign := by
  obtain ⟨y, rest, rfl, hy, hrest⟩ := signs_eq_cons h
  rw [signs_eq_nil hrest]
  exact ⟨y, rfl, hy⟩

theorem labelsAfter_append (es es' : List (Event × Span)) :
    labelsAfter m labels (es ++ es') = labelsAfter m (labelsAfter m labels es) es' :=
  List.foldl_append

/-- An event that is looked at has the sign that this gives. -/
theorem signIn_of_look {y : Event × Span} {l : Look} (h : look m labels y = .ok l) :
    signIn m labels y = y.1.sign l := by
  rw [signIn, h]

end Signs

end Event

namespace TreeBuilder

/-! ## Parts of a step -/

section Parts

variable {β : Type} {m : SourceMap} {s s' : State} {r : β × State}

theorem offsets_bind {α : Type} {x : Except BadOffset α} {f : α → Build β} :
    (offsets x >>= f) s = .ok r ↔ ∃ a, x = .ok a ∧ f a s = .ok r := by
  rw [stateful_bind_eq_ok]
  cases x with
  | error e => exact ⟨nofun, nofun⟩
  | ok a =>
      constructor
      · rintro ⟨_, _, h, hf⟩
        cases h
        exact ⟨a, rfl, hf⟩
      · rintro ⟨_, h, hf⟩
        cases h
        exact ⟨a, s, rfl, hf⟩

theorem get_bind (f : State → Build β) : ((get : Build State) >>= f) s = f s s := rfl

theorem label_eq {anchor start : Nat} {name : Option Text}
    (h : label m anchor start s = .ok (name, s')) :
    s' = { s with labels := Event.named m s.labels anchor start } := by
  unfold label at h
  unfold Event.named
  split at h
  · next hzero =>
      cases h
      rw [if_pos hzero]
  · next hanchor =>
      rw [offsets_bind] at h
      obtain ⟨name, hname, h⟩ := h
      cases h
      rw [if_neg hanchor, hname]

/-- A scalar is missing or has its own text. -/
theorem scalarExtent_text {text taken : Text} {style : ScalarStyle} {start stop first last : Nat}
    (h : scalarExtent m text style start stop = .ok (first, last, taken)) :
    taken = if style = .plain ∧ start = stop then [] else text := by
  unfold scalarExtent at h
  cases style with
  | plain =>
      dsimp only at h
      split at h
      · next hempty =>
          obtain ⟨place, -, h⟩ := bind_eq_ok.mp h
          cases h
          rw [if_pos ⟨rfl, hempty⟩]
      · next hfull =>
          obtain ⟨stop, -, h⟩ := bind_eq_ok.mp h
          cases h
          rw [if_neg (fun hmissing => hfull hmissing.2)]
  | singleQuoted | doubleQuoted =>
      obtain ⟨close, -, h⟩ := bind_eq_ok.mp h
      cases h
      rfl
  | literal | folded =>
      obtain ⟨stop, -, h⟩ := bind_eq_ok.mp h
      obtain ⟨header, -, h⟩ := bind_eq_ok.mp h
      cases h
      rfl

/-- **A scalar says what its event does.** -/
theorem scalar_outline {text : Text} {style : ScalarStyle} {anchor : Nat} {span : Span} {n : Node}
    (h : scalar m text style anchor span s = .ok (n, s')) :
    Event.signIn m s.labels (.scalar text style anchor, span) :: [] = n.outline.signs ∧
      s' = { s with labels := Event.labelled m s.labels (.scalar text style anchor, span) } := by
  unfold scalar at h
  rw [offsets_bind] at h
  obtain ⟨start, hstart, h⟩ := h
  rw [offsets_bind] at h
  obtain ⟨⟨first, last, taken⟩, hextent, h⟩ := h
  rw [stateful_bind_eq_ok] at h
  obtain ⟨name, s₁, hlabel, h⟩ := h
  cases h
  constructor
  · rw [scalarExtent_text hextent, Event.signIn, Event.look, hstart]
    rfl
  · rw [label_eq hlabel, Event.labelled]
    have hanchor : Event.anchorAt m (.scalar text style anchor, span) =
        .ok (anchor, min (m.offsetOfMark span.start) first) :=
      bind_eq_ok.mpr ⟨start, hstart, bind_eq_ok.mpr ⟨_, hextent, rfl⟩⟩
    rw [hanchor]

/-- **An alias says what its event does.** -/
theorem aliasNode_outline {anchor : Nat} {span : Span} {n : Node}
    (h : aliasNode m anchor span s = .ok (n, s')) :
    Event.signIn m s.labels (.aliasTo anchor, span) :: [] = n.outline.signs ∧ s' = s := by
  unfold aliasNode at h
  rw [offsets_bind] at h
  obtain ⟨stop, hstop, h⟩ := h
  rw [get_bind, offsets_bind] at h
  obtain ⟨name, hname, h⟩ := h
  cases h
  refine ⟨?_, rfl⟩
  -- both look the anchor up in the same names
  rw [Event.signIn, Event.look, hstop]
  show (match ({ name := · } : Text → Look) <$> aliasName m _ _ _ with
    | .ok look => _
    | .error _ => _) :: [] = _
  rw [hname]
  rfl

/-- The bracket of a collection. -/
def bracketOf (isMapping : Bool) (style : Style) : Bracket :=
  if isMapping then .mapping style else .sequence style

/-- The event that opens a collection. -/
def openerOf (isMapping : Bool) (anchor : Nat) : Event :=
  if isMapping then .mappingStart anchor else .sequenceStart anchor

theorem look_opener (labels : Event.Labels) (isMapping : Bool) (anchor : Nat) (span : Span) :
    Event.look m labels (openerOf isMapping anchor, span) = (do
      let opened ← Extent.skipProperties m.source (m.offsetOfMark span.start)
      return { style := ← collectionStyle m ⟨isMapping, opened, none, []⟩ }) := by
  cases isMapping <;> rfl

theorem openCollection_eq {isMapping : Bool} {anchor : Nat} {span : Span} {c : OpenCollection}
    (h : openCollection m isMapping anchor span s = .ok (c, s')) :
    c.isMapping = isMapping ∧ c.children = [] ∧
      Extent.skipProperties m.source (m.offsetOfMark span.start) = .ok c.opened ∧
      s' = { s with labels := Event.labelled m s.labels (openerOf isMapping anchor, span) } := by
  unfold openCollection at h
  rw [offsets_bind] at h
  obtain ⟨opened, hopened, h⟩ := h
  rw [stateful_bind_eq_ok] at h
  obtain ⟨name, s₁, hlabel, h⟩ := h
  cases h
  refine ⟨rfl, rfl, hopened, ?_⟩
  rw [label_eq hlabel]
  cases isMapping <;> rfl

/-- **A closed collection says what its children say**, in their order. -/
theorem close_outline {c : OpenCollection} {n : Node} (h : close m c s = .ok (n, s')) :
    ∃ style, collectionStyle m c = .ok style ∧ s' = s ∧
      n.outline = .group (bracketOf c.isMapping style) (c.children.reverse.map Node.outline) := by
  unfold close at h
  dsimp only at h
  split at h
  · cases h
  · rw [offsets_bind] at h
    obtain ⟨style, hstyle, h⟩ := h
    rw [offsets_bind] at h
    obtain ⟨⟨start, stop⟩, -, h⟩ := h
    cases h
    refine ⟨style, hstyle, rfl, ?_⟩
    rw [← Node.outlines_eq_map]
    unfold bracketOf
    cases c.isMapping <;> rfl

/-- Only the event that opens a collection has the sign of that. -/
theorem opener_of_sign {e : Event} {look : Look} {isMapping : Bool} {style : Style}
    (h : e.sign look = .opening (bracketOf isMapping style)) :
    ∃ anchor, e = openerOf isMapping anchor ∧ look.style = style := by
  cases isMapping
  · cases e with
    | sequenceStart anchor =>
        cases h
        exact ⟨anchor, rfl, rfl⟩
    | _ => cases h
  · cases e with
    | mappingStart anchor =>
        cases h
        exact ⟨anchor, rfl, rfl⟩
    | _ => cases h

theorem insideEvent_opener (nest : List OpenCollection) (isMapping : Bool) (anchor : Nat)
    (span : Span) :
    insideEvent m nest (openerOf isMapping anchor) span = (do
      let c ← openCollection m isMapping anchor span
      setStage (.inside (c :: nest))) := by
  cases isMapping <;> rfl

/-- The event that closes a collection closes the innermost one. -/
theorem insideEvent_closer {e : Event} {look : Look} {isMapping : Bool} {style : Style}
    (h : e.sign look = .closing (bracketOf isMapping style).closing) (c : OpenCollection)
    (outer : List OpenCollection) (span : Span) :
    insideEvent m (c :: outer) e span = (do place outer (← close m c)) ∧
      ∀ labels, Event.labelled m labels (e, span) = labels := by
  cases isMapping
  · cases e with
    | sequenceEnd => exact ⟨rfl, fun _ => rfl⟩
    | _ => cases h
  · cases e with
    | mappingEnd => exact ⟨rfl, fun _ => rfl⟩
    | _ => cases h

end Parts

/-! ## Runs of events -/

/-- The state with a node put where it belongs. -/
def State.placed (s : State) (nest : List OpenCollection) (node : Node) : State :=
  match nest with
  | c :: outer => { s with stage := .inside ({ c with children := node :: c.children } :: outer) }
  | [] =>
    { s with
      stage := .afterContent
      documents := ⟨.document, node.start, node.stop, none, [node]⟩ :: s.documents }

section Runs

variable {m : SourceMap} {s s' : State} {nest : List OpenCollection}

theorem place_apply (node : Node) : place nest node s = .ok ((), s.placed nest node) := by
  cases nest <;> rfl

theorem steps_cons {e : Event} {span : Span} {rest : List (Event × Span)} :
    steps m ((e, span) :: rest) s = .ok ((), s') ↔
      ∃ s₁, step m e span s = .ok ((), s₁) ∧ steps m rest s₁ = .ok ((), s') := by
  show (step m e span >>= fun _ => steps m rest) s = _ ↔ _
  rw [stateful_bind_eq_ok]
  exact ⟨fun ⟨_, s₁, h⟩ => ⟨s₁, h⟩, fun ⟨s₁, h⟩ => ⟨(), s₁, h⟩⟩

theorem steps_append {es es' : List (Event × Span)} :
    steps m (es ++ es') s = .ok ((), s') ↔
      ∃ s₁, steps m es s = .ok ((), s₁) ∧ steps m es' s₁ = .ok ((), s') := by
  induction es generalizing s with
  | nil =>
      constructor
      · intro h
        exact ⟨s, rfl, h⟩
      · rintro ⟨s₁, hs, h⟩
        cases hs
        exact h
  | cons y rest ih =>
      obtain ⟨e, span⟩ := y
      rw [List.cons_append, steps_cons]
      constructor
      · rintro ⟨s₁, hstep, h⟩
        obtain ⟨s₂, hrest, h⟩ := ih.mp h
        exact ⟨s₂, steps_cons.mpr ⟨s₁, hstep, hrest⟩, h⟩
      · rintro ⟨s₂, h, hrest⟩
        obtain ⟨s₁, hstep, h⟩ := steps_cons.mp h
        exact ⟨s₁, hstep, ih.mpr ⟨s₂, h, hrest⟩⟩

theorem step_inside {e : Event} {span : Span} (hstage : s.stage = .inside nest) :
    step m e span s = insideEvent m nest e span s := by
  unfold step
  rw [get_bind, hstage]

/-- Events with the signs of an outline build one node with that outline. -/
def Builds (m : SourceMap) (o : Outline) : Prop :=
  ∀ {es : List (Event × Span)} {nest : List OpenCollection} {s s' : State},
    s.stage = .inside nest → Event.signs m s.labels es = o.signs → steps m es s = .ok ((), s') →
      ∃ n : Node, n.outline = o ∧
        s' = { s with labels := Event.labelsAfter m s.labels es }.placed nest n

/-- The nodes that events build in an open collection. -/
theorem steps_nodes {l : List Outline} (hl : ∀ o ∈ l, Builds m o) {es : List (Event × Span)}
    {c : OpenCollection} (hstage : s.stage = .inside (c :: nest))
    (hsigns : Event.signs m s.labels es = Outline.signsOf l)
    (h : steps m es s = .ok ((), s')) :
    ∃ nodes : List Node, nodes.map Node.outline = l ∧
      s' = { s with
        labels := Event.labelsAfter m s.labels es
        stage := .inside ({ c with children := nodes.reverse ++ c.children } :: nest) } := by
  induction l generalizing es c s with
  | nil =>
      obtain rfl := Event.signs_eq_nil hsigns
      cases h
      exact ⟨[], rfl, by rw [List.reverse_nil, List.nil_append, ← hstage]; rfl⟩
  | cons o rest ih =>
      -- the events of the first node, and then those of the others
      rw [Outline.signsOf_cons] at hsigns
      obtain ⟨es₁, es₂, rfl, h₁, h₂⟩ := Event.signs_eq_append hsigns
      obtain ⟨t, ht, hrest⟩ := steps_append.mp h
      obtain ⟨n, hn, rfl⟩ := hl o List.mem_cons_self hstage h₁ ht
      obtain ⟨nodes, hnodes, rfl⟩ :=
        ih (fun o ho => hl o (List.mem_cons_of_mem _ ho)) rfl h₂ hrest
      refine ⟨n :: nodes, ?_, ?_⟩
      · rw [List.map_cons, hn, hnodes]
      · simp [State.placed, Event.labelsAfter_append]

/-- **A collection takes the events from its opening to its closing one.** -/
theorem steps_collection (isMapping : Bool) (style : Style) {l : List Outline}
    (hl : ∀ o ∈ l, Builds m o) : Builds m (.group (bracketOf isMapping style) l) := by
  intro es nest s s' hstage hsigns h
  obtain ⟨⟨e, span⟩, tail, rfl, hy, htail⟩ := Event.signs_eq_cons hsigns
  obtain ⟨inner, last, rfl, hinner, hlast⟩ := Event.signs_eq_append htail
  obtain ⟨⟨e', span'⟩, rfl, hz⟩ := Event.signs_eq_singleton hlast
  obtain ⟨s₁, hfirst, h⟩ := steps_cons.mp h
  obtain ⟨s₂, hheld, h⟩ := steps_append.mp h
  obtain ⟨s₃, hend, h⟩ := steps_cons.mp h
  cases h
  -- the opening event
  obtain ⟨_, hsign⟩ := Event.fits_signIn m s.labels (e, span)
  obtain ⟨anchor, rfl, -⟩ := opener_of_sign (hsign.symm.trans hy)
  rw [step_inside hstage, insideEvent_opener, stateful_bind_eq_ok] at hfirst
  obtain ⟨c, _, hc, hset⟩ := hfirst
  cases hset
  obtain ⟨hmapping, hchildren, hopened, rfl⟩ := openCollection_eq hc
  -- what it holds
  obtain ⟨nodes, hnodes, rfl⟩ := steps_nodes hl rfl hinner hheld
  -- the closing event
  obtain ⟨_, hsign'⟩ := Event.fits_signIn m (Event.labelsAfter m (Event.labelled m s.labels
    (openerOf isMapping anchor, span)) inner) (e', span')
  obtain ⟨hclose, hlabels⟩ := insideEvent_closer (m := m) (hsign'.symm.trans hz)
    { c with children := nodes.reverse ++ c.children } nest span'
  rw [step_inside rfl, hclose, stateful_bind_eq_ok] at hend
  obtain ⟨n, _, hn, hplace⟩ := hend
  obtain ⟨style', hstyle', rfl, houtline⟩ := close_outline hn
  rw [place_apply] at hplace
  cases hplace
  -- the style at the end is the one that the opening event shows
  have hstyle : style' = style := by
    have hlook : Event.look m s.labels (openerOf isMapping anchor, span) =
        .ok { style := style' } := by
      rw [look_opener, hopened]
      show ({ style := · } : Style → Look) <$> collectionStyle m ⟨isMapping, c.opened, _, _⟩ = _
      rw [← hmapping]
      exact congrArg (({ style := · } : Style → Look) <$> ·) hstyle'
    rw [Event.signIn_of_look hlook] at hy
    obtain ⟨_, -, hstyle⟩ := opener_of_sign hy
    exact hstyle
  refine ⟨n, ?_, ?_⟩
  · simp only [houtline, hchildren, List.append_nil, List.reverse_reverse, hnodes, hmapping,
      hstyle]
  · have hafter : Event.labelsAfter m s.labels
        ((openerOf isMapping anchor, span) :: (inner ++ [(e', span')])) =
          Event.labelsAfter m (Event.labelled m s.labels (openerOf isMapping anchor, span))
            inner := by
      show Event.labelsAfter m (Event.labelled m s.labels _) (inner ++ [(e', span')]) = _
      rw [Event.labelsAfter_append]
      exact hlabels _
    rw [hafter]
    cases nest <;> rfl

/-- **A node takes the events that its signs are.** -/
theorem steps_node {o : Outline} (ho : o.IsNode) : Builds m o := by
  induction ho with
  | scalar text =>
      intro es nest s s' hstage hsigns h
      obtain ⟨⟨e, span⟩, rfl, hy⟩ := Event.signs_eq_singleton hsigns
      obtain ⟨look, hsign⟩ := Event.fits_signIn m s.labels (e, span)
      obtain ⟨s₁, hstep, h⟩ := steps_cons.mp h
      cases h
      rw [step_inside hstage] at hstep
      cases e with
      | scalar written style anchor =>
          change (scalar m written style anchor span >>= place nest) s = _ at hstep
          rw [stateful_bind_eq_ok] at hstep
          obtain ⟨n, s₁, hn, hplace⟩ := hstep
          obtain ⟨houtline, rfl⟩ := scalar_outline hn
          rw [place_apply] at hplace
          cases hplace
          refine ⟨n, Outline.signs_injective ?_, rfl⟩
          rw [← houtline, hy]
          rfl
      | _ => cases hsign.symm.trans hy
  | reference name =>
      intro es nest s s' hstage hsigns h
      obtain ⟨⟨e, span⟩, rfl, hy⟩ := Event.signs_eq_singleton hsigns
      obtain ⟨look, hsign⟩ := Event.fits_signIn m s.labels (e, span)
      obtain ⟨s₁, hstep, h⟩ := steps_cons.mp h
      cases h
      rw [step_inside hstage] at hstep
      cases e with
      | aliasTo anchor =>
          change (aliasNode m anchor span >>= place nest) s = _ at hstep
          rw [stateful_bind_eq_ok] at hstep
          obtain ⟨n, _, hn, hplace⟩ := hstep
          obtain ⟨houtline, rfl⟩ := aliasNode_outline hn
          rw [place_apply] at hplace
          cases hplace
          refine ⟨n, Outline.signs_injective ?_, rfl⟩
          rw [← houtline, hy]
          rfl
      | _ => cases hsign.symm.trans hy
  | sequence style _ ih => exact steps_collection false style ih
  | mapping style _ _ ih => exact steps_collection true style ih

/-! ## Documents -/

/-- Only the event that starts a document has the sign of that. -/
theorem documentStart_of_sign {e : Event} {look : Look} (h : e.sign look = .opening .document) :
    e = .documentStart := by
  cases e <;> first | rfl | cases h

theorem documentEnd_of_sign {e : Event} {look : Look} (h : e.sign look = .closing .document) :
    e = .documentEnd := by
  cases e <;> first | rfl | cases h

theorem streamStart_of_sign {e : Event} {look : Look} (h : e.sign look = .opening .stream) :
    e = .streamStart := by
  cases e <;> first | rfl | cases h

theorem streamEnd_of_sign {e : Event} {look : Look} (h : e.sign look = .closing .stream) :
    e = .streamEnd := by
  cases e <;> first | rfl | cases h

theorem step_between {e : Event} {span : Span} (hstage : s.stage = .betweenDocuments) :
    step m e span s = betweenEvent e s := by
  unfold step
  rw [get_bind, hstage]

/-- The events of documents. The state comes back to where the next document may start. -/
theorem steps_documents {contents : List Outline} (hl : ∀ o ∈ contents, o.IsNode)
    {es : List (Event × Span)} (hstage : s.stage = .betweenDocuments)
    (hsigns : Event.signs m s.labels es = Outline.signsOf (Outline.documents contents))
    (h : steps m es s = .ok ((), s')) :
    ∃ documents : List Node, documents.map Node.outline = Outline.documents contents ∧
      s'.stage = .betweenDocuments ∧ s'.documents = documents.reverse ++ s.documents := by
  induction contents generalizing es s with
  | nil =>
      obtain rfl := Event.signs_eq_nil hsigns
      cases h
      exact ⟨[], rfl, hstage, rfl⟩
  | cons o rest ih =>
      have hsplit : Event.signs m s.labels es = .opening .document :: (o.signs ++
          (.closing .document :: Outline.signsOf (Outline.documents rest))) := by
        rw [hsigns]
        simp [Outline.documents, Outline.signs, Bracket.closing]
      obtain ⟨⟨e, span⟩, tail, rfl, hy, htail⟩ := Event.signs_eq_cons hsplit
      obtain ⟨inner, tail, rfl, hinner, htail⟩ := Event.signs_eq_append htail
      obtain ⟨⟨e', span'⟩, others, rfl, hz, hothers⟩ := Event.signs_eq_cons htail
      obtain ⟨s₁, hstart, h⟩ := steps_cons.mp h
      obtain ⟨s₂, hnode, h⟩ := steps_append.mp h
      obtain ⟨s₃, hend, h⟩ := steps_cons.mp h
      -- the start of the document
      obtain ⟨_, hsign⟩ := Event.fits_signIn m s.labels (e, span)
      obtain rfl := documentStart_of_sign (hsign.symm.trans hy)
      rw [step_between hstage] at hstart
      cases hstart
      -- its content
      obtain ⟨n, hn, rfl⟩ := steps_node (s := { s with stage := .inside [] })
        (hl o List.mem_cons_self) rfl hinner hnode
      -- its end
      obtain ⟨_, hsign'⟩ := Event.fits_signIn m (Event.labelsAfter m (Event.labelled m s.labels
        (Event.documentStart, span)) inner) (e', span')
      obtain rfl := documentEnd_of_sign (hsign'.symm.trans hz)
      cases hend
      obtain ⟨documents, hdocuments, hbetween, heq⟩ :=
        ih (fun o ho => hl o (List.mem_cons_of_mem _ ho)) rfl hothers h
      refine ⟨⟨.document, n.start, n.stop, none, [n]⟩ :: documents, ?_, hbetween, ?_⟩
      · rw [List.map_cons, hdocuments]
        show Outline.group .document [n.outline] :: _ = _
        rw [hn]
        rfl
      · rw [heq]
        simp [State.placed]

end Runs

end TreeBuilder

/-- **The tree of a stream says what its events say.** -/
theorem Node.outline_of_ofEvents {m : SourceMap} {events : List (Event × Span)}
    {contents : List Outline} {root : Node} (hl : ∀ o ∈ contents, o.IsNode)
    (hsigns : Event.signs m [] events = (Outline.stream contents).signs)
    (h : Node.ofEvents m events = .ok root) : root.outline = Outline.stream contents := by
  obtain ⟨⟨e, span⟩, tail, rfl, hy, htail⟩ := Event.signs_eq_cons hsigns
  obtain ⟨inner, last, rfl, hinner, hlast⟩ := Event.signs_eq_append htail
  obtain ⟨⟨e', span'⟩, rfl, hz⟩ := Event.signs_eq_singleton hlast
  obtain ⟨⟨⟨⟩, s⟩, hsteps, hfinish⟩ := bind_eq_ok.mp h
  obtain ⟨s₁, hfirst, hsteps⟩ := TreeBuilder.steps_cons.mp hsteps
  obtain ⟨s₂, hdocuments, hsteps⟩ := TreeBuilder.steps_append.mp hsteps
  obtain ⟨s₃, hend, hsteps⟩ := TreeBuilder.steps_cons.mp hsteps
  cases hsteps
  obtain ⟨_, hsign⟩ := Event.fits_signIn m [] (e, span)
  obtain rfl := TreeBuilder.streamStart_of_sign (hsign.symm.trans hy)
  cases hfirst
  obtain ⟨documents, houtlines, hstage, heq⟩ :=
    TreeBuilder.steps_documents hl rfl hinner hdocuments
  obtain ⟨_, hsign'⟩ := Event.fits_signIn m (Event.labelsAfter m (Event.labelled m []
    (Event.streamStart, span)) inner) (e', span')
  obtain rfl := TreeBuilder.streamEnd_of_sign (hsign'.symm.trans hz)
  rw [TreeBuilder.step_between hstage] at hend
  cases hend
  cases hfinish
  show Outline.group .stream (Node.outlines s₂.documents.reverse) = _
  rw [Node.outlines_eq_map, heq]
  simp [TreeBuilder.start, houtlines, Outline.stream]

namespace Snapshot

/-- What the tree of a snapshot says. -/
def outline (s : Snapshot) : Outline := s.tree.root.outline

/-- **The tree of a text says what the event parser reads off the text**, which is a stream of
documents. -/
theorem reading_eq {source : Text} {s : Snapshot} (h : Snapshot.ofText source = .ok s) :
    Event.reading source = .ok s.outline.signs ∧
      ∃ contents : List Outline, (∀ o ∈ contents, o.IsNode) ∧ s.outline = .stream contents := by
  unfold Snapshot.ofText at h
  dsimp only at h
  cases hroot : Node.ofText (SourceMap.ofText source) with
  | error e =>
      rw [hroot] at h
      cases h
  | ok root =>
      rw [hroot] at h
      cases h
      unfold Node.ofText at hroot
      cases hevents : Event.ofDocument (SourceMap.ofText source).source with
      | error e =>
          rw [hevents] at hroot
          cases hroot
      | ok events =>
          rw [hevents] at hroot
          obtain ⟨contents, hl, hsigns⟩ := Event.nested_of_ofTokens hevents
            (Event.fits_signs (SourceMap.ofText source) [] events)
          have houtline : root.outline = .stream contents :=
            Node.outline_of_ofEvents hl hsigns hroot
          refine ⟨?_, contents, hl, houtline⟩
          show (Event.ofDocument source).map _ = .ok root.outline.signs
          rw [show Event.ofDocument source = .ok events from hevents, houtline, ← hsigns]
          rfl

end Snapshot

end YamlEdit
