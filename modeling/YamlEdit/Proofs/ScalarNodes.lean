import YamlEdit.Proofs.EventTrees

/-!
# Scalars of events and of trees

The scalars of a tree, in the order of the text, are made of the scalars among its events, one of
each. A step of the builder makes at most one, behind those so far, and only a scalar event makes
one (`TreeBuilder.scalars_of_step`).

Main statement: `Node.scalars_of_ofDocument`.
-/

namespace YamlEdit

/-- Whether an event is a scalar. -/
def Event.isScalar : Event → Bool
  | .scalar _ _ _ => true
  | _ => false

/-- A scalar node that is made of an event. -/
def Node.OfEvent (m : SourceMap) (y : Event × Span) (n : Node) : Prop :=
  ∃ text style anchor, y.1 = .scalar text style anchor ∧ n.OfScalar m text style y.2

namespace Node

mutual

/-- The scalars of a tree, in the order of the text. -/
def scalars : Node → List Node
  | ⟨.scalar text, start, stop, anchor, children⟩ => [⟨.scalar text, start, stop, anchor, children⟩]
  | ⟨.stream, _, _, _, children⟩ | ⟨.document, _, _, _, children⟩
  | ⟨.mapping _, _, _, _, children⟩ | ⟨.sequence _, _, _, _, children⟩
  | ⟨.aliasTo _, _, _, _, children⟩ => scalarsOf children

/-- The scalars of trees, one behind the other. -/
def scalarsOf : List Node → List Node
  | [] => []
  | n :: rest => n.scalars ++ scalarsOf rest

end

theorem scalarsOf_append (l l' : List Node) :
    scalarsOf (l ++ l') = scalarsOf l ++ scalarsOf l' := by
  induction l with
  | nil => rfl
  | cons n rest ih => rw [List.cons_append, scalarsOf, scalarsOf, ih, List.append_assoc]

theorem scalarsOf_singleton (n : Node) : scalarsOf [n] = n.scalars := by
  rw [scalarsOf, scalarsOf, List.append_nil]

theorem scalars_collection {isMapping : Bool} {style : Style} {start stop : Position}
    {anchor : Option Text} {children : List Node} :
    scalars ⟨TreeBuilder.kindOf isMapping style, start, stop, anchor, children⟩ =
      scalarsOf children := by
  cases isMapping <;> exact scalars.eq_def _

end Node

namespace TreeBuilder

/-- The scalars of the collections that are open, the outermost ones first. -/
def scalarsOpen : List OpenCollection → List Node
  | [] => []
  | c :: outer => scalarsOpen outer ++ Node.scalarsOf c.children.reverse

/-- The scalars that have been made so far, in the order of the text. -/
def State.scalars (s : State) : List Node :=
  Node.scalarsOf s.documents.reverse ++
    match s.stage with
    | .inside nest => scalarsOpen nest
    | _ => []

section Scalars

variable {m : SourceMap} {s s' : State} {e : Event} {span : Span} {nest : List OpenCollection}

theorem scalars_inside (hstage : s.stage = .inside nest) :
    s.scalars = Node.scalarsOf s.documents.reverse ++ scalarsOpen nest := by
  rw [State.scalars, hstage]

/-- The scalars of a node come behind those so far. -/
theorem scalars_placed (n : Node) : (s.placed nest n).scalars =
    Node.scalarsOf s.documents.reverse ++ scalarsOpen nest ++ n.scalars := by
  cases nest with
  | nil =>
      show Node.scalarsOf (_ :: s.documents).reverse ++ [] = _ ++ [] ++ _
      rw [List.reverse_cons, Node.scalarsOf_append, Node.scalarsOf_singleton, List.append_nil,
        List.append_nil, Node.scalars, Node.scalarsOf_singleton]
  | cons c outer =>
      show Node.scalarsOf s.documents.reverse ++
        (scalarsOpen outer ++ Node.scalarsOf (n :: c.children).reverse) = _
      rw [List.reverse_cons, Node.scalarsOf_append, Node.scalarsOf_singleton, scalarsOpen,
        ← List.append_assoc, ← List.append_assoc, ← List.append_assoc]

/-- What an event adds to the scalars so far. -/
def AddsScalars (m : SourceMap) (s s' : State) (events : List (Event × Span)) : Prop :=
  ∃ made, s'.scalars = s.scalars ++ made ∧
    List.Forall₂ (Node.OfEvent m) (events.filter (·.1.isScalar)) made

/-- An event that is no scalar adds none. -/
theorem addsScalars_none (he : e.isScalar = false) (h : s'.scalars = s.scalars) :
    AddsScalars m s s' [(e, span)] := by
  refine ⟨[], by rw [h, List.append_nil], ?_⟩
  rw [List.filter_cons_of_neg (by simp [he]), List.filter_nil]
  exact .nil

/-- Outside collections there are the scalars of the documents. -/
theorem scalars_outside (hstage : ∀ c nest, s.stage ≠ .inside (c :: nest)) :
    s.scalars = Node.scalarsOf s.documents.reverse := by
  unfold State.scalars
  split
  · next nest hnest =>
      cases nest with
      | nil => exact List.append_nil _
      | cons c nest => exact absurd hnest (hstage c nest)
  · rw [List.append_nil]

theorem scalars_moved {stage : Stage} (hstage : ∀ c nest, s.stage ≠ .inside (c :: nest))
    (hstage' : ∀ c nest, stage ≠ .inside (c :: nest)) :
    State.scalars { s with stage } = s.scalars :=
  (scalars_outside hstage').trans (scalars_outside hstage).symm

/-- **What a step adds**: at most one scalar, made of the event. Nothing is read any more when the
stream has ended. -/
theorem scalars_of_step (hstage : s.stage ≠ .ended) (h : step m e span s = .ok ((), s')) :
    AddsScalars m s s' [(e, span)] := by
  cases reads_of_step h with
  | behind hended => exact absurd hended hstage
  | stream hs | documentEnd hs =>
      exact addsScalars_none rfl (scalars_moved (by rw [hs]; nofun) nofun)
  | document hs | streamEnd hs =>
      exact addsScalars_none rfl
        (scalars_moved (by rcases hs with hs | hs <;> (rw [hs]; nofun)) nofun)
  | @scalar nest text style anchor _ n _ hs hn =>
      obtain ⟨start, first, last, taken, name, hstart, hextent, hlabel, rfl⟩ := scalar_eq hn
      obtain rfl := label_eq hlabel
      refine ⟨[⟨.scalar taken, m.position first, m.position last, name, []⟩], ?_,
        .cons ⟨text, style, anchor, rfl, ⟨start, first, last, taken, hstart, hextent, rfl, rfl,
          rfl⟩, rfl⟩ .nil⟩
      rw [scalars_placed, scalars_inside hs]
      rfl
  | reference hs hn =>
      obtain ⟨stop, name, -, -, rfl⟩ := aliasNode_eq hn
      refine addsScalars_none rfl ?_
      rw [scalars_placed, scalars_inside hs, Node.scalars, Node.scalarsOf, List.append_nil]
  | @opener nest isMapping _ _ _ c _ hs he hc =>
      obtain ⟨-, hchildren, -, rfl⟩ := openCollection_eq hc
      refine addsScalars_none (by rw [he]; cases isMapping <;> rfl) ?_
      -- a collection that is opened has no scalars yet
      rw [scalars_inside hs]
      show _ ++ (scalarsOpen nest ++ Node.scalarsOf c.children.reverse) = _
      rw [hchildren, List.reverse_nil, Node.scalarsOf, List.append_nil]
  | closer hs he hn =>
      obtain ⟨style, start, stop, -, -, rfl, -, -⟩ := close_eq hn
      refine addsScalars_none (by rcases he with rfl | rfl <;> rfl) ?_
      -- the scalars of a collection that is closed are those of its children
      rw [scalars_placed, Node.scalars_collection, scalars_inside hs, scalarsOpen,
        List.append_assoc]

/-- What steps add, if they read the signs that are left at their stage. -/
theorem scalars_of_steps {events : List (Event × Span)} {signs : List Sign}
    (hfits : List.Forall₂ Event.Fits events signs) (hreads : Role.ReadsAll s.stage.roles signs)
    (h : steps m events s = .ok ((), s')) :
    AddsScalars m s s' events ∧ s'.stage.roles = [] := by
  induction hfits generalizing s with
  | nil =>
      cases h
      exact ⟨⟨[], (List.append_nil _).symm, .nil⟩, Role.eq_nil_of_readsAll hreads⟩
  | @cons y sign rest signs hfit _ ih =>
      obtain ⟨e, span⟩ := y
      obtain ⟨look, rfl⟩ := hfit
      obtain ⟨s₁, hstep, hrest⟩ := steps_cons.mp h
      have hstage : s.stage ≠ .ended := by
        intro hended
        rw [hended] at hreads
        cases hreads
      obtain ⟨made, hmade, hfirst⟩ := scalars_of_step hstage hstep
      have hleft := (yields_iff.mp (step_progress hreads)).1 _ hstep
      obtain ⟨⟨more, hmore, hlater⟩, hended⟩ := ih hleft hrest
      refine ⟨⟨made ++ more, by rw [hmore, hmade, List.append_assoc], ?_⟩, hended⟩
      rw [← List.singleton_append, List.filter_append]
      exact List.rel_append hfirst hlater

/-- The scalars of a tree are those that have been made. -/
theorem scalars_of_finish {root : Node} (h : finish m s = .ok root) :
    root.scalars = s.scalars := by
  obtain rfl := finish_eq h
  have hopen : ∀ nest, s.stage = .inside nest → scalarsOpen nest = [] := by
    rintro nest hstage
    unfold finish at h
    rw [hstage] at h
    cases nest <;> cases h
  rw [Node.scalars, State.scalars]
  split
  · next nest hstage => rw [hopen nest hstage, List.append_nil]
  · rw [List.append_nil]

end Scalars

end TreeBuilder

/-- **The scalars of a text** are made of the scalars among its events, one of each. -/
theorem Node.scalars_of_ofDocument {m : SourceMap} {doc : Text} {events : List (Event × Span)}
    {root : Node} (hevents : Event.ofDocument doc = .ok events)
    (h : Node.ofEvents m events = .ok root) :
    List.Forall₂ (Node.OfEvent m) (events.filter (·.1.isScalar)) root.scalars := by
  obtain ⟨⟨⟨⟩, s⟩, hsteps, hfinish⟩ := bind_eq_ok.mp h
  have hfits := Event.fits_signs m [] events
  obtain ⟨contents, hcontents, hsigns⟩ := Event.nested_of_ofTokens hevents hfits
  have hreads : Role.ReadsAll TreeBuilder.start.stage.roles (Event.signs m [] events) :=
    Role.readsAll_singleton ⟨contents, hcontents, hsigns⟩
  obtain ⟨⟨made, hmade, hall⟩, -⟩ := TreeBuilder.scalars_of_steps hfits hreads hsteps
  rw [TreeBuilder.scalars_of_finish hfinish, hmade]
  exact hall

end YamlEdit
