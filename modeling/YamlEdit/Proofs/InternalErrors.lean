import YamlEdit.Proofs.Building
import YamlEdit.Proofs.EventMarks
import YamlEdit.Proofs.Histories
import YamlEdit.Proofs.Locations
import YamlEdit.Proofs.Offsets
import YamlEdit.Proofs.PlanErrors

/-!
# No internal error

An edit fails with a shape fault where a tree is not what the events of a text can only have built.
Three things about the events rule that out (`Event.WellFormed`): they are well nested, mappings
hold whole pairs, and a collection without brackets holds something. The event parser sees to them
(`Event.wellFormed_of_ofDocument`), and the planners ask for no more (`Snapshot.Sound.operation`).
-/

namespace YamlEdit

open EditError (Result)

/-! ## Well-formed events -/

/-- The style of a collection. -/
def Bracket.style? : Bracket → Option Style
  | .sequence style | .mapping style => some style
  | _ => none

/-- Only bracketed collections are empty. -/
def Outline.Filled (o : Outline) : Prop :=
  ∀ a bracket, o.at? a = some (.group bracket []) → bracket.style? ≠ some .block

/-- Events that are well nested, whose mappings hold whole pairs, and of which only bracketed
collections are empty. -/
def Event.WellFormed (m : SourceMap) (events : List (Event × Span)) : Prop :=
  ∃ contents : List Outline, (∀ o ∈ contents, o.IsNode) ∧ (Outline.stream contents).Filled ∧
    Event.signs m [] events = (Outline.stream contents).signs

/-- A collection whose bracket stands at its mark is in brackets. -/
theorem Event.look_of_bracketed {m : SourceMap} {labels : Labels} {isMapping : Bool} {n : Nat}
    {span : Span} (h : Bracketed m.source (TreeBuilder.openerOf isMapping n, span)) :
    look m labels (TreeBuilder.openerOf isMapping n, span) = .ok { style := .flow } := by
  obtain ⟨rest, hrest⟩ : ∃ rest, m.source.drop span.start.index =
      (if isMapping then '\x7b' else '[') :: rest := by
    cases isMapping
    · exact List.head?_eq_some_iff.mp h
    · exact List.head?_eq_some_iff.mp h
  -- there are no properties in front of the bracket
  have hskip : Extent.skipProperties m.source (m.offsetOfMark span.start) =
      .ok (m.offsetOfMark span.start) := by
    unfold Extent.skipProperties
    rw [m.dropBytes_offsetOfMark, hrest]
    cases isMapping <;> rfl
  rw [TreeBuilder.look_opener, hskip]
  show ({ style := · } : Style → Look) <$> TreeBuilder.collectionStyle m _ = _
  unfold TreeBuilder.collectionStyle
  rw [m.dropBytes_offsetOfMark, hrest]
  cases isMapping <;> rfl

/-- **The events of a text are well formed.** -/
theorem Event.wellFormed_of_ofDocument {source : Text} {events : List (Event × Span)}
    (h : Event.ofDocument source = .ok events) :
    Event.WellFormed (SourceMap.ofText source) events := by
  obtain ⟨contents, hcontents, hsigns⟩ := Event.nested_of_ofTokens h
    (Event.fits_signs (SourceMap.ofText source) [] events)
  refine ⟨contents, hcontents, fun a bracket hempty hblock => ?_, hsigns⟩
  -- the opening and the closing event of the collection come one after the other
  rw [Outline.signs_at hempty, List.append_assoc] at hsigns
  obtain ⟨before, rest, rfl, -, hsigns⟩ := signs_eq_append hsigns
  obtain ⟨y, rest, rfl, hy, hsigns⟩ := signs_eq_cons hsigns
  obtain ⟨y', rest, rfl, hy', -⟩ := signs_eq_cons hsigns
  have hfills : Fills source y y' :=
    (List.isChain_cons_cons.mp (List.isChain_append.mp (marked_of_ofDocument h).fills).2.1).1
  obtain ⟨isMapping, rfl⟩ : ∃ isMapping, bracket = TreeBuilder.bracketOf isMapping .block := by
    cases bracket with
    | sequence style =>
        cases hblock
        exact ⟨false, rfl⟩
    | mapping style =>
        cases hblock
        exact ⟨true, rfl⟩
    | _ => cases hblock
  obtain ⟨e, span⟩ := y
  obtain ⟨look, hlook⟩ := fits_signIn (SourceMap.ofText source)
    (labelsAfter (SourceMap.ofText source) [] before) (e, span)
  obtain ⟨n, rfl, -⟩ := TreeBuilder.opener_of_sign (hlook.symm.trans hy)
  have hbracketed : Bracketed source (TreeBuilder.openerOf isMapping n, span) := by
    refine hfills (by cases isMapping <;> rfl) ?_
    obtain ⟨e', span'⟩ := y'
    obtain ⟨look', hlook'⟩ := fits_signIn (SourceMap.ofText source) (labelled
      (SourceMap.ofText source) (labelsAfter (SourceMap.ofText source) [] before)
      (TreeBuilder.openerOf isMapping n, span)) (e', span')
    have hsign := hlook'.symm.trans hy'
    cases isMapping <;> cases e' <;> first | rfl | cases hsign
  rw [signIn_of_look (look_of_bracketed hbracketed)] at hy
  cases isMapping <;> cases hy

/-! ## Snapshots of well-formed events -/

/-- Whether a failed edit shows no fault of the tree. -/
def EditError.NotShape (e : EditError) : Prop := ∀ fault, e ≠ .shape fault

/-- A computation that fails for other reasons than the shape of the tree. -/
abbrev SafeFor {α : Type} (P : α → Prop) (x : Result α) : Prop := Yields EditError.NotShape P x

theorem EditError.notShape_mismatch (m : Mismatch) : NotShape (.mismatch m) := by
  intro fault h
  cases h

theorem EditError.notShape_unsupported (u : Unsupported) : NotShape (.unsupported u) := by
  intro fault h
  cases h

theorem EditError.allows_notShape : Allows NotShape :=
  ⟨fun _ => nofun, fun _ => nofun, fun _ _ => nofun⟩

/-- What a tree of well-formed events is like. -/
structure Snapshot.Sound (s : Snapshot) : Prop where
  tree : s.tree.Sound
  filled : s.tree.root.outline.Filled

/-- What a path leads to: a node and, with its number, the node that it is an entry of. -/
structure Snapshot.Reaches (s : Snapshot) (t : Target) : Prop where
  node : s.tree.Holds t.node
  entry : ∀ {parent i}, t.parent = some parent → t.index = some i →
    s.tree.Holds parent ∧ parent.children[i]? = some t.node ∧ (parent.isMapping = true → i % 2 = 1)

namespace Tree

theorem safe_node {α : Type} {P : α → Prop} {t : Tree} {a : Address} {n : Node}
    (h : t.root.descendant? a = some n) {f : Node → Result α} (hf : SafeFor P (f n)) :
    SafeFor P ((liftM (t.node a) : Result Node) >>= f) := by
  rw [node_of_descendant? h]
  exact hf

end Tree

/-- **Well-formed events make a sound tree.** -/
theorem Node.sound_of_ofEvents {m : SourceMap} {events : List (Event × Span)} {root : Node}
    (h : Event.WellFormed m events) (hroot : Node.ofEvents m events = .ok root) :
    (Snapshot.mk m (Tree.ofRoot root)).Sound := by
  obtain ⟨contents, hcontents, hfilled, hsigns⟩ := h
  have houtline : root.outline = .stream contents :=
    Node.outline_of_ofEvents hcontents hsigns hroot
  refine ⟨⟨⟨contents, hcontents, houtline⟩, ?_, rfl⟩, ?_⟩
  · exact Node.all_of_ofEvents (TreeBuilder.gives_regular m) (fun _ => ⟨nofun, nofun⟩) hroot
  · show root.outline.Filled
    rw [houtline]
    exact hfilled

namespace Snapshot.Sound

variable {s : Snapshot} {n : Node}

/-- A block collection of the tree holds something. -/
theorem children_ne_nil (hs : s.Sound) (h : s.tree.Holds n) (hstyle : n.kind.style? = some .block) :
    n.children ≠ [] := by
  obtain ⟨a, ha⟩ := h
  intro hempty
  have hat := Node.at?_of_descendant? hs.tree.regular ha
  obtain ⟨kind, start, stop, anchor, children⟩ := n
  obtain rfl : children = [] := hempty
  cases kind with
  | mapping style =>
      cases hstyle
      exact hs.filled a (.mapping .block) (by simpa [Node.outline, Node.outlines] using hat) rfl
  | sequence style =>
      cases hstyle
      exact hs.filled a (.sequence .block) (by simpa [Node.outline, Node.outlines] using hat) rfl
  | _ => cases hstyle

/-- **A path leads to an entry of the node above**, unless it leads nowhere. -/
theorem resolve (hs : s.Sound) (path : Text) : SafeFor s.Reaches (s.resolve path) := by
  unfold Snapshot.resolve
  refine yields_mapError (fun _ => nofun) fun selector => ?_
  refine Yields.bind (Q := EditError.NotShape)
    ((hs.tree.locate selector).mapError ?_) fun r hr => ?_
  · rintro e ⟨name, rfl⟩
    exact nofun
  cases r with
  | none => exact nofun
  | some l =>
      obtain ⟨hplaced, -⟩ := hr l rfl
      obtain ⟨node, hnode, -⟩ := hplaced.rests
      refine Tree.safe_node hnode ?_
      obtain ⟨target, parent⟩ := l
      cases parent with
      | none => exact ⟨⟨_, hnode⟩, nofun⟩
      | some p =>
          obtain ⟨hne, hp⟩ := hplaced.above rfl
          obtain ⟨q, i, rfl⟩ : ∃ q i, target = q ++ [i] :=
            ⟨_, _, (List.dropLast_concat_getLast hne).symm⟩
          obtain rfl : p = q := by simpa using hp
          obtain ⟨parent, hparent, hchild⟩ := Node.descendant?_of_append hnode
          refine Tree.safe_node hparent ⟨⟨_, hnode⟩, ?_⟩
          rintro _ j ⟨⟩ hj
          obtain rfl : i = j := by simpa [Location.index?] using hj
          obtain ⟨c, hc, hsame⟩ := Node.descendant?_cons_eq_some.mp hchild
          cases hsame
          refine ⟨⟨_, hparent⟩, hc, fun hmapping => ?_⟩
          obtain ⟨k, hk, hodd⟩ := hplaced.value rfl hparent hmapping
          obtain rfl : i = k := by simpa [Location.index?] using hk
          exact hodd

end Snapshot.Sound

namespace Snapshot.Reaches

variable {s : Snapshot} {t : Target}

/-- The collection of an entry, if there is one. -/
theorem yields_entry {Q : EditError → Prop} (hQ : ∀ m, Q (.mismatch m)) (ht : s.Reaches t)
    (action : EntryAction) :
    Yields Q
      (fun p => s.tree.Holds p.1 ∧ p.1.children[p.2]? = some t.node ∧
        (p.1.isMapping = true → p.2 % 2 = 1))
      (t.entry action) := by
  obtain ⟨node, parent, index⟩ := t
  unfold Target.entry
  cases parent with
  | none => exact hQ _
  | some parent =>
      cases index with
      | none => exact hQ _
      | some i =>
          dsimp only
          split
          · exact hQ _
          · exact ht.entry rfl rfl

theorem safe_entry (ht : s.Reaches t) (action : EntryAction) :
    SafeFor (fun p => p.1.children[p.2]? = some t.node ∧ (p.1.isMapping = true → p.2 % 2 = 1))
      (t.entry action) :=
  (ht.yields_entry EditError.notShape_mismatch action).mono fun _ h => h.2

end Snapshot.Reaches

namespace Snapshot.Sound

variable {s : Snapshot}

open EditError Plan

theorem delete (hs : s.Sound) (path : Text) : SafeFor (fun _ => True) (Plan.delete s path) := by
  refine (hs.resolve path).bind fun target ht => (ht.safe_entry .delete).bind fun p hp => ?_
  obtain ⟨parent, i⟩ := p
  obtain ⟨hchild, hodd⟩ := hp
  dsimp only
  split
  · next hmapping =>
      exact (Node.yields_pairedKey (.inl ⟨hodd hmapping, _, hchild⟩)).bind fun first _ =>
        yields_remove allows_notShape
  · exact yields_remove allows_notShape

theorem update (hs : s.Sound) (path : Text) (value : Value) :
    SafeFor (fun _ => True) (Plan.update s path value) := by
  refine (hs.resolve path).bind fun target ht => (ht.safe_entry .update).bind fun p hp => ?_
  obtain ⟨parent, i⟩ := p
  obtain ⟨hchild, hodd⟩ := hp
  refine yields_write allows_notShape fun f => ?_
  have hreplace : SafeFor (fun _ => True) (replaceEntry s path parent target.node i f) := by
    unfold replaceEntry
    split
    · next hkind =>
        have hmapping : parent.isMapping = true := by rw [Node.isMapping, hkind]; rfl
        exact (Node.yields_pairedKey (.inl ⟨hodd hmapping, _, hchild⟩)).bind fun key _ =>
          yields_replaceUnderKey allows_notShape
    · trivial
    · split
      · trivial
      · exact notShape_unsupported _
    · split
      · trivial
      · exact notShape_unsupported _
    · exact notShape_mismatch _
  exact hreplace.bind fun r _ => Replacement.yields_splice allows_notShape

theorem rename (hs : s.Sound) (path newName : Text) :
    SafeFor (fun _ => True) (Plan.rename s path newName) := by
  refine (hs.resolve path).bind fun target ht => (ht.safe_entry .rename).bind fun p hp => ?_
  obtain ⟨parent, i⟩ := p
  obtain ⟨hchild, hodd⟩ := hp
  dsimp only
  split
  · exact notShape_mismatch _
  · next hmapping =>
      refine yields_write allows_notShape fun name => ?_
      split
      · exact notShape_unsupported _
      · exact (Node.yields_pairedKey (.inl ⟨hodd (by simpa using hmapping), _, hchild⟩)).bind
          fun _ _ => trivial

/-- A collection outside brackets has children. -/
theorem children_ne_nil_of_not_isFlow {node : Node} (hs : s.Sound) (hnode : s.tree.Holds node)
    (hcollection : node.isMapping = true ∨ node.isSequence = true) (hflow : ¬ node.isFlow = true) :
    node.children ≠ [] := by
  refine hs.children_ne_nil hnode ?_
  simp only [Node.isMapping, Node.isSequence, Node.isFlow, Kind.isFlow] at hcollection hflow
  cases hkind : node.kind with
  | mapping style | sequence style => cases style <;> simp_all [Kind.style?]
  | _ => simp_all [Kind.isMapping, Kind.isSequence]

theorem mapAdd (hs : s.Sound) (path key : Text) (value : Value) :
    SafeFor (fun _ => True) (Plan.mapAdd s path key value) := by
  refine (hs.resolve path).bind fun target ht => ?_
  dsimp only
  split
  · exact notShape_mismatch _
  · next hmapping =>
      refine yields_write allows_notShape fun key => ?_
      split
      · exact notShape_unsupported _
      · refine yields_write allows_notShape fun value => ?_
        split
        · exact Flow.yields_addPair allows_notShape
        · next hflow =>
            exact Block.yields_addPair fun hempty => absurd hempty
              (hs.children_ne_nil_of_not_isFlow ht.node (.inl (by simpa using hmapping)) hflow)

theorem seqAdd (hs : s.Sound) (path : Text) (value : Value) (index : Option Nat) :
    SafeFor (fun _ => True) (Plan.seqAdd s path value index) := by
  refine (hs.resolve path).bind fun target ht => ?_
  dsimp only
  split
  · exact notShape_mismatch _
  · next hsequence =>
      refine yields_write allows_notShape fun item => ?_
      split
      · exact Flow.yields_addItem allows_notShape index
      · next hflow =>
          exact Block.yields_addItem allows_notShape (fun hempty => absurd hempty
            (hs.children_ne_nil_of_not_isFlow ht.node (.inr (by simpa using hsequence)) hflow))
            index

/-- **No operation fails because of the shape of the tree.** -/
theorem operation (hs : s.Sound) (o : Operation) :
    SafeFor (fun _ => True) (Plan.operation s o) := by
  cases o with
  | delete path => exact hs.delete path
  | update path value => exact hs.update path value
  | rename path newName => exact hs.rename path newName
  | mapAdd path key value => exact hs.mapAdd path key value
  | seqAdd path value index => exact hs.seqAdd path value index

end Snapshot.Sound

/-! ## Editors -/

/-- A snapshot is made of a text, of its events and of their tree. -/
theorem Snapshot.ofText_eq_ok {source : Text} {s : Snapshot} (h : Snapshot.ofText source = .ok s) :
    ∃ events root, Event.ofDocument source = .ok events ∧
      Node.ofEvents (SourceMap.ofText source) events = .ok root ∧
      s = ⟨SourceMap.ofText source, Tree.ofRoot root⟩ := by
  unfold Snapshot.ofText at h
  dsimp only at h
  split at h
  · cases h
  · next root hroot =>
      cases h
      unfold Node.ofText at hroot
      split at hroot
      · cases hroot
      · next events hevents => exact ⟨events, root, hevents, hroot, rfl⟩

theorem Snapshot.sound_of_ofText {source : Text} {s : Snapshot}
    (h : Snapshot.ofText source = .ok s) : s.Sound := by
  obtain ⟨events, root, hevents, hroot, rfl⟩ := Snapshot.ofText_eq_ok h
  exact Node.sound_of_ofEvents (Event.wellFormed_of_ofDocument hevents) hroot

/-- The tree of well-formed events is built, unless an offset is bad. -/
theorem Node.yields_ofEvents {m : SourceMap} {events : List (Event × Span)}
    (h : Event.WellFormed m events) :
    Yields TreeError.IsOffset (fun root => (Snapshot.mk m (Tree.ofRoot root)).Sound)
      (Node.ofEvents m events) := by
  have hwellFormed := h
  obtain ⟨contents, hcontents, -, hsigns⟩ := h
  exact (Node.ofEvents_progress (Event.fits_signs m [] events) hcontents hsigns).of_ok
    fun root hroot => Node.sound_of_ofEvents hwellFormed hroot

/-- A text that cannot be read has a fault of its own, or leads to a bad offset. -/
theorem Snapshot.ofText_eq_error {source : Text} {e : EditError}
    (h : Snapshot.ofText source = .error e) :
    (∃ fault, Event.ofDocument source = .error fault ∧ e = .malformed fault source) ∨
      ∃ events b, Event.ofDocument source = .ok events ∧
        Node.ofEvents (SourceMap.ofText source) events = .error (.badOffset b) ∧
        e = .badOffset b := by
  unfold Snapshot.ofText at h
  dsimp only at h
  split at h
  · next error hroot =>
      unfold Node.ofText at hroot
      split at hroot
      · next fault hfault =>
          cases hroot
          cases h
          exact .inl ⟨fault, hfault, rfl⟩
      · next events hevents =>
          obtain ⟨b, rfl⟩ := (yields_iff.mp (Node.yields_ofEvents
            (Event.wellFormed_of_ofDocument hevents))).2 error hroot
          cases h
          exact .inr ⟨events, b, hevents, hroot, rfl⟩
  · cases h

/-- A text that is read makes a sound snapshot. -/
theorem Snapshot.safe_ofText (source : Text) : SafeFor Snapshot.Sound (Snapshot.ofText source) := by
  refine yields_iff.mpr ⟨fun s hs => Snapshot.sound_of_ofText hs, fun e h => ?_⟩
  rcases Snapshot.ofText_eq_error h with ⟨fault, -, rfl⟩ | ⟨events, b, -, -, rfl⟩
  · exact nofun
  · exact nofun

namespace Editor

theorem safe_apply {s : Snapshot} (hs : s.Sound) (o : Operation) :
    SafeFor Snapshot.Sound (apply s o) :=
  (hs.operation o).bind fun _ _ =>
    yields_offset EditError.allows_notShape fun t => Snapshot.safe_ofText t

/-- Operations one after the other: each one finds a sound snapshot. -/
theorem notShape_of_applyAll {s : Snapshot} (hs : s.Sound) {os : List Operation} {e : EditError}
    (h : (applyAll s os).2 = some e) : e.NotShape := by
  induction os generalizing s with
  | nil => cases h
  | cons o rest ih =>
      have hsafe := safe_apply hs o
      rw [applyAll] at h
      cases happly : apply s o with
      | ok s' =>
          rw [happly] at h hsafe
          exact ih hsafe h
      | error fault =>
          rw [happly] at h hsafe
          cases h
          exact hsafe

theorem Reached.sound {source : Text} {e : Editor} (h : e.Reached source) : e.snapshot.Sound :=
  Snapshot.sound_of_ofText h.consistent.snapshot

end Editor

/-- **No internal error is reachable.** Well-formed events make a tree; no chain of moves in it is
endless, and the bound on searches ends none of them; every selector leads to a place with
everything that a location needs, to nothing, or to an alias to an unknown anchor; and every
operation can be planned or fails for a reason of its own. So no text, no path and no operation
makes an editor fail with an internal error, whatever it has done before. -/
theorem no_internal_error :
    (∀ m events, Event.WellFormed m events →
      Yields TreeError.IsOffset
        (fun root =>
          (WellFounded fun b a => (Tree.ofRoot root).Moves a b) ∧
          (∀ fuel a n, 2 ≤ fuel → root.descendant? a = some n →
            (Tree.ofRoot root).unwrap fuel a = (Tree.ofRoot root).unwrap 2 a) ∧
          (∀ selector, Yields LocateError.IsUnknown
            (fun r => ∀ l, r = some l →
              (Tree.ofRoot root).Placed l ∧ (l.parent = none → selector.segments = []))
            ((Tree.ofRoot root).locate selector)) ∧
          ∀ o, SafeFor (fun _ => True) (Plan.operation ⟨m, Tree.ofRoot root⟩ o))
        (Node.ofEvents m events)) ∧
    ∀ source, SafeFor (fun _ => True) (Editor.load source) ∧
      ∀ e, Editor.Reached source e → SafeFor (fun _ => True) e.render.2 ∧
        ∀ path, SafeFor (fun _ => True) (e.find path) ∧ SafeFor (fun _ => True) (e.value path) := by
  refine ⟨fun m events h => ?_, fun source => ⟨?_, fun e he => ⟨?_, fun path => ?_⟩⟩⟩
  · refine (Node.yields_ofEvents h).mono fun root hs => ⟨hs.tree.moves_wellFounded, ?_, ?_, ?_⟩
    · exact fun fuel a n hfuel hn => hs.tree.unwrap_eq hfuel hn
    · exact hs.tree.locate
    · exact hs.operation
  · exact (Snapshot.safe_ofText source).bind fun _ _ => trivial
  · unfold Editor.render
    dsimp only
    split
    · trivial
    · next error herror => exact Editor.notShape_of_applyAll he.sound herror
  · have hfind : SafeFor (fun _ => True) (e.find path) :=
      (he.sound.resolve path).bind fun _ _ => trivial
    exact ⟨hfind, hfind.bind fun n _ => yields_offset EditError.allows_notShape fun text =>
      yields_iff.mpr ⟨fun _ _ => trivial, fun error h => by
        obtain ⟨fault, -, rfl⟩ := mapError_eq_error.mp h
        exact nofun⟩⟩

/-- A sequence that holds itself: the search for its first item comes back to it, the value there
cannot be read, and to delete it is to delete the content of the document. -/
theorem no_internal_error_of_cycle :
    ∃ events root e, Event.ofDocument "&a\n- *a\n- k: *a\n".toList = .ok events ∧
      Event.WellFormed (SourceMap.ofText "&a\n- *a\n- k: *a\n".toList) events ∧
      Node.ofEvents (SourceMap.ofText "&a\n- *a\n- k: *a\n".toList) events = .ok root ∧
      (WellFounded fun b a => (Tree.ofRoot root).Moves a b) ∧
      (∃ l, (Tree.ofRoot root).locate ⟨"0".toList, [.index 0]⟩ = .ok (some l) ∧
        l = ⟨[0, 0], some [0]⟩ ∧ (Tree.ofRoot root).Placed l) ∧
      Editor.Reached "&a\n- *a\n- k: *a\n".toList e ∧ e.queue = [.delete "0".toList] ∧
      (∃ error, e.render.2 = .error error ∧ error.NotShape) ∧
      ∃ error, e.value "0".toList = .error error ∧ error.NotShape := by
  obtain ⟨e, hload, hlocate, hrender, hvalue⟩ := Editor.exists_load "&a\n- *a\n- k: *a\n".toList
    (P := fun e =>
      e.snapshot.tree.locate ⟨"0".toList, [.index 0]⟩ = .ok (some ⟨[0, 0], some [0]⟩) ∧
      (e.enqueue (.delete "0".toList)).render.2.toOption.isNone = true ∧
      (e.value "0".toList).toOption.isNone = true)
    (by decide +kernel)
  have hfails : ∀ {α : Type} {x : Result α}, x.toOption.isNone = true → SafeFor (fun _ => True) x →
      ∃ error, x = .error error ∧ error.NotShape := by
    intro α x hx hsafe
    cases x with
    | ok a => cases hx
    | error error => exact ⟨error, rfl, hsafe⟩
  obtain ⟨hread, hqueue⟩ := Editor.load_eq_ok hload
  obtain ⟨events, root, hevents, hroot, hsnapshot⟩ := Snapshot.ofText_eq_ok hread
  have hwellFormed := Event.wellFormed_of_ofDocument hevents
  have hreached : Editor.Reached "&a\n- *a\n- k: *a\n".toList (e.enqueue (.delete "0".toList)) :=
    (Editor.Reached.loaded hload).called (.enqueue (.delete "0".toList))
  have hbuilt := no_internal_error.1 _ events hwellFormed
  rw [hroot] at hbuilt
  obtain ⟨hmoves, -, hlocated, -⟩ := hbuilt
  rw [hsnapshot] at hlocate
  have hl := hlocated ⟨"0".toList, [.index 0]⟩
  rw [hlocate] at hl
  obtain ⟨hrendered, hfound⟩ := (no_internal_error.2 _).2 _ hreached
  refine ⟨events, root, _, hevents, hwellFormed, hroot, hmoves, ⟨_, hlocate, rfl, (hl _ rfl).1⟩,
    hreached, ?_, hfails hrender hrendered, hfails hvalue (hfound _).2⟩
  rw [Editor.enqueue, hqueue, List.nil_append]

end YamlEdit
