import YamlEdit.Proofs.EventTrees
import YamlEdit.Proofs.ItemMarkers
import YamlEdit.Proofs.LinePositions
import YamlEdit.Proofs.ScalarExtents

/-!
# Where nodes start and stop

All nodes stand at places of the text, and none stops in front of the stop of one that it holds.
Scalars, aliases and collections in brackets do not stop in front of their start either. A block
collection starts where its first child does, or at a dash; it stops with the last of its children.
So it can only be the wrong way round because its first child is, and in the end because of a
sequence that opens with a dash which is not the one of its first item (`Node.IsStray`).

The proof goes along the trees of events, with one lemma for each kind of node
(`Node.OfScalar.settled`, `Node.OfReference.settled`, `Node.OfCollection.settled`).

Main statement: `EventStream.wellPlaced_of_ofEvents`, for all streams of events whose marks are the
right way round.
-/

namespace YamlEdit

open Text

namespace Node

/-- A node that starts with another one: it is that one, or it is not in brackets and its first
child starts with it. -/
inductive StartsWith : Node → Node → Prop where
  | here {n : Node} : StartsWith n n
  | first {n child s : Node} (unbracketed : n.isFlow = false)
      (head : n.children.head? = some child) (h : StartsWith child s) : StartsWith n s

/-- A block sequence that starts at a dash, although none is found in front of its first item, and
whose items all stop in front of that dash. -/
structure IsStray (source : Text) (n : Node) : Prop where
  kind : n.kind = .sequence .block
  dash : source.StartsAt ((SourceMap.ofText source).offset n.start) '-'
  unmarked : ∃ first, n.children.head? = some first ∧
    Extent.itemMarker source ((SourceMap.ofText source).offset first.start) = .ok none
  behind : ∀ c ∈ n.children, c.stop.Before n.start

/-- A node whose positions are those of places of the text. -/
structure AtPlaces (source : Text) (n : Node) : Prop where
  within : n.Within source
  measured : n.Measured (SourceMap.ofText source)

/-- A node that is where it should be: at places of the text, not stopping in front of the stop of a
node inside, and the right way round, unless it is a block collection or a wrapper that starts with
a stray sequence. -/
structure WellPlaced (source : Text) (n : Node) : Prop where
  places : n.AtPlaces source
  holds : ∀ a d, n.descendant? a = some d → ¬ n.stop.Before d.stop
  forwards : n.kind.style? ≠ some .block → n.kind.isWrapper = false → ¬ n.stop.Before n.start
  backwards : n.stop.Before n.start → ∃ s, n.StartsWith s ∧ s.IsStray source

end Node

/-! ## Positions in the order of their offsets -/

namespace SourceMap

variable {source : Text} {p q : Position}

theorem offset_le_size (source : Text) (p : Position) : (ofText source).offset p ≤ size source :=
  Nat.min_le_right _ _

/-- Positions that are those of offsets are in the order of these. -/
theorem before_iff (hp : (ofText source).position ((ofText source).offset p) = p)
    (hq : (ofText source).position ((ofText source).offset q) = q) :
    p.Before q ↔ (ofText source).offset p < (ofText source).offset q := by
  have has : ∀ {r}, (ofText source).position ((ofText source).offset r) = r →
      (LineIndex.ofText source).Has r := fun {r} hr =>
    hr ▸ LineIndex.has_position (offset_le_size source r)
  have hplace : ∀ {r}, (LineIndex.ofText source).Has r →
      (LineIndex.ofText source).placeOf r = (ofText source).offset r := fun hr =>
    (Nat.min_eq_left hr.le).symm
  have hbefore : ∀ {r r' : Position}, (LineIndex.ofText source).Has r →
      (LineIndex.ofText source).Has r' → (ofText source).offset r < (ofText source).offset r' →
      r.Before r' := by
    intro r r' hr hr' hlt
    refine hr.before hr' ?_
    rwa [hplace hr, hplace hr']
  refine ⟨fun h => ?_, hbefore (has hp) (has hq)⟩
  rcases Nat.lt_trichotomy ((ofText source).offset p) ((ofText source).offset q) with
    hlt | heq | hgt
  · exact hlt
  · obtain rfl : p = q := by rw [← hp, ← hq, heq]
    unfold Position.Before at h
    omega
  · have h' := hbefore (has hq) (has hp) hgt
    unfold Position.Before at h h'
    omega

end SourceMap

/-! ## Searches that go forwards or backwards -/

namespace Extent

variable {source t rest : Text} {start stop place d : Nat} {found : Option Nat}

theorem le_of_suffix {x : Text} (h : rest <:+ t) : size x ≤ size (x ++ t) - size rest := by
  obtain ⟨u, rfl⟩ := h
  rw [size_append, size_append]
  omega

/-- A quoted scalar does not end in front of its start. -/
theorem le_of_quotedEnd (h : quotedEnd source start = .ok (some stop)) : start ≤ stop := by
  obtain ⟨t, ht, hfound⟩ := bind_eq_ok.mp h
  obtain ⟨x, rfl, rfl⟩ := dropBytes_eq_ok.mp ht
  obtain ⟨rest, hrest, rfl⟩ := Option.map_eq_some_iff.mp (Except.ok.inj hfound)
  apply le_of_suffix
  split at hrest
  · exact (suffix_of_afterSingleQuoted hrest).trans ⟨['\''], rfl⟩
  · exact (suffix_of_afterDoubleQuoted hrest).trans ⟨['"'], rfl⟩
  · cases hrest

/-- The header of a block scalar is not behind its content. -/
theorem le_of_blockHeader (h : blockHeader source start = .ok (some place)) : place ≤ start := by
  obtain ⟨cut, hcut, -⟩ := bind_eq_ok.mp h
  obtain ⟨x, y, rfl, rfl⟩ := isBoundary_iff_cutAt.mpr ⟨cut, hcut⟩
  by_cases hmark : isHeaderMark (y.headD ' ') = true
  · unfold blockHeader at h
    rw [cutAt_append, ok_bind] at h
    dsimp only at h
    rw [if_pos hmark] at h
    cases h
    exact Nat.le_refl _
  · obtain ⟨u, front, word, hu, hline, -, -, rfl⟩ :=
      exists_of_blockHeader (Bool.not_eq_true _ ▸ hmark) h
    obtain ⟨v, hv⟩ := trimEnd_isPrefix x
    obtain ⟨w, hw⟩ := (trimEnd_isPrefix _).trans (beforeComment_isPrefix false (lastLine (trimEnd x)))
    rw [← headerLine_eq, hline] at hw
    have hsizes := congrArg size hv
    rw [hu, ← hw] at hsizes
    simp only [size_append] at hsizes
    omega

theorem le_of_itemMarker (hplace : source.IsBoundary place)
    (h : itemMarker source place = .ok (some d)) : d ≤ place := by
  obtain ⟨x, gap, y, -, rfl, rfl, -⟩ := (itemMarker_eq_iff hplace).mp h
  rw [size_append]
  exact Nat.le_add_right _ _

theorem le_of_aliasEnd (h : aliasEnd source start = .ok (some stop)) : start ≤ stop := by
  obtain ⟨t, -, h⟩ := bind_eq_ok.mp h
  split at h
  · cases h
    omega
  · cases h

theorem le_of_flowEnd {closer : Char} (h : flowEnd source place closer = .ok stop) :
    place ≤ stop := by
  obtain ⟨t, -, h⟩ := bind_eq_ok.mp h
  cases h
  split
  · exact Nat.le_add_right _ _
  · exact Nat.le_refl _

end Extent

/-! ## One node -/

namespace Node

/-- What the builder gives to a node, in offsets: it stops behind all its children, and it is the
right way round or starts with a stray sequence. -/
structure Settled (source : Text) (n : Node) : Prop where
  holds : ∀ c ∈ n.children, (SourceMap.ofText source).offset c.stop ≤
    (SourceMap.ofText source).offset n.stop
  forwards : n.kind.style? ≠ some .block → n.kind.isWrapper = false →
    (SourceMap.ofText source).offset n.start ≤ (SourceMap.ofText source).offset n.stop
  backwards : (SourceMap.ofText source).offset n.stop < (SourceMap.ofText source).offset n.start →
    ∃ s, n.StartsWith s ∧ s.IsStray source

section Settled

variable {source : Text} {n : Node} {span : Span}

/-- A node that is the right way round. -/
theorem Settled.of_le
    (hholds : ∀ c ∈ n.children, (SourceMap.ofText source).offset c.stop ≤
      (SourceMap.ofText source).offset n.stop)
    (hle : (SourceMap.ofText source).offset n.start ≤ (SourceMap.ofText source).offset n.stop) :
    n.Settled source :=
  ⟨hholds, fun _ _ => hle, fun hlt => absurd hlt (Nat.not_lt.mpr hle)⟩

/-- Places keep their order as positions. -/
theorem offset_le_of_position {first last : Nat}
    (hstart : n.start = (SourceMap.ofText source).position first)
    (hstop : n.stop = (SourceMap.ofText source).position last) (hle : first ≤ last) :
    (SourceMap.ofText source).offset n.start ≤ (SourceMap.ofText source).offset n.stop := by
  rw [hstart, hstop, SourceMap.offset_position_min, SourceMap.offset_position_min]
  omega

end Settled

end Node

/-- **A scalar does not stop in front of its start.** -/
theorem TreeBuilder.le_of_scalarExtent {source text taken : Text} {style : ScalarStyle}
    {start stop first last : Nat} (hle : start ≤ stop)
    (h : scalarExtent (SourceMap.ofText source) text style start stop = .ok (first, last, taken)) :
    first ≤ last := by
  have hblock : style = .literal ∨ style = .folded → first ≤ last := by
    intro hstyle
    obtain ⟨hlast, found, hfound, rfl⟩ := scalarExtent_block hstyle h
    refine Nat.le_trans ?_ (trimmedEnd_bounds hlast).1
    cases found with
    | none => exact Nat.le_refl _
    | some place => exact Extent.le_of_blockHeader hfound
  cases style with
  | singleQuoted | doubleQuoted =>
      obtain ⟨close, hclose, h⟩ := bind_eq_ok.mp h
      cases h
      cases close with
      | none => exact hle
      | some place => exact Extent.le_of_quotedEnd hclose
  | literal => exact hblock (.inl rfl)
  | folded => exact hblock (.inr rfl)
  | plain =>
      unfold scalarExtent at h
      dsimp only at h
      split at h
      · obtain ⟨place, -, h⟩ := bind_eq_ok.mp h
        cases h
        exact Nat.le_refl _
      · obtain ⟨stop, hstop, h⟩ := bind_eq_ok.mp h
        cases h
        exact (trimmedEnd_bounds hstop).1

theorem Node.OfScalar.settled {source text : Text} {style : ScalarStyle} {span : Span} {n : Node}
    (h : n.OfScalar (SourceMap.ofText source) text style span) : n.Settled source := by
  obtain ⟨start, first, last, taken, -, hextent, -, hstart, hstop⟩ := h.made
  refine .of_le (by rw [h.leaf]; nofun) (offset_le_of_position hstart hstop ?_)
  exact TreeBuilder.le_of_scalarExtent (Nat.le_max_right _ _) hextent

/-- An alias is as wide as its name, or as its marks say. -/
theorem Node.OfReference.settled {source : Text} {labels : Event.Labels} {anchor : Nat}
    {span : Span} {n : Node} (h : n.OfReference (SourceMap.ofText source) labels anchor span)
    (hspan : span.start.index ≤ span.stop.index) : n.Settled source := by
  obtain ⟨name, stop, hend, -, hstart, hstop, -⟩ := h.made
  refine .of_le (by rw [h.leaf]; nofun) (offset_le_of_position hstart hstop ?_)
  cases stop with
  | none => exact (SourceMap.ofText source).offsetOfMark_mono hspan
  | some place => exact Extent.le_of_aliasEnd hend

namespace TreeBuilder

/-- Where a block collection starts: at its first child, at the dash in front of that, or at the
dash that it opens with. -/
theorem blockStart_cases {m : SourceMap} {c : OpenCollection} {first place : Nat}
    (h : blockStart m c (some first) = .ok place) :
    place = first ∨ Extent.itemMarker m.source first = .ok (some place) ∨
      c.isMapping = false ∧ place = c.opened ∧ m.source.StartsAt place '-' ∧
        Extent.itemMarker m.source first = .ok none := by
  unfold blockStart at h
  split at h
  · cases h
    exact .inl rfl
  · next hsequence =>
      obtain ⟨marker, hmarker, h⟩ := bind_eq_ok.mp h
      cases marker with
      | some dash =>
          cases h
          exact .inr (.inl hmarker)
      | none =>
          obtain ⟨rest, hrest, h⟩ := bind_eq_ok.mp h
          split at h
          · next hdash =>
              cases h
              obtain ⟨x, hsource, hsize⟩ := Text.dropBytes_eq_ok.mp hrest
              refine .inr (.inr ⟨by simpa using hsequence, rfl, ?_, hmarker⟩)
              cases rest with
              | nil => cases hdash
              | cons d rest => exact ⟨x, rest, by rw [hsource, ← hdash]; rfl, hsize⟩
          · cases h
            exact .inl rfl

/-- A collection stops behind all its children. -/
theorem le_of_collectionExtent {m : SourceMap} {c : OpenCollection} {style : Style}
    {children : List Node} {first last : Nat}
    (h : collectionExtent m c style children = .ok (first, last)) :
    ∀ x ∈ children, m.offset x.stop ≤ last := by
  intro x hx
  have hmax : ∀ k, m.offset x.stop ≤ (children.map fun x => m.offset x.stop).max?.getD k := fun k =>
    List.le_max?_getD_of_mem (List.mem_map_of_mem hx)
  unfold collectionExtent at h
  cases style with
  | flow =>
      obtain ⟨stop, hstop, h⟩ := bind_eq_ok.mp h
      cases h
      exact (hmax _).trans ((Nat.le_max_left _ _).trans (Extent.le_of_flowEnd hstop))
  | block =>
      obtain ⟨start, -, h⟩ := bind_eq_ok.mp h
      cases h
      exact hmax _

/-- In brackets, a collection stops behind the one that opens it. -/
theorem le_of_collectionExtent_flow {m : SourceMap} {c : OpenCollection} {children : List Node}
    {first last : Nat} (h : collectionExtent m c .flow children = .ok (first, last)) :
    first ≤ last := by
  obtain ⟨stop, hstop, h⟩ := bind_eq_ok.mp h
  cases h
  have hle := (Nat.le_max_right _ _).trans (Extent.le_of_flowEnd hstop)
  omega

end TreeBuilder

/-- A block collection stops where it starts, if it is empty; if it is the wrong way round, then
because its first child is, or because it is a stray sequence. -/
theorem Node.exists_stray {source : Text} {c : TreeBuilder.OpenCollection} {n : Node}
    {first last : Nat}
    (hextent : TreeBuilder.collectionExtent (SourceMap.ofText source) c .block n.children =
      .ok (first, last))
    (hkind : n.kind = TreeBuilder.kindOf c.isMapping .block)
    (hstart : n.start = (SourceMap.ofText source).position first)
    (hstop : n.stop = (SourceMap.ofText source).position last)
    (hchildren : ∀ x ∈ n.children, x.AtPlaces source ∧ x.Settled source)
    (hlt : (SourceMap.ofText source).offset n.stop < (SourceMap.ofText source).offset n.start) :
    ∃ s, n.StartsWith s ∧ s.IsStray source := by
  have hlast := TreeBuilder.le_of_collectionExtent hextent
  obtain ⟨start, hplace, hextent⟩ := bind_eq_ok.mp hextent
  obtain ⟨rfl, hmax⟩ := Prod.mk.inj (Except.ok.inj hextent)
  -- the offsets of both ends, without what is beyond the end of the text
  have hfirst : last < start := by
    rw [hstart, hstop, SourceMap.offset_position_min, SourceMap.offset_position_min] at hlt
    omega
  cases hheld : n.children with
  | nil =>
      rw [hheld] at hmax
      obtain rfl : start = last := hmax
      omega
  | cons child rest =>
      have hchild : child ∈ n.children := hheld ▸ List.mem_cons_self
      have hhead : n.children.head? = some child := by rw [hheld, List.head?_cons]
      have hunbracketed : n.isFlow = false := by
        rw [Node.isFlow, hkind]
        cases c.isMapping <;> rfl
      -- a first child that is the wrong way round
      have hinner : start ≤ (SourceMap.ofText source).offset child.start →
          ∃ s, n.StartsWith s ∧ s.IsStray source := by
        intro hle
        obtain ⟨s, hs, hstray⟩ := (hchildren child hchild).2.backwards
          (((hlast child hchild).trans_lt hfirst).trans_le hle)
        exact ⟨s, .first hunbracketed hhead hs, hstray⟩
      rw [hhead] at hplace
      rcases TreeBuilder.blockStart_cases hplace with
        hplace | hmarker | ⟨hsequence, -, hdash, hmarker⟩
      · exact hinner (Nat.le_of_eq hplace)
      · exact hinner (Extent.le_of_itemMarker (hchildren child hchild).1.within.start hmarker)
      · have hplaced : (SourceMap.ofText source).offset n.start = start := by
          have := hdash.next.le_size
          rw [hstart, SourceMap.offset_position_min]
          exact Nat.min_eq_left (Nat.le_of_add_right_le this)
        refine ⟨n, .here, ⟨by rw [hkind, hsequence]; rfl, hplaced.symm ▸ hdash,
          ⟨child, hhead, hmarker⟩, fun x hx => ?_⟩⟩
        refine (SourceMap.before_iff (hchildren x hx).1.measured.stop ?_).mpr ?_
        · rw [hstart, SourceMap.position_offset_position]
        · rw [hplaced]
          exact (hlast x hx).trans_lt hfirst

/-- **A collection** does not stop in front of its start, unless it starts with a stray sequence. -/
theorem Node.OfCollection.settled {source : Text} {isMapping : Bool} {opened : Span} {n : Node}
    (h : n.OfCollection (SourceMap.ofText source) isMapping opened)
    (hchildren : ∀ x ∈ n.children, x.AtPlaces source ∧ x.Settled source) : n.Settled source := by
  obtain ⟨c, style, first, last, rfl, -, -, hextent, hkind, hstart, hstop⟩ := h
  have hholds : ∀ x ∈ n.children, (SourceMap.ofText source).offset x.stop ≤
      (SourceMap.ofText source).offset n.stop := by
    intro x hx
    rw [hstop, SourceMap.offset_position_min]
    exact Nat.le_min.mpr ⟨TreeBuilder.le_of_collectionExtent hextent x hx,
      SourceMap.offset_le_size source x.stop⟩
  cases style with
  | flow =>
      exact .of_le hholds
        (offset_le_of_position hstart hstop (TreeBuilder.le_of_collectionExtent_flow hextent))
  | block =>
      refine ⟨hholds, fun hstyle => ?_,
        exists_stray hextent hkind hstart hstop hchildren⟩
      rw [hkind] at hstyle
      cases hmapping : c.isMapping <;> (rw [hmapping] at hstyle; exact absurd rfl hstyle)

/-! ## All nodes of a tree -/

namespace EventTree

variable {source : Text}

/-- A tree of events whose marks are the right way round makes settled nodes. -/
def Settles (source : Text) (tree : EventTree) : Prop :=
  ∀ ⦃labels n labels'⦄, tree.Mirrors (SourceMap.ofText source) labels n labels' →
    (∀ y ∈ tree.events, y.2.start.index ≤ y.2.stop.index) → n.All (Node.AtPlaces source) →
      n.All (Node.Settled source)

/-- The same for the children of a collection. -/
def SettlesAll (source : Text) (trees : List EventTree) : Prop :=
  ∀ ⦃labels nodes labels'⦄, MirrorsAll (SourceMap.ofText source) labels trees nodes labels' →
    (∀ y ∈ eventsOf trees, y.2.start.index ≤ y.2.stop.index) →
      (∀ x ∈ nodes, x.All (Node.AtPlaces source)) → ∀ x ∈ nodes, x.All (Node.Settled source)

mutual

/-- **The nodes of a tree of events are settled.** -/
theorem settles (source : Text) : (tree : EventTree) → tree.Settles source
  | .scalar .. => by
      intro labels n labels' h _ _
      cases h with
      | scalar made => exact .mk made.settled (by rw [made.leaf]; nofun)
  | .reference anchor span => by
      intro labels n labels' h hspans _
      have hspan := hspans (.aliasTo anchor, span) (by rw [events]; exact List.mem_singleton_self _)
      cases h with
      | reference made => exact .mk (made.settled hspan) (by rw [made.leaf]; nofun)
  | .collection isMapping anchor opened children closed => by
      intro labels n labels' h hspans hn
      cases h with
      | collection made _ held =>
          have hinner := settlesAll source children held (fun y hy => hspans y (by
            rw [events]
            exact List.mem_cons_of_mem _ (List.mem_append_left _ hy))) hn.inner
          exact .mk (made.settled fun x hx => ⟨(hn.inner x hx).here, (hinner x hx).here⟩) hinner

/-- So are those of its children, one after the other. -/
theorem settlesAll (source : Text) : (trees : List EventTree) → SettlesAll source trees
  | [] => by
      intro labels nodes labels' h _ _
      cases h
      nofun
  | tree :: rest => by
      intro labels nodes labels' h hspans hnodes
      rw [eventsOf] at hspans
      cases h with
      | cons head tail =>
          have hfirst := settles source tree head
            (fun y hy => hspans y (List.mem_append_left _ hy)) (hnodes _ List.mem_cons_self)
          have hothers := settlesAll source rest tail
            (fun y hy => hspans y (List.mem_append_right _ hy))
            fun x hx => hnodes x (List.mem_cons_of_mem _ hx)
          exact List.forall_mem_cons.mpr ⟨hfirst, hothers⟩

end

end EventTree

/-- A document is where its content is. -/
theorem Node.Settled.document {source : Text} {n : Node} (h : n.Settled source) :
    Node.Settled source ⟨.document, n.start, n.stop, none, [n]⟩ where
  holds := by
    intro c hc
    obtain rfl := List.mem_singleton.mp hc
    exact Nat.le_refl _
  forwards := nofun
  backwards hlt := by
    obtain ⟨s, hs, hstray⟩ := h.backwards hlt
    exact ⟨s, .first rfl rfl hs, hstray⟩

/-- The documents of a stream. -/
theorem EventDocument.settled_of_mirrorsAll {source : Text} {labels : Event.Labels}
    {documents : List EventDocument} {nodes : List Node}
    (h : MirrorsAll (SourceMap.ofText source) labels documents nodes)
    (hspans : ∀ d ∈ documents, ∀ y ∈ d.events, y.2.start.index ≤ y.2.stop.index)
    (hnodes : ∀ x ∈ nodes, x.All (Node.AtPlaces source)) :
    ∀ x ∈ nodes, x.All (Node.Settled source) := by
  induction h with
  | nil => nofun
  | @cons labels labels' d rest n nodes head tail ih =>
      obtain ⟨hfirst, hothers⟩ := List.forall_mem_cons.mp hnodes
      obtain ⟨hspan, hspans⟩ := List.forall_mem_cons.mp hspans
      have hcontent := d.content.settles source head
        (fun y hy => hspan y (List.mem_cons_of_mem _ (List.mem_append_left _ hy)))
        (hfirst.inner n List.mem_cons_self)
      refine List.forall_mem_cons.mpr ⟨.mk hcontent.here.document fun x hx => ?_,
        ih hspans hothers⟩
      obtain rfl := List.mem_singleton.mp hx
      exact hcontent

namespace Node

variable {source : Text} {n d : Node}

/-- A node stops behind all nodes inside. -/
theorem All.stop_le (h : n.All (Settled source)) {a : Address} (hd : n.descendant? a = some d) :
    (SourceMap.ofText source).offset d.stop ≤ (SourceMap.ofText source).offset n.stop := by
  induction a generalizing n with
  | nil =>
      cases hd
      exact Nat.le_refl _
  | cons i rest ih =>
      obtain ⟨c, hc, hd⟩ := descendant?_cons_eq_some.mp hd
      have hmem := List.mem_of_getElem? hc
      exact (ih (h.inner c hmem) hd).trans (h.here.holds c hmem)

/-- What is known of offsets, said of positions. -/
theorem wellPlaced_of_all (hplaces : n.All (AtPlaces source)) (hsettled : n.All (Settled source)) :
    n.WellPlaced source := by
  have hn := hplaces.here.measured
  refine ⟨hplaces.here, fun a d hd => ?_, fun hstyle hwrapper => ?_, fun hlt => ?_⟩
  · rw [SourceMap.before_iff hn.stop (hplaces.descendant? hd).here.measured.stop]
    exact Nat.not_lt.mpr (hsettled.stop_le hd)
  · rw [SourceMap.before_iff hn.stop hn.start]
    exact Nat.not_lt.mpr (hsettled.here.forwards hstyle hwrapper)
  · exact hsettled.here.backwards ((SourceMap.before_iff hn.stop hn.start).mp hlt)

/-- The nodes of any tree stand at places of the text. -/
theorem atPlaces_of_ofEvents {events : List (Event × Span)} {root : Node}
    (h : Node.ofEvents (SourceMap.ofText source) events = .ok root) :
    root.All (AtPlaces source) := by
  refine ((within_of_ofEvents h).and (measured_of_ofEvents h)).mono fun x hx => ?_
  exact ⟨hx.here.1, hx.here.2⟩

end Node

/-- **Where the nodes of a tree are.** Events whose marks are the right way round make a tree whose
nodes are all at places of the text and stop behind those inside; scalars, aliases and collections
in brackets are the right way round, and so are block collections that do not start with a stray
sequence. -/
theorem EventStream.wellPlaced_of_ofEvents {source : Text} {stream : EventStream} {root : Node}
    (hspans : ∀ y ∈ stream.events, y.2.start.index ≤ y.2.stop.index)
    (h : Node.ofEvents (SourceMap.ofText source) stream.events = .ok root) :
    root.All (Node.WellPlaced source) := by
  have hplaces := Node.atPlaces_of_ofEvents h
  have hmirrors := EventStream.mirrors_of_ofEvents h
  have hdocuments := EventDocument.settled_of_mirrorsAll hmirrors.documents (fun d hd y hy =>
    hspans y (List.mem_append_left _ (List.mem_cons_of_mem _ (List.mem_flatMap.mpr ⟨d, hd, hy⟩))))
    hplaces.inner
  have hroot : root.Settled source := by
    obtain ⟨p, -, hfinish⟩ := bind_eq_ok.mp h
    obtain rfl := TreeBuilder.finish_eq hfinish
    refine .of_le (fun c _ => ?_)
      (Node.offset_le_of_position (SourceMap.position_zero source).symm rfl (Nat.zero_le _))
    show _ ≤ (SourceMap.ofText source).offset ((SourceMap.ofText source).position (size source))
    rw [SourceMap.offset_position (Nat.le_refl _)]
    exact SourceMap.offset_le_size source c.stop
  have hsettled : root.All (Node.Settled source) := .mk hroot hdocuments
  refine (hplaces.and hsettled).mono fun x hx => Node.wellPlaced_of_all ?_ ?_
  · exact hx.mono fun y hy => hy.here.1
  · exact hx.mono fun y hy => hy.here.2

/-- A list that holds a list in brackets and an alias, as the event parser reads it off a text. -/
def EventStream.listed : EventStream :=
  let first : Span := ⟨⟨0, 1, 0⟩, ⟨0, 1, 0⟩⟩
  let last : Span := ⟨⟨14, 3, 0⟩, ⟨14, 3, 0⟩⟩
  let word : EventTree := .scalar ['x'] .plain 0 ⟨⟨6, 1, 6⟩, ⟨7, 1, 7⟩⟩
  let brackets : EventTree := .collection false 1 ⟨⟨5, 1, 5⟩, ⟨6, 1, 6⟩⟩ [word]
    ⟨⟨7, 1, 7⟩, ⟨8, 1, 8⟩⟩
  let reference : EventTree := .reference 1 ⟨⟨11, 2, 2⟩, ⟨13, 2, 4⟩⟩
  ⟨first, [⟨first, .collection false 0 first [brackets, reference] last, last⟩], last⟩

theorem EventStream.wellPlaced_of_listed :
    Event.ofDocument "- &a [x]\n- *a\n".toList = .ok EventStream.listed.events ∧
      ∃ root, Node.ofEvents (SourceMap.ofText "- &a [x]\n- *a\n".toList)
          EventStream.listed.events = .ok root ∧
        (∃ n, root.descendant? [0, 0, 0] = some n ∧ n.kind = .sequence .flow ∧
          n.start = ⟨0, 5⟩ ∧ n.stop = ⟨0, 8⟩) ∧
        root.All (Node.WellPlaced "- &a [x]\n- *a\n".toList) := by
  refine ⟨by decide +kernel, ?_⟩
  obtain ⟨root, hroot, hat⟩ := exists_ok_of_any
    (x := Node.ofEvents (SourceMap.ofText "- &a [x]\n- *a\n".toList) EventStream.listed.events)
    (P := fun root => (root.descendant? [0, 0, 0]).map (fun n => (n.kind, n.start, n.stop)) =
      some (.sequence .flow, ⟨0, 5⟩, ⟨0, 8⟩)) (by decide +kernel)
  obtain ⟨n, hn, hplace⟩ := Option.map_eq_some_iff.mp hat
  obtain ⟨hkind, hplace⟩ := Prod.mk.inj hplace
  obtain ⟨hstart, hstop⟩ := Prod.mk.inj hplace
  exact ⟨root, hroot, ⟨n, hn, hkind, hstart, hstop⟩,
    EventStream.wellPlaced_of_ofEvents (by decide) hroot⟩

/-- A mapping whose first key is a list in a list, with nothing in it. The marks are those of the
two dashes, but for the one of what is missing: that stands in front of the inner dash. -/
def EventStream.strayed : EventStream :=
  let start : Span := ⟨⟨0, 1, 0⟩, ⟨0, 1, 0⟩⟩
  let outer : Span := ⟨⟨2, 1, 2⟩, ⟨2, 1, 2⟩⟩
  let inner : Span := ⟨⟨4, 1, 4⟩, ⟨4, 1, 4⟩⟩
  let missing : EventTree := .scalar [] .plain 0 outer
  let items : EventTree := .collection false 0 outer [.collection false 0 inner [missing] inner]
    inner
  ⟨start, [⟨start, .collection true 0 outer [items, missing] inner, inner⟩], inner⟩

/-- **A stray sequence turns around what starts with it**: here a mapping, and the sequence that is
its first key, although a dash is found in front of the first item of that. -/
theorem EventStream.stops_in_front_of_start :
    ∃ root mapping items first,
      (∀ y ∈ EventStream.strayed.events, y.2.start.index ≤ y.2.stop.index) ∧
      Node.ofEvents (SourceMap.ofText ": - -".toList) EventStream.strayed.events = .ok root ∧
      root.descendant? [0, 0] = some mapping ∧ mapping.kind = .mapping .block ∧
      mapping.stop.Before mapping.start ∧
      root.descendant? [0, 0, 0] = some items ∧ items.kind = .sequence .block ∧
      items.stop.Before items.start ∧ items.children.head? = some first ∧
      Extent.itemMarker ": - -".toList
        ((SourceMap.ofText ": - -".toList).offset first.start) = .ok (some 2) := by
  obtain ⟨root, hroot, hmapping, hitems⟩ := exists_ok_of_any
    (x := Node.ofEvents (SourceMap.ofText ": - -".toList) EventStream.strayed.events)
    (P := fun root =>
      (root.descendant? [0, 0]).map (fun n => (n.kind, n.start, n.stop)) =
        some (.mapping .block, ⟨0, 2⟩, ⟨0, 1⟩) ∧
      (root.descendant? [0, 0, 0]).map
          (fun n => (n.kind, n.start, n.stop, n.children.head?.map Node.start)) =
        some (.sequence .block, ⟨0, 2⟩, ⟨0, 1⟩, some ⟨0, 4⟩)) (by decide +kernel)
  obtain ⟨mapping, hmapping, hplace⟩ := Option.map_eq_some_iff.mp hmapping
  obtain ⟨hmappingKind, hstart, hstop⟩ : mapping.kind = .mapping .block ∧
      mapping.start = ⟨0, 2⟩ ∧ mapping.stop = ⟨0, 1⟩ := by simpa using hplace
  obtain ⟨items, hitems, hplace⟩ := Option.map_eq_some_iff.mp hitems
  obtain ⟨hitemsKind, hstart', hstop', first, hfirst, hdash⟩ : items.kind = .sequence .block ∧
      items.start = ⟨0, 2⟩ ∧ items.stop = ⟨0, 1⟩ ∧
      ∃ first, items.children.head? = some first ∧ first.start = ⟨0, 4⟩ := by simpa using hplace
  refine ⟨root, mapping, items, first, by decide, hroot, hmapping, hmappingKind, ?_, hitems,
    hitemsKind, ?_, hfirst, ?_⟩
  · rw [hstart, hstop]
    decide
  · rw [hstart', hstop']
    decide
  · rw [hdash]
    rfl

end YamlEdit
