import YamlEdit.Proofs.EventMarks
import YamlEdit.Proofs.ExtentBounds
import YamlEdit.Proofs.Nodes

/-!
# Where the building of a tree stumbles

The nodes of a tree start and stop at boundaries of the text (`Node.Within`), and the builder looks
at the text at boundaries only. What it can still fail with is one of the two searches that stumble:
the one for the header of a block scalar, and the one for the first dash of a block sequence
(`TreeBuilder.StumblesOn`). A step fails at an offset if and only if it stumbles
(`TreeBuilder.step_fails_iff`), and so do all steps.

Main statement: `Node.ofEvents_fails_iff`.
-/

namespace YamlEdit

/-! ## Nodes within a text -/

/-- The bracket that opens a collection. -/
def openingBracket (isMapping : Bool) : Char := if isMapping then '\x7b' else '['

/-- The bracket that closes a collection. -/
def closingBracket (isMapping : Bool) : Char := if isMapping then '\x7d' else ']'

theorem utf8Size_openingBracket (isMapping : Bool) : (openingBracket isMapping).utf8Size = 1 := by
  cases isMapping <;> rfl

theorem utf8Size_closingBracket (isMapping : Bool) : (closingBracket isMapping).utf8Size = 1 := by
  cases isMapping <;> rfl

/-- A node that stands between two boundaries of a text. In flow style, it starts with a bracket;
and an empty one ends with a bracket, unless it ends behind the first one. -/
structure Node.Within (source : Text) (n : Node) : Prop where
  start : source.IsBoundary ((SourceMap.ofText source).offset n.start)
  stop : source.IsBoundary ((SourceMap.ofText source).offset n.stop)
  opened : n.isFlow = true →
    source.StartsAt ((SourceMap.ofText source).offset n.start) (openingBracket n.isMapping)
  closed : n.isFlow = true → n.children = [] →
    source.EndsAt ((SourceMap.ofText source).offset n.stop) (closingBracket n.isMapping) ∨
      (SourceMap.ofText source).offset n.stop = (SourceMap.ofText source).offset n.start + 1

/-- Whether an error shows a bad offset, which is possible only if `C` holds. -/
def TreeError.OffsetOnlyIf (C : Prop) (e : TreeError) : Prop := ∀ b, e = .badOffset b → C

namespace TreeBuilder

/-- What the searches that stumble are for: the header of a block scalar, or the dash in front of
the first item of a block sequence. -/
inductive StumblesOn (m : SourceMap) (s : State) : Event × Span → Prop where
  | header {nest : List OpenCollection} {text : Text} {style : ScalarStyle} {anchor : Nat}
      {span : Span} {start : Nat} (inside : s.stage = .inside nest)
      (block : style = .literal ∨ style = .folded)
      (content : Extent.skipProperties m.source (m.offsetOfMark span.start) = .ok start)
      (lost : Extent.HeaderLostAt m.source start) : StumblesOn m s (.scalar text style anchor, span)
  | dash {c : OpenCollection} {outer : List OpenCollection} {first : Node} {e : Event} {span : Span}
      (inside : s.stage = .inside (c :: outer)) (closes : e.closes = true)
      (sequence : c.isMapping = false) (block : collectionStyle m c = .ok .block)
      (item : c.children.getLast? = some first)
      (lost : Extent.DashLostAt m.source (m.offset first.start)) : StumblesOn m s (e, span)

/-- Events on which the builder stumbles: on the first one, or after it. -/
inductive Stumbles (m : SourceMap) : State → List (Event × Span) → Prop where
  | here {s : State} {y : Event × Span} {rest : List (Event × Span)} (h : StumblesOn m s y) :
      Stumbles m s (y :: rest)
  | later {s s' : State} {e : Event} {span : Span} {rest : List (Event × Span)}
      (step : step m e span s = .ok ((), s')) (h : Stumbles m s' rest) :
      Stumbles m s ((e, span) :: rest)

section Extents

variable {source text : Text} {C : Prop} {α : Type}

theorem yields_trimmedEnd {start stop : Nat} (hstart : source.IsBoundary start)
    (hstop : source.IsBoundary stop) (hle : start ≤ stop) :
    Extent.Lands source (trimmedEnd (SourceMap.ofText source) start stop) := by
  obtain ⟨y, hy⟩ := Text.slice_of_isBoundary hstart hstop hle
  obtain ⟨x, z, rfl, rfl, -⟩ := Text.slice_eq_ok.mp hy
  unfold trimmedEnd
  rw [show (SourceMap.ofText (x ++ y ++ z)).source = x ++ y ++ z from rfl, hy]
  show Text.IsBoundary (x ++ y ++ z) (Text.size x + Text.size (Text.trimEnd y))
  rw [List.append_assoc]
  refine Text.IsBoundary.append_left (Text.isBoundary_of_isPrefix ?_)
  exact (Extent.trimEnd_isPrefix y).trans (List.prefix_append y z)

/-- **A scalar starts and stops at boundaries**, unless the search for its header stumbles. -/
theorem yields_scalarExtent {style : ScalarStyle} {start stop : Nat}
    (hstart : source.IsBoundary start) (hstop : source.IsBoundary stop) (hle : start ≤ stop) :
    Yields
      (fun _ => (style = .literal ∨ style = .folded) ∧ Extent.HeaderLostAt source start)
      (fun r => source.IsBoundary r.1 ∧ source.IsBoundary r.2.1)
      (scalarExtent (SourceMap.ofText source) text style start stop) := by
  have hend := yields_trimmedEnd hstart hstop hle
  have hblock : ∀ style : ScalarStyle, style = .literal ∨ style = .folded → Yields
      (fun _ => (style = .literal ∨ style = .folded) ∧ Extent.HeaderLostAt source start)
      (fun r => source.IsBoundary r.1 ∧ source.IsBoundary r.2.1)
      (do
        let stop ← trimmedEnd (SourceMap.ofText source) start stop
        let header ← Extent.blockHeader source start
        return (header.getD start, stop, text)) := by
    intro style hstyle
    refine (hend.mono_error fun _ h => h.elim).bind fun stop hstop => ?_
    have hheader := (Extent.yields_blockHeader hstart).mono_error fun _ h =>
      And.intro hstyle h
    refine hheader.bind fun r hr => ⟨?_, hstop⟩
    cases r with
    | none => exact hstart
    | some n => exact hr n rfl
  cases style with
  | singleQuoted | doubleQuoted =>
      refine ((Extent.finds_quotedEnd hstart).mono_error fun _ h => h.elim).bind fun r hr => ?_
      refine ⟨hstart, ?_⟩
      cases r with
      | none => exact hstop
      | some n => exact hr n rfl
  | literal => exact hblock .literal (.inl rfl)
  | folded => exact hblock .folded (.inr rfl)
  | plain =>
      unfold scalarExtent
      dsimp only
      split
      · refine ((Extent.finds_indicatorEnd hstart).mono_error fun _ h => h.elim).bind fun r hr => ?_
        cases r with
        | none => exact ⟨hstart, hstart⟩
        | some n => exact ⟨hr n rfl, hr n rfl⟩
      · exact (hend.mono_error fun _ h => h.elim).bind fun stop hstop => ⟨hstart, hstop⟩

/-- The style of a collection is seen at its first character. -/
theorem yields_collectionStyle {c : OpenCollection} (h : source.IsBoundary c.opened) :
    Yields (fun _ => False)
      (fun style => style = .flow → source.StartsAt c.opened (openingBracket c.isMapping))
      (collectionStyle (SourceMap.ofText source) c) := by
  obtain ⟨x, y, rfl, hsize⟩ := h
  unfold collectionStyle
  rw [← hsize, show (SourceMap.ofText (x ++ y)).source = x ++ y from rfl,
    Extent.dropBytes_append]
  show (if y.headD ' ' = openingBracket c.isMapping then Style.flow else .block) = .flow → _
  intro hflow
  split at hflow
  · next hhead =>
      cases y with
      | nil => cases hc : c.isMapping <;> (rw [hc] at hhead; cases hhead)
      | cons d y => exact ⟨x, y, by rw [← hhead]; rfl, rfl⟩
  · cases hflow

/-- Where the children of a collection stop, the last one is a boundary. -/
theorem isBoundary_of_max? {l : List Nat} {k : Nat} (hl : ∀ n ∈ l, source.IsBoundary n)
    (h : l.max? = some k) : source.IsBoundary k :=
  hl k (List.max?_mem h)

/-- A block collection starts at a boundary, unless the search for its first dash stumbles. -/
theorem yields_blockStart {c : OpenCollection} {first : Option Nat}
    (hopened : source.IsBoundary c.opened) (hfirst : ∀ n, first = some n → source.IsBoundary n) :
    Yields
      (fun _ => c.isMapping = false ∧ ∃ n, first = some n ∧ Extent.DashLostAt source n)
      source.IsBoundary (blockStart (SourceMap.ofText source) c first) := by
  have hdefault : source.IsBoundary (first.getD c.opened) := by
    cases first with
    | none => exact hopened
    | some n => exact hfirst n rfl
  obtain ⟨rest, hrest⟩ := Text.isBoundary_iff_dropBytes.mp hopened
  -- no dash is found
  have hnone : Extent.Lands source (do
      let rest ← source.dropBytes c.opened
      if rest.headD ' ' = '-' then return c.opened
      return first.getD c.opened) := by
    rw [hrest]
    show Extent.Lands source (if rest.headD ' ' = '-' then _ else _)
    split
    · exact hopened
    · exact hdefault
  unfold blockStart
  split
  · exact hdefault
  · next hsequence =>
      cases first with
      | none => exact hnone.mono_error fun _ h => h.elim
      | some place =>
          refine ((Extent.yields_itemMarker (hfirst place rfl)).mono_error fun _ h =>
            ⟨by simpa using hsequence, place, rfl, h⟩).bind fun r hr => ?_
          cases r with
          | none => exact hnone.mono_error fun _ h => h.elim
          | some n => exact hr n rfl

/-- The first one of the children that an open collection holds, in the order of the text. -/
theorem head?_reverse_children {c : OpenCollection} {f : Node → Nat} {n : Nat}
    (h : c.children.reverse.head?.map f = some n) :
    ∃ first, c.children.getLast? = some first ∧ f first = n := by
  rw [List.head?_reverse] at h
  exact Option.map_eq_some_iff.mp h

/-- **A collection starts and stops at boundaries**, unless the search for its first dash
stumbles. -/
theorem yields_collectionExtent {c : OpenCollection} {style : Style}
    (hopened : source.IsBoundary c.opened) (hchildren : ∀ x ∈ c.children, x.Within source)
    (hstyle : collectionStyle (SourceMap.ofText source) c = .ok style) :
    Yields
      (fun _ => c.isMapping = false ∧ style = .block ∧ ∃ first, c.children.getLast? = some first ∧
        Extent.DashLostAt source ((SourceMap.ofText source).offset first.start))
      (fun r => source.IsBoundary r.1 ∧ source.IsBoundary r.2 ∧ (style = .flow →
        source.StartsAt r.1 (openingBracket c.isMapping) ∧ (c.children = [] →
          source.EndsAt r.2 (closingBracket c.isMapping) ∨ r.2 = r.1 + 1)))
      (collectionExtent (SourceMap.ofText source) c style c.children.reverse) := by
  have hstops : ∀ n ∈ c.children.reverse.map fun x => (SourceMap.ofText source).offset x.stop,
      source.IsBoundary n := by
    intro n hn
    obtain ⟨x, hx, rfl⟩ := List.mem_map.mp hn
    exact (hchildren x (List.mem_reverse.mp hx)).stop
  have hlast : ∀ {k : Nat}, source.IsBoundary k → source.IsBoundary
      ((c.children.reverse.map fun x => (SourceMap.ofText source).offset x.stop).max?.getD k) := by
    intro k hk
    cases hmax : (c.children.reverse.map fun x => (SourceMap.ofText source).offset x.stop).max? with
    | none => exact hk
    | some n => exact isBoundary_of_max? hstops hmax
  unfold collectionExtent
  cases style with
  | flow =>
      have hbracket : source.StartsAt c.opened (openingBracket c.isMapping) :=
        (yields_iff.mp (yields_collectionStyle hopened)).1 _ hstyle rfl
      have hnext := hbracket.next
      rw [utf8Size_openingBracket] at hnext
      have hend := Extent.yields_flowEnd ((hlast hnext).max hnext) (closingBracket c.isMapping)
      refine (hend.mono_error fun _ h => h.elim).bind fun stop hstop => ?_
      obtain ⟨hstop, hcloser⟩ := hstop
      refine ⟨hopened, hstop, fun _ => ⟨hbracket, fun hempty => ?_⟩⟩
      rcases hcloser with hcloser | hplace
      · exact .inl hcloser
      · refine .inr ?_
        rw [hplace, hempty]
        simp
  | block =>
      have hfirst : ∀ n, (c.children.reverse.head?.map
          fun x => (SourceMap.ofText source).offset x.start) = some n → source.IsBoundary n := by
        intro n hn
        obtain ⟨first, hitem, rfl⟩ := head?_reverse_children hn
        exact (hchildren first (List.mem_of_getLast? hitem)).start
      refine ((yields_blockStart hopened hfirst).mono_error ?_).bind fun start hstart =>
        ⟨hstart, hlast hstart, nofun⟩
      rintro _ ⟨hsequence, n, hn, hlost⟩
      obtain ⟨first, hitem, rfl⟩ := head?_reverse_children hn
      exact ⟨hsequence, rfl, first, hitem, hlost⟩

end Extents

/-! ## Steps -/

section Steps

variable {source : Text} {C : Prop} {α β : Type} {s s' : State} {nest : List OpenCollection}

theorem isBoundary_offsetOfMark (source : Text) (mark : Mark) :
    source.IsBoundary ((SourceMap.ofText source).offsetOfMark mark) :=
  (SourceMap.ofText source).isBoundary_offsetOfMark mark

theorem offsets_ok_bind {a : α} {f : α → Build β} : (offsets (.ok a) >>= f) s = f a s := rfl

theorem offsets_error_bind {b : BadOffset} {f : α → Build β} :
    (offsets (.error b) >>= f) s = .error (.badOffset b) := rfl

/-- What is known of an offset in front of the rest of a step. -/
theorem yields_offsets_bind {P : α → Prop} {R : β × State → Prop} {x : Except BadOffset α}
    {f : α → Build β} (hx : Yields (fun _ => C) P x)
    (hf : ∀ a, P a → Yields (TreeError.OffsetOnlyIf C) R (f a s)) :
    Yields (TreeError.OffsetOnlyIf C) R ((offsets x >>= f) s) := by
  cases x with
  | ok a => exact hf a hx
  | error e => exact fun _ _ => hx

/-- A node that is made is put where it belongs. -/
theorem yields_place {x : Build Node}
    (hx : Yields (TreeError.OffsetOnlyIf C) (fun _ => True) (x s)) :
    Yields (TreeError.OffsetOnlyIf C) (fun _ => True) ((x >>= place nest) s) := by
  refine hx.bind fun p _ => ?_
  show Yields _ _ (place nest p.1 p.2)
  rw [place_apply]
  trivial

/-- Names are looked for at boundaries. -/
theorem yields_label {anchor start : Nat} (h : source.IsBoundary start) :
    Yields (TreeError.OffsetOnlyIf C) (fun _ => True)
      (label (SourceMap.ofText source) anchor start s) := by
  unfold label
  split
  · trivial
  · have hname : Yields (fun _ => C) (fun _ => True)
        (anchorName (SourceMap.ofText source) anchor start) := by
      unfold anchorName
      rw [map_eq_pure_bind]
      exact ((Extent.yields_anchorLabel h).mono_error fun _ h => h.elim).bind fun _ _ => trivial
    exact yields_offsets_bind hname fun _ _ => trivial

theorem yields_scalar (text : Text) (style : ScalarStyle) (anchor : Nat) (span : Span)
    (hstage : s.stage = .inside nest) :
    Yields (TreeError.OffsetOnlyIf
        (StumblesOn (SourceMap.ofText source) s (.scalar text style anchor, span))) (fun _ => True)
      (scalar (SourceMap.ofText source) text style anchor span s) := by
  have hmarked := isBoundary_offsetOfMark source span.start
  have hstop := isBoundary_offsetOfMark source span.stop
  unfold scalar
  refine yields_offsets_bind ((Extent.lands_skipProperties hmarked).and_eq.mono_error
    fun _ h => h.elim) fun start hstart => ?_
  obtain ⟨hcontent, hstart⟩ := hstart
  refine yields_offsets_bind ((yields_scalarExtent hstart (hstop.max hstart)
    (Nat.le_max_right _ _)).mono_error fun _ h => .header hstage h.1 hcontent h.2) fun r hr => ?_
  obtain ⟨hfirst, -⟩ := hr
  exact (yields_label (hmarked.min hfirst)).bind fun _ _ => trivial

/-- The name of an alias is written at its mark. -/
theorem yields_aliasNode {anchor : Nat} {span : Span} {rest : Text}
    (hmark : source.drop span.start.index = '*' :: rest) :
    Yields (TreeError.OffsetOnlyIf C) (fun _ => True)
      (aliasNode (SourceMap.ofText source) anchor span s) := by
  have hstart := isBoundary_offsetOfMark source span.start
  have hend := Extent.finds_aliasEnd hstart
  have hwritten : Extent.aliasEnd source ((SourceMap.ofText source).offsetOfMark span.start) =
      .ok (some ((SourceMap.ofText source).offsetOfMark span.start + 1 +
        Text.size (rest.takeWhile Extent.isNameChar))) := by
    have hdrop : source.dropBytes ((SourceMap.ofText source).offsetOfMark span.start) =
        .ok ('*' :: rest) := by
      rw [← hmark]
      exact (SourceMap.ofText source).dropBytes_offsetOfMark span.start
    unfold Extent.aliasEnd
    rw [hdrop]
    rfl
  rw [hwritten] at hend
  show Yields _ _ ((offsets (Extent.aliasEnd source
    ((SourceMap.ofText source).offsetOfMark span.start)) >>= _) s)
  rw [hwritten]
  rw [offsets_ok_bind, get_bind]
  refine yields_offsets_bind (P := fun _ => True) ?_ fun _ _ => trivial
  unfold aliasName
  split
  · trivial
  · obtain ⟨y, hy⟩ := Text.slice_of_isBoundary hstart (hend _ rfl) (by omega)
    show Yields _ _ (_ <$> source.slice _ _)
    rw [Option.getD_some, hy]
    trivial

theorem yields_openCollection (isMapping : Bool) (anchor : Nat) (span : Span) :
    Yields (TreeError.OffsetOnlyIf C) (fun _ => True)
      (openCollection (SourceMap.ofText source) isMapping anchor span s) := by
  have hmarked := isBoundary_offsetOfMark source span.start
  exact yields_offsets_bind ((Extent.lands_skipProperties hmarked).mono_error fun _ h => h.elim)
    fun _ _ => (yields_label hmarked).bind fun _ _ => trivial

/-- What the nodes and the open collections of a state have. -/
abbrev State.Within (source : Text) (s : State) : Prop :=
  s.Holds (Node.Within source) fun c => source.IsBoundary c.opened

/-- An event that closes a collection closes the innermost one. -/
theorem insideEvent_of_closes {m : SourceMap} {e : Event} (h : e.closes = true)
    (c : OpenCollection) (outer : List OpenCollection) (span : Span) :
    insideEvent m (c :: outer) e span = (close m c >>= place outer) := by
  cases e with
  | sequenceEnd => rfl
  | mappingEnd => rfl
  | _ => cases h

theorem yields_close {c : OpenCollection} {outer : List OpenCollection} {e : Event} {span : Span}
    (hs : s.Within source) (hstage : s.stage = .inside (c :: outer)) (hcloses : e.closes = true) :
    Yields (TreeError.OffsetOnlyIf (StumblesOn (SourceMap.ofText source) s (e, span)))
      (fun _ => True) (close (SourceMap.ofText source) c s) := by
  obtain ⟨hopened, hchildren⟩ := hs.nest hstage c List.mem_cons_self
  unfold close
  dsimp only
  split
  · exact nofun
  · refine yields_offsets_bind ((yields_collectionStyle hopened).and_eq.mono_error
      fun _ h => h.elim) fun style hstyle => ?_
    obtain ⟨hstyle, -⟩ := hstyle
    refine yields_offsets_bind ((yields_collectionExtent hopened
      (fun x hx => (hchildren x hx).here) hstyle).mono_error ?_) fun _ _ => trivial
    rintro _ ⟨hsequence, rfl, first, hitem, hlost⟩
    exact .dash hstage hcloses hsequence hstyle hitem hlost

/-- What a step may find at the mark of an alias. -/
def AliasMarked (source : Text) (y : Event × Span) : Prop :=
  ∀ n, y.1 = .aliasTo n → ∃ rest, source.drop y.2.start.index = '*' :: rest

theorem yields_insideEvent {e : Event} {span : Span} (hs : s.Within source)
    (hmark : AliasMarked source (e, span)) (hstage : s.stage = .inside nest) :
    Yields (TreeError.OffsetOnlyIf (StumblesOn (SourceMap.ofText source) s (e, span)))
      (fun _ => True) (insideEvent (SourceMap.ofText source) nest e span s) := by
  have hopener : ∀ isMapping anchor, Yields (TreeError.OffsetOnlyIf
      (StumblesOn (SourceMap.ofText source) s (e, span))) (fun _ => True)
      (insideEvent (SourceMap.ofText source) nest (openerOf isMapping anchor) span s) := by
    intro isMapping anchor
    rw [insideEvent_opener]
    exact (yields_openCollection isMapping anchor span).bind fun _ _ => trivial
  have hcloser : ∀ c outer, nest = c :: outer → e.closes = true → Yields (TreeError.OffsetOnlyIf
      (StumblesOn (SourceMap.ofText source) s (e, span))) (fun _ => True)
      (insideEvent (SourceMap.ofText source) nest e span s) := by
    rintro c outer rfl hcloses
    rw [insideEvent_of_closes hcloses]
    exact yields_place (yields_close hs hstage hcloses)
  cases e with
  | scalar text style anchor => exact yields_place (yields_scalar text style anchor span hstage)
  | aliasTo anchor =>
      obtain ⟨rest, hrest⟩ := hmark anchor rfl
      exact yields_place (yields_aliasNode hrest)
  | sequenceStart anchor => exact hopener false anchor
  | mappingStart anchor => exact hopener true anchor
  | sequenceEnd | mappingEnd =>
      cases nest with
      | nil => exact nofun
      | cons c outer => exact hcloser c outer rfl rfl
  | _ => exact nofun

theorem yields_betweenEvent (e : Event) :
    Yields (TreeError.OffsetOnlyIf C) (fun _ => True) (betweenEvent e s) := by
  cases e with
  | documentStart => trivial
  | streamEnd => trivial
  | _ => exact nofun

/-- A step fails at an offset only if it stumbles. -/
theorem yields_step {e : Event} {span : Span} (hs : s.Within source)
    (hmark : AliasMarked source (e, span)) :
    Yields (TreeError.OffsetOnlyIf (StumblesOn (SourceMap.ofText source) s (e, span)))
      (fun _ => True) (step (SourceMap.ofText source) e span s) := by
  cases hstage : s.stage with
  | beforeStream =>
      unfold step
      rw [get_bind, hstage]
      dsimp only
      split
      · trivial
      · exact nofun
  | betweenDocuments =>
      rw [step_between hstage]
      exact yields_betweenEvent e
  | inside nest =>
      rw [step_inside hstage]
      exact yields_insideEvent hs hmark hstage
  | afterContent =>
      unfold step
      rw [get_bind, hstage]
      dsimp only
      split
      · trivial
      · exact yields_betweenEvent e
  | ended =>
      unfold step
      rw [get_bind, hstage]
      trivial

/-- A step that stumbles fails. -/
theorem step_of_stumblesOn {m : SourceMap} {e : Event} {span : Span}
    (h : StumblesOn m s (e, span)) : ∃ b, step m e span s = .error (.badOffset b) := by
  cases h with
  | @header nest text style anchor _ start hstage hblock hcontent hlost =>
      obtain ⟨b, hb⟩ := Extent.blockHeader_of_headerLostAt hlost
      have hextent : ∀ stop, ∃ b, scalarExtent m text style start stop = .error b := by
        intro stop
        unfold scalarExtent
        rcases hblock with rfl | rfl
        all_goals
          dsimp only
          cases trimmedEnd m start stop with
          | error b => exact ⟨b, rfl⟩
          | ok stop => exact ⟨b, by rw [ok_bind, hb]; rfl⟩
      obtain ⟨b, hb⟩ := hextent (max (m.offsetOfMark span.stop) start)
      refine ⟨b, ?_⟩
      rw [step_inside hstage]
      show (scalar m text style anchor span s >>= fun p => place nest p.1 p.2) = _
      unfold scalar
      dsimp only
      rw [hcontent, offsets_ok_bind, hb, offsets_error_bind]
      rfl
  | @dash c outer first _ _ hstage hcloses hsequence hblock hitem hlost =>
      obtain ⟨b, hb⟩ := Extent.itemMarker_of_dashLostAt hlost
      have hextent : collectionExtent m c .block c.children.reverse = .error b := by
        unfold collectionExtent blockStart
        dsimp only
        rw [List.head?_reverse, hitem, hsequence, Option.map_some]
        dsimp only
        rw [hb]
        rfl
      refine ⟨b, ?_⟩
      rw [step_inside hstage, insideEvent_of_closes hcloses]
      show (close m c s >>= fun p => place outer p.1 p.2) = _
      unfold close
      dsimp only
      rw [if_neg (by rw [hsequence]; nofun), hblock, offsets_ok_bind, hextent, offsets_error_bind]
      rfl

/-- **A step fails at an offset if and only if it stumbles.** -/
theorem step_fails_iff {e : Event} {span : Span} (hs : s.Within source)
    (hmark : AliasMarked source (e, span)) :
    (∃ b, step (SourceMap.ofText source) e span s = .error (.badOffset b)) ↔
      StumblesOn (SourceMap.ofText source) s (e, span) := by
  constructor
  · rintro ⟨b, hb⟩
    exact (yields_iff.mp (yields_step hs hmark)).2 _ hb b rfl
  · exact step_of_stumblesOn

theorem offset_position {source : Text} {place : Nat} (h : source.IsBoundary place) :
    (SourceMap.ofText source).offset ((SourceMap.ofText source).position place) = place :=
  SourceMap.offset_position h.le_size

/-- A node between boundaries that is not in brackets. -/
theorem within_of_isBoundary {kind : Kind} {first last : Nat} {anchor : Option Text}
    {children : List Node} (hkind : kind.isFlow = false) (hfirst : source.IsBoundary first)
    (hlast : source.IsBoundary last) :
    Node.Within source ⟨kind, (SourceMap.ofText source).position first,
      (SourceMap.ofText source).position last, anchor, children⟩ where
  start := by
    dsimp only
    rwa [offset_position hfirst]
  stop := by
    dsimp only
    rwa [offset_position hlast]
  opened hflow := by
    cases hkind.symm.trans hflow
  closed hflow := by
    cases hkind.symm.trans hflow

/-- **The builder makes nodes within the text.** -/
theorem gives_within (source : Text) : Gives (SourceMap.ofText source) (Node.Within source)
    fun c => source.IsBoundary c.opened where
  scalar := by
    intro text style anchor span s n s' h
    obtain ⟨start, first, last, taken, name, hstart, hextent, -, rfl⟩ := scalar_eq h
    have hmarked := isBoundary_offsetOfMark source span.start
    have hcontent := (yields_iff.mp (Extent.lands_skipProperties hmarked)).1 start hstart
    have hstop := (isBoundary_offsetOfMark source span.stop).max hcontent
    obtain ⟨hfirst, hlast⟩ := (yields_iff.mp (yields_scalarExtent hcontent hstop
      (Nat.le_max_right _ _))).1 _ hextent
    exact within_of_isBoundary rfl hfirst hlast
  aliasNode := by
    intro anchor span s n s' h
    obtain ⟨stop, name, hstop, -, rfl⟩ := aliasNode_eq h
    have hmarked := isBoundary_offsetOfMark source span.start
    have hfound := (yields_iff.mp (Extent.finds_aliasEnd hmarked)).1 stop hstop
    refine within_of_isBoundary rfl hmarked ?_
    cases stop with
    | none => exact isBoundary_offsetOfMark source span.stop
    | some n => exact hfound n rfl
  opened := by
    intro isMapping anchor span s c s' h
    obtain ⟨-, -, hopened, -⟩ := openCollection_eq h
    exact (yields_iff.mp (Extent.lands_skipProperties
      (isBoundary_offsetOfMark source span.start))).1 _ hopened
  child := id
  closed := by
    intro c s n s' h hopened hchildren
    obtain ⟨style, start, stop, hstyle, hextent, rfl, -, -⟩ := close_eq h
    obtain ⟨hstart, hstop, hflow⟩ := (yields_iff.mp (yields_collectionExtent hopened
      (fun x hx => (hchildren x hx).here) hstyle)).1 _ hextent
    have hmapping : (kindOf c.isMapping style).isMapping = c.isMapping := by
      cases c.isMapping <;> rfl
    have hstyled : (kindOf c.isMapping style).isFlow = true → style = .flow := by
      cases c.isMapping <;> cases style <;> first | exact fun _ => rfl | exact nofun
    refine ⟨?_, ?_, fun hisFlow => ?_, fun hisFlow hempty => ?_⟩
    · dsimp only
      rwa [offset_position hstart]
    · dsimp only
      rwa [offset_position hstop]
    · dsimp only [Node.isMapping]
      rw [offset_position hstart, hmapping]
      exact (hflow (hstyled hisFlow)).1
    · dsimp only [Node.isMapping]
      rw [offset_position hstart, offset_position hstop, hmapping]
      exact (hflow (hstyled hisFlow)).2 (List.reverse_eq_nil_iff.mp hempty)
  document := by
    intro n hn
    exact ⟨hn.start, hn.stop, nofun, nofun⟩

/-- The same for all events, one after the other. -/
theorem steps_fails_iff {events : List (Event × Span)} (hs : s.Within source)
    (hmarks : ∀ y ∈ events, AliasMarked source y) :
    (∃ b, steps (SourceMap.ofText source) events s = .error (.badOffset b)) ↔
      Stumbles (SourceMap.ofText source) s events := by
  induction events generalizing s with
  | nil =>
      constructor
      · rintro ⟨b, hb⟩
        cases hb
      · rintro ⟨⟩
  | cons y rest ih =>
      obtain ⟨e, span⟩ := y
      have hmark := hmarks _ List.mem_cons_self
      have hrest := fun y hy => hmarks y (List.mem_cons_of_mem _ hy)
      have hstep := step_fails_iff hs hmark
      have heq : steps (SourceMap.ofText source) ((e, span) :: rest) s =
          (step (SourceMap.ofText source) e span s >>= fun p =>
            steps (SourceMap.ofText source) rest p.2) := rfl
      rw [heq]
      constructor
      · rintro ⟨b, hb⟩
        rcases bind_eq_error.mp hb with hfirst | ⟨⟨⟨⟩, s'⟩, hfirst, hlater⟩
        · exact .here (hstep.mp ⟨b, hfirst⟩)
        · have hs' := holds_of_step (gives_within source) hs hfirst
          exact .later hfirst ((ih hs' hrest).mp ⟨b, hlater⟩)
      · intro h
        cases h with
        | here h =>
            obtain ⟨b, hb⟩ := hstep.mpr h
            exact ⟨b, bind_eq_error.mpr (.inl hb)⟩
        | later hfirst h =>
            have hs' := holds_of_step (gives_within source) hs hfirst
            obtain ⟨b, hb⟩ := (ih hs' hrest).mpr h
            exact ⟨b, bind_eq_error.mpr (.inr ⟨_, hfirst, hb⟩)⟩

end Steps

end TreeBuilder

section Trees

variable {source : Text} {events : List (Event × Span)}

/-- The marks of aliases, in the events of a text. -/
theorem Event.aliasMarked_of_ofDocument (h : Event.ofDocument source = .ok events) :
    ∀ y ∈ events, TreeBuilder.AliasMarked source y := by
  intro y hy n hn
  obtain ⟨name, rest, -, hrest, -⟩ := (Event.marked_of_ofDocument h).references y hy n hn
  exact ⟨rest, hrest⟩

/-- **The tree of a text fails at an offset if and only if the builder stumbles.** -/
theorem Node.ofEvents_fails_iff (h : Event.ofDocument source = .ok events) :
    (∃ b, Node.ofEvents (SourceMap.ofText source) events = .error (.badOffset b)) ↔
      TreeBuilder.Stumbles (SourceMap.ofText source) TreeBuilder.start events := by
  have hstart : TreeBuilder.start.Within source :=
    TreeBuilder.holds_of_documents (fun _ hd => nomatch hd) (fun _ hnest => nomatch hnest)
  rw [← TreeBuilder.steps_fails_iff hstart (Event.aliasMarked_of_ofDocument h)]
  have heq : Node.ofEvents (SourceMap.ofText source) events =
      (TreeBuilder.steps (SourceMap.ofText source) events TreeBuilder.start >>= fun p =>
        TreeBuilder.finish (SourceMap.ofText source) p.2) := rfl
  rw [heq]
  constructor
  · rintro ⟨b, hb⟩
    rcases bind_eq_error.mp hb with hsteps | ⟨p, -, hfinish⟩
    · exact ⟨b, hsteps⟩
    · -- all that is wrong at the end is the shape of the events
      unfold TreeBuilder.finish at hfinish
      split at hfinish <;> cases hfinish
  · rintro ⟨b, hb⟩
    exact ⟨b, bind_eq_error.mpr (.inl hb)⟩

/-- All nodes of the tree of a text are within the text. -/
theorem Node.within_of_ofEvents {root : Node}
    (h : Node.ofEvents (SourceMap.ofText source) events = .ok root) :
    root.All (Node.Within source) := by
  refine Node.all_of_ofEvents (TreeBuilder.gives_within source) (fun documents => ?_) h
  refine ⟨?_, ?_, nofun, nofun⟩
  · have hzero : (SourceMap.ofText source).offset ⟨0, 0⟩ = 0 := Nat.zero_min _
    dsimp only
    rw [hzero]
    exact source.isBoundary_zero
  · dsimp only
    rw [show (SourceMap.ofText source).source = source from rfl,
      TreeBuilder.offset_position source.isBoundary_size]
    exact source.isBoundary_size

end Trees

end YamlEdit
