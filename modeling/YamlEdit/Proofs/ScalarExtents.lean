import YamlEdit.Edit.Snapshot
import YamlEdit.Proofs.BlockScalars
import YamlEdit.Proofs.PlainDocuments
import YamlEdit.Proofs.Splicing
import YamlEdit.Proofs.WrittenScalars

/-!
# Where scalars are written

A scalar that is not missing is made of a token, whose characters are those of no other one. The
slice of its node is taken out of them. A quoted scalar reaches from its opening to its closing
quote. A plain one reaches to the end of its last word, less the white space that no line of YAML
ends with; what is left, if it is all of it and stands alone, is a document of the same text. The
header of a block scalar is looked for backwards from its content. It is found if neither its line
nor the content misleads the search (`Lexeme.HeaderShows`), and only then if a line feed ends that
line.

Main statement: `Snapshot.scalars_written`.
-/

namespace YamlEdit

open Text Token

/-- The slice of a node consists of the characters of the text from number `first` on, up to number
`stop`. -/
structure Snapshot.Spans (s : Snapshot) (n : Node) (first stop : Nat) : Prop where
  starts : s.startOf n = size (s.source.take first)
  stops : s.stopOf n = size (s.source.take stop)
  slice : s.textOf n = .ok (s.source.between first stop)

namespace Lexeme

/-- What leads the search for the header of a block scalar to the right place: on the line of the
header there is no comment in front of it, a blank separates it from what is, and the content is
neither blank nor starts like a header or a property. -/
structure HeaderShows (source : Text) (l : Lexeme) (content : Text) : Prop where
  comment : ∀ c, [c, '#'] <:+: lastLine (source.take l.first) → isBlank c = false
  blank : ∀ c ∈ (source.take l.first).getLast?, isBlank c = true
  header : Extent.isHeaderMark (content.headD ' ') = false
  property : Extent.isPropertyMark (content.headD ' ') = false
  ink : ∃ c ∈ content, isBlank c = false

/-- A block scalar: its header, white space up to its content, and the content, in front of `rest`.
It is marked at its content, or at its header if the document ends without any. -/
structure HoldsBlock (source : Text) (l : Lexeme) (header : BlockHeader) (gap content rest : Text) :
    Prop where
  written : source.drop l.first = header.text ++ gap ++ content ++ rest
  blank : ∀ c ∈ gap, isSpaceOrBreak c = true
  start : l.token.span.start.index = l.first ∧ content = [] ∨
    l.token.span.start.index = l.first + (header.text ++ gap).length
  stop : l.token.span.stop.index = l.first + (header.text ++ gap ++ content).length
  le : l.first + (header.text ++ gap ++ content).length ≤ l.stop

end Lexeme

namespace Snapshot

variable (s : Snapshot) (l : Lexeme) (n : Node)

/-- The slice is a quoted scalar, from its opening quote to its closing one. -/
def WritesQuoted (single : Bool) : Prop :=
  ∃ u, InQuotes single u ∧
    s.source.between l.first (l.first + u.length + 2) =
      quoteMark single :: (u ++ [quoteMark single]) ∧
    (single = true → s.source[l.first + u.length + 2]? ≠ some '\'') ∧
    l.first + u.length + 2 ≤ l.stop ∧ s.Spans n l.first (l.first + u.length + 2)

/-- The slice is what a plain scalar is read from, but for blanks at its end. -/
def WritesPlain (text : Text) : Prop :=
  ∃ u, Presents u text ∧ s.source.between l.first (l.first + u.length) = u ∧
    l.first + u.length ≤ l.stop ∧ s.Spans n l.first (l.first + (trimEnd u).length) ∧
    (StandsAlone u → Node.Decodes u text)

/-- The slice is the block scalar `t`, without the blanks at its end. -/
def SpansBlock (t : Text) : Prop := s.Spans n l.first (l.first + (trimEnd t).length)

/-- The slice is a block scalar, from its header to the last character of its content that is not
blank, if the header shows, and only then if its line ends with a line feed. -/
def WritesBlock : Prop :=
  ∃ (header : BlockHeader) (gap content rest : Text),
    l.HoldsBlock s.source header gap content rest ∧
    (l.token.span.start.index = l.first ∨ l.HeaderShows s.source content →
      s.SpansBlock l n (header.text ++ gap ++ content)) ∧
    ('\n' ∈ gap → s.SpansBlock l n (header.text ++ gap ++ content) →
      l.token.span.start.index = l.first ∨ l.HeaderShows s.source content)

/-- The slice is a scalar in the given style. -/
def Writes (text : Text) : ScalarStyle → Prop
  | .singleQuoted => s.WritesQuoted l n true
  | .doubleQuoted => s.WritesQuoted l n false
  | .plain => s.WritesPlain l n text
  | .literal | .folded => s.WritesBlock l n

/-- What a scalar has to do with the characters of the token that writes it: it has the text of the
token, and its slice is among those characters. -/
def IsWrittenAs : Prop :=
  ∃ style text, l.token.item = .scalar style text ∧ n.kind = .scalar text ∧ s.Writes l n text style

/-- A scalar node that is made of an event, and written by the token with the given number, if that
is not missing. -/
structure Made (ls : List Lexeme) (z : (Event × Span) × Option Nat) (n : Node) : Prop where
  made : n.OfEvent s.map z.1
  written : ∀ k, z.2 = some k → ∃ l, ls[k]? = some l ∧ s.IsWrittenAs l n
  unwritten : z.2 = none → z.1.1.IsUnwritten

end Snapshot

/-- The events of scalars, each with the number of the token that writes it, if there is one. -/
def Event.scalarsBy (doc : Text) (events : List (Event × Span)) :
    List ((Event × Span) × Option Nat) :=
  (events.zip (Event.writers (Token.scan doc))).filter (·.1.1.isScalar)

section Spans

variable {source : Text} {s : Snapshot} {n : Node} {first stop : Nat}

/-- What is in front of a place, and what comes up to a later one. -/
theorem Text.take_append_between (t : Text) (hle : first ≤ stop) :
    t.take first ++ t.between first stop = t.take stop := by
  rw [between, ← List.take_add, Nat.add_sub_cancel' hle]

theorem Text.size_take_le (t : Text) (k : Nat) : size (t.take k) ≤ size t := by
  have := congrArg size (List.take_append_drop k t)
  rw [size_append] at this
  omega

/-- A node that is placed between two characters. -/
theorem Snapshot.spans_of_positions (hs : s.map = SourceMap.ofText source) (hle : first ≤ stop)
    (hstart : n.start = s.map.position (size (source.take first)))
    (hstop : n.stop = s.map.position (size (source.take stop))) : s.Spans n first stop := by
  have hsource : s.source = source := by rw [Snapshot.source, hs]; rfl
  have hfirst : s.startOf n = size (source.take first) := by
    rw [Snapshot.startOf, Snapshot.offset, hstart, hs,
      SourceMap.offset_position (Text.size_take_le source first)]
  have hlast : s.stopOf n = size (source.take stop) := by
    rw [Snapshot.stopOf, Snapshot.offset, hstop, hs,
      SourceMap.offset_position (Text.size_take_le source stop)]
  refine ⟨hsource ▸ hfirst, hsource ▸ hlast, lift_offset_eq_ok.mpr ?_⟩
  rw [hfirst, hlast, hsource]
  refine slice_eq_ok.mpr ⟨source.take first, source.drop stop, ?_, rfl, ?_⟩
  · rw [Text.take_append_between source hle, List.take_append_drop]
  · rw [← Text.take_append_between source hle, size_append]

/-- Where a slice starts. -/
theorem Snapshot.Spans.start_eq {place : Nat} (h : s.Spans n first stop)
    (hs : s.map = SourceMap.ofText source) (hplace : place ≤ size source)
    (hn : n.start = (SourceMap.ofText source).position place) :
    place = size (source.take first) := by
  have hsource : s.source = source := by rw [Snapshot.source, hs]; rfl
  have hstart := h.starts
  rwa [Snapshot.startOf, Snapshot.offset, hn, hs, SourceMap.offset_position hplace,
    hsource] at hstart

/-- Where a slice ends. -/
theorem Snapshot.Spans.stop_eq {place : Nat} (h : s.Spans n first stop)
    (hs : s.map = SourceMap.ofText source) (hplace : place ≤ size source)
    (hn : n.stop = (SourceMap.ofText source).position place) :
    place = size (source.take stop) := by
  have hsource : s.source = source := by rw [Snapshot.source, hs]; rfl
  have hstop := h.stops
  rwa [Snapshot.stopOf, Snapshot.offset, hn, hs, SourceMap.offset_position hplace,
    hsource] at hstop

end Spans

section Styles

variable {source : Text} {s : Snapshot} {n : Node} {l : Lexeme} {text : Text}

/-- What stands in front of a place, and what follows there. -/
theorem Text.take_append_of_drop {v w : Text} {i : Nat} (h : source.drop i = v ++ w) :
    source.take i ++ v = source.take (i + v.length) := by
  rw [← Text.between_of_drop h, Text.take_append_between source (Nat.le_add_right _ _),
    Text.between_of_drop h]

theorem Extent.le_of_skipProperties {place start : Nat}
    (h : Extent.skipProperties source place = .ok start) : place ≤ start := by
  obtain ⟨rest, -, h⟩ := bind_eq_ok.mp h
  cases h
  exact Nat.le_add_right _ _

/-- The extent of a scalar whose content is marked where no property starts. -/
theorem Node.OfScalar.extent {style : ScalarStyle} {span : Span}
    (hn : n.OfScalar (SourceMap.ofText source) text style span)
    (hmark : Extent.isPropertyMark ((source.drop span.start.index).headD ' ') = false) :
    ∃ first last taken, TreeBuilder.scalarExtent (SourceMap.ofText source) text style
        (size (source.take span.start.index))
        (max (size (source.take span.stop.index)) (size (source.take span.start.index))) =
          .ok (first, last, taken) ∧
      n.kind = .scalar taken ∧ n.start = (SourceMap.ofText source).position first ∧
      n.stop = (SourceMap.ofText source).position last := by
  obtain ⟨start, first, last, taken, hskip, hextent, hplace⟩ := hn.made
  rw [Node.offsetOfMark_eq] at hskip hextent
  have hstart := Extent.skipProperties_append (x := source.take span.start.index) hmark
  rw [List.take_append_drop] at hstart
  cases hskip.symm.trans hstart
  exact ⟨first, last, taken, hextent, hplace⟩

/-- **A quoted scalar** reaches from quote to quote. -/
theorem Lexeme.Scanned.writesQuoted (single : Bool) {style : ScalarStyle}
    (hstyle : style = if single then .singleQuoted else .doubleQuoted)
    (h : l.Scanned source style) (hs : s.map = SourceMap.ofText source)
    (hn : n.OfScalar s.map text style l.token.span) :
    n.kind = .scalar text ∧ s.WritesQuoted l n single := by
  have hsource : s.source = source := by rw [Snapshot.source, hs]; rfl
  obtain ⟨sc, sc', hrest, hindex, hbound, hrun, hstop⟩ := h.run
  have hquote : sc.rest.headD '\x00' = quoteMark single := by
    rw [hrest]
    have := h.starts
    subst hstyle
    cases single <;> exact this
  have hscan : Scan.scanQuoted single sc = .ok (l.token, sc') := by
    subst hstyle
    cases single <;> exact hrun
  obtain ⟨u, rest, hu, hquotes, hnext, hstart, hend⟩ := Scan.scanQuoted_reads hbound hquote hscan
  rw [hindex] at hstart hend
  rw [hrest] at hu
  rw [hs] at hn
  have hmark : Extent.isPropertyMark (quoteMark single) = false := by cases single <;> rfl
  obtain ⟨first, last, taken, hextent, hkind, hnstart, hnstop⟩ :=
    hn.extent (by rw [hstart, hu]; exact hmark)
  rw [hstart] at hextent
  have hwritten : source.drop l.first = quoteMark single :: (u ++ [quoteMark single]) ++ rest := by
    rw [hu]
    simp
  have hlength : (quoteMark single :: (u ++ [quoteMark single])).length = u.length + 2 := by simp
  have hclose : Extent.quotedEnd source (size (source.take l.first)) =
      .ok (some (size (source.take (l.first + u.length + 2)))) := by
    have := Extent.quotedEnd_of_inQuotes (x := source.take l.first) hquotes hnext
    rw [← hu, List.take_append_drop, Text.take_append_of_drop hwritten, hlength] at this
    exact this
  have htaken : (size (source.take l.first), size (source.take (l.first + u.length + 2)), text) =
      (first, last, taken) := by
    subst hstyle
    cases single with
    | true =>
        change (Extent.quotedEnd source _ >>= _) = _ at hextent
        rw [hclose] at hextent
        exact Except.ok.inj hextent
    | false =>
        change (Extent.quotedEnd source _ >>= _) = _ at hextent
        rw [hclose] at hextent
        exact Except.ok.inj hextent
  cases htaken
  refine ⟨hkind, u, hquotes, ?_, fun hsingle hsome => ?_, by omega,
    Snapshot.spans_of_positions hs (by omega) (hs ▸ hnstart) (hs ▸ hnstop)⟩
  · rw [hsource, ← Text.between_of_drop hwritten, hlength, Nat.add_assoc]
  · rw [hsource, Nat.add_assoc, ← hlength, ← List.getElem?_drop, hwritten,
      List.getElem?_append_right (Nat.le_refl _), Nat.sub_self] at hsome
    refine hnext hsingle ?_
    cases rest <;> cases hsome
    rfl

/-- A presentation that stands alone starts like a plain scalar by itself. -/
theorem Token.startsScalar_of_isPrefix {t u : Text} (h : StartsScalar t .plain) (hu : u <+: t)
    (hne : u ≠ []) (halone : StandsAlone u) : StartsScalar u .plain := by
  obtain ⟨w, rfl⟩ := hu
  obtain ⟨c, v, rfl⟩ := List.exists_cons_of_ne_nil hne
  refine ⟨h.1, h.2.1, fun hc => ?_⟩
  cases v with
  | cons d v => exact h.2.2 hc
  | nil =>
      -- an indicator by itself does not stand alone
      simp only [Extent.isIndicator, List.headD_cons, Bool.or_eq_true, beq_iff_eq] at hc
      rcases hc with (rfl | rfl) | rfl
      · exact absurd rfl halone.colon
      · exact absurd rfl halone.dash
      · exact absurd rfl halone.query

/-- White space at the end of a slice is taken off. -/
theorem TreeBuilder.trimmedEnd_append (x u z : Text) :
    TreeBuilder.trimmedEnd (SourceMap.ofText (x ++ u ++ z)) (size x) (size x + size u) =
      .ok (size (x ++ trimEnd u)) := by
  have hslice : (x ++ u ++ z).slice (size x) (size x + size u) = .ok u :=
    slice_eq_ok.mpr ⟨x, z, rfl, rfl, rfl⟩
  unfold TreeBuilder.trimmedEnd
  rw [show (SourceMap.ofText (x ++ u ++ z)).source.slice (size x) (size x + size u) = _ from hslice,
    size_append]
  rfl

theorem TreeBuilder.trimmedEnd_bounds {start stop last : Nat}
    (h : TreeBuilder.trimmedEnd (SourceMap.ofText source) start stop = .ok last) :
    start ≤ last ∧ last ≤ size source := by
  obtain ⟨content, hcontent, h⟩ := bind_eq_ok.mp h
  cases h
  change source.slice start stop = _ at hcontent
  obtain ⟨x, z, hsource, rfl, rfl⟩ := slice_eq_ok.mp hcontent
  obtain ⟨v, hv⟩ := Extent.trimEnd_isPrefix content
  have hsize := congrArg size hv
  rw [size_append] at hsize
  refine ⟨Nat.le_add_right _ _, ?_⟩
  rw [hsource, size_append, size_append]
  omega

/-- **A plain scalar** reaches to the end of its last word, but for blanks. -/
theorem Lexeme.Scanned.writesPlain (h : l.Scanned source .plain)
    (hitem : l.token.item = .scalar .plain text) (hs : s.map = SourceMap.ofText source)
    (hn : n.OfScalar s.map text .plain l.token.span) :
    n.kind = .scalar text ∧ s.WritesPlain l n text := by
  have hsource : s.source = source := by rw [Snapshot.source, hs]; rfl
  obtain ⟨sc, sc', hrest, hindex, hbound, hrun, hstop⟩ := h.run
  obtain ⟨hblank, hreserved, -⟩ := h.starts
  obtain ⟨u, text', hu, hpresents, hitem', hfirst, hlast, hend⟩ :=
    Scan.scanPlain_presents hbound (hrest ▸ hblank) hrun
  cases hitem.symm.trans hitem'
  rw [hindex] at hfirst hlast
  rw [hrest] at hu
  obtain ⟨z, hz⟩ := hu
  rw [hs] at hn
  rw [← hz] at hreserved
  have hne := hpresents.ne_nil
  have hmark :
      Extent.isPropertyMark ((source.drop l.token.span.start.index).headD ' ') = false := by
    rw [hfirst, ← hz]
    obtain ⟨c, v, rfl⟩ := List.exists_cons_of_ne_nil hne
    exact not_isPropertyMark hreserved
  obtain ⟨first, last, taken, hextent, hkind, hnstart, hnstop⟩ := hn.extent hmark
  have hsize : size (source.take (l.first + u.length)) = size (source.take l.first) + size u := by
    rw [← Text.take_append_of_drop hz.symm, size_append]
  have hwide : 0 < size u := by
    obtain ⟨c, v, rfl⟩ := List.exists_cons_of_ne_nil hne
    exact size_pos_of_cons c v
  rw [hfirst, hlast, hsize, Nat.max_eq_left (Nat.le_add_right _ _)] at hextent
  obtain ⟨v, hv⟩ := Extent.trimEnd_isPrefix u
  have htrim : source.take l.first ++ trimEnd u =
      source.take (l.first + (trimEnd u).length) := by
    rw [← hv, List.append_assoc] at hz
    exact Text.take_append_of_drop hz.symm
  have hend' := TreeBuilder.trimmedEnd_append (source.take l.first) u z
  rw [htrim, List.append_assoc, hz, List.take_append_drop] at hend'
  change (if _ then _ else _) = _ at hextent
  rw [if_neg (by omega), hend'] at hextent
  cases hextent
  refine ⟨hkind, u, hpresents, ?_, by omega,
    Snapshot.spans_of_positions hs (Nat.le_add_right _ _) (hs ▸ hnstart) (hs ▸ hnstop),
    fun halone => Node.decodes_of_presents hpresents halone ?_⟩
  · rw [hsource]
    exact Text.between_of_drop hz.symm
  · exact startsScalar_of_isPrefix (hz ▸ h.starts) (List.prefix_append u z) hne halone

/-- The text of a block scalar is that of its event. -/
theorem Node.OfScalar.kind_of_isBlock {style : ScalarStyle} {m : SourceMap} {span : Span}
    (hstyle : style = .literal ∨ style = .folded) (hn : n.OfScalar m text style span) :
    n.kind = .scalar text := by
  obtain ⟨start, first, last, taken, -, hextent, hkind, -⟩ := hn.made
  rcases hstyle with rfl | rfl
  all_goals
    obtain ⟨stop, -, hextent⟩ := bind_eq_ok.mp hextent
    obtain ⟨header, -, hextent⟩ := bind_eq_ok.mp hextent
    cases hextent
    exact hkind

/-- The extent of a block scalar: it ends with the last character that is not blank. -/
theorem TreeBuilder.scalarExtent_block {m : SourceMap} {style : ScalarStyle}
    {start stop first last : Nat} {taken : Text} (hstyle : style = .literal ∨ style = .folded)
    (h : TreeBuilder.scalarExtent m text style start stop = .ok (first, last, taken)) :
    TreeBuilder.trimmedEnd m start stop = .ok last ∧
      ∃ found, Extent.blockHeader m.source start = .ok found ∧ first = found.getD start := by
  rcases hstyle with rfl | rfl
  all_goals
    obtain ⟨stop, hstop, h⟩ := bind_eq_ok.mp h
    obtain ⟨header, hheader, h⟩ := bind_eq_ok.mp h
    cases h
    exact ⟨hstop, header, hheader, rfl⟩

/-- Where a block scalar is placed that is marked in front of `u`. -/
theorem Node.OfScalar.places_of_isBlock {style : ScalarStyle} {span : Span} {v u z : Text} {i : Nat}
    (hstyle : style = .literal ∨ style = .folded)
    (hn : n.OfScalar (SourceMap.ofText source) text style span)
    (hwritten : source.drop i = v ++ u ++ z) (hstart : span.start.index = i + v.length)
    (hstop : span.stop.index = i + (v ++ u).length)
    (hmark : Extent.isPropertyMark ((u ++ z).headD ' ') = false) :
    ∃ found, Extent.blockHeader source (size (source.take i ++ v)) = .ok found ∧
      n.start = (SourceMap.ofText source).position (found.getD (size (source.take i ++ v))) ∧
      n.stop = (SourceMap.ofText source).position (size (source.take i ++ v ++ trimEnd u)) := by
  have hfront : source.take span.start.index = source.take i ++ v := by
    rw [hstart, Text.take_append_of_drop (List.append_assoc v u z ▸ hwritten)]
  have hend : source.take span.stop.index = source.take i ++ v ++ u := by
    rw [hstop, ← Text.take_append_of_drop hwritten, List.append_assoc]
  have hsource : source = source.take i ++ v ++ u ++ z := by
    rw [List.append_assoc, List.append_assoc, ← List.append_assoc v, ← hwritten,
      List.take_append_drop]
  have hrest : source.drop span.start.index = u ++ z := by
    rw [hstart, ← List.drop_drop, hwritten, List.append_assoc, List.drop_left]
  obtain ⟨first, last, taken, hextent, -, hnstart, hnstop⟩ := hn.extent (hrest ▸ hmark)
  rw [hfront, hend, size_append (_ ++ v), Nat.max_eq_left (Nat.le_add_right _ _)] at hextent
  generalize source.take i ++ v = x at *
  subst hsource
  obtain ⟨hlast, found, hfound, rfl⟩ := TreeBuilder.scalarExtent_block hstyle hextent
  cases hlast.symm.trans (TreeBuilder.trimmedEnd_append x u z)
  exact ⟨found, hfound, hnstart, hnstop⟩

section Block

variable {style : ScalarStyle} {header : BlockHeader} {gap content rest : Text}

/-- What a block scalar is. -/
theorem Lexeme.Scanned.holdsBlock (hstyle : style = .literal ∨ style = .folded)
    (h : l.Scanned source style) :
    ∃ header gap content rest, l.HoldsBlock source header gap content rest := by
  obtain ⟨sc, sc', hrest, hindex, hbound, hrun, hstop⟩ := h.run
  have hheader : Extent.isHeaderMark ((source.drop l.first).headD '\x00') = true := by
    have hstarts := h.starts
    rcases hstyle with rfl | rfl
    all_goals
      rw [show (source.drop l.first).headD '\x00' = _ from hstarts]
      rfl
  obtain ⟨folded, hscan⟩ : ∃ folded, Scan.scanBlock folded sc = .ok (l.token, sc') := by
    rcases hstyle with rfl | rfl
    · exact ⟨false, hrun⟩
    · exact ⟨true, hrun⟩
  obtain ⟨header, gap, content, hblock⟩ := Scan.scanBlock_reads (hrest ▸ hheader) hscan
  have hwritten := hblock.reads.rest
  have hend := hblock.reads.index
  have hfirst := hblock.start
  rw [hrest] at hwritten
  rw [hindex] at hend hfirst
  exact ⟨header, gap, content, sc'.rest, hwritten, hblock.blank, hfirst, hblock.stop.trans hend,
    hend ▸ hstop⟩

/-- A text with a block scalar in it. -/
theorem Lexeme.HoldsBlock.source_eq (h : l.HoldsBlock source header gap content rest) :
    source = source.take l.first ++ header.text ++ gap ++ (content ++ rest) := by
  rw [List.append_assoc, List.append_assoc, ← List.append_assoc gap,
    ← List.append_assoc header.text, ← List.append_assoc header.text, ← h.written,
    List.take_append_drop]

/-- Where a block scalar ends, blanks aside. -/
theorem Lexeme.HoldsBlock.take_eq (h : l.HoldsBlock source header gap content rest) :
    source.take l.first ++ trimEnd (header.text ++ gap ++ content) =
      source.take (l.first + (trimEnd (header.text ++ gap ++ content)).length) := by
  obtain ⟨v, hv⟩ := Extent.trimEnd_isPrefix (header.text ++ gap ++ content)
  refine Text.take_append_of_drop (w := v ++ rest) ?_
  rw [h.written, ← List.append_assoc, hv]

theorem not_isPropertyMark_of_isHeaderMark {c : Char} (h : Extent.isHeaderMark c = true) :
    Extent.isPropertyMark c = false := by
  rw [Extent.isHeaderMark, Bool.or_eq_true, beq_iff_eq, beq_iff_eq] at h
  rcases h with rfl | rfl <;> rfl

/-- If the document ends with the header of a block scalar, that is where it is marked. -/
theorem Lexeme.HoldsBlock.spansBlock_of_marked (h : l.HoldsBlock source header gap content rest)
    (hstyle : style = .literal ∨ style = .folded)
    (hn : n.OfScalar (SourceMap.ofText source) text style l.token.span)
    (hs : s.map = SourceMap.ofText source) (hmarked : l.token.span.start.index = l.first) :
    s.SpansBlock l n (header.text ++ gap ++ content) := by
  have hmark : Extent.isHeaderMark ((header.text ++ gap ++ content ++ rest).headD ' ') = true :=
    header.isMark
  obtain ⟨found, hfound, hnstart, hnstop⟩ := hn.places_of_isBlock (v := []) hstyle h.written hmarked
    h.stop (not_isPropertyMark_of_isHeaderMark hmark)
  have hhead := Extent.blockHeader_of_isHeaderMark (x := source.take l.first) hmark
  rw [← h.written, List.take_append_drop] at hhead
  rw [List.append_nil] at hfound hnstart hnstop
  cases hfound.symm.trans hhead
  refine Snapshot.spans_of_positions hs (Nat.le_add_right _ _) (hs ▸ hnstart) ?_
  rw [← h.take_eq, hs]
  exact hnstop

/-- If the header of a block scalar shows, the search for it ends there. -/
theorem Lexeme.HoldsBlock.spansBlock_of_headerShows
    (h : l.HoldsBlock source header gap content rest)
    (hstyle : style = .literal ∨ style = .folded)
    (hn : n.OfScalar (SourceMap.ofText source) text style l.token.span)
    (hs : s.map = SourceMap.ofText source) (hshows : l.HeaderShows source content) :
    s.SpansBlock l n (header.text ++ gap ++ content) := by
  obtain ⟨c, hc, hink⟩ := hshows.ink
  obtain ⟨d, t, rfl⟩ := List.exists_cons_of_ne_nil (List.ne_nil_of_mem hc)
  have hstart := h.start.resolve_left fun h => nomatch h.2
  obtain ⟨found, hfound, hnstart, hnstop⟩ := hn.places_of_isBlock hstyle h.written hstart h.stop
    hshows.property
  have hhead : Extent.blockHeader (source.take l.first ++ header.text ++ gap ++ (d :: t ++ rest))
      (size (source.take l.first ++ header.text ++ gap)) = .ok found := by
    rw [← h.source_eq, List.append_assoc]
    exact hfound
  obtain rfl := (Extent.blockHeader_eq_iff (y := d :: t ++ rest) header h.blank hshows.header
    hhead).mpr ⟨hshows.comment, hshows.blank⟩
  refine Snapshot.spans_of_positions hs (Nat.le_add_right _ _) (hs ▸ hnstart) ?_
  rw [← h.take_eq, hs, trimEnd_append_of_ink hc hink, ← List.append_assoc]
  exact hnstop

/-- The content of a block scalar is not blank if the slice ends behind its start. -/
theorem Lexeme.HoldsBlock.ink (h : l.HoldsBlock source header gap content rest) (hgap : gap ≠ [])
    {p : Text} (hpast : size (p ++ header.text ++ gap) ≤
      size (p ++ trimEnd (header.text ++ gap ++ content))) :
    ∃ c ∈ content, isBlank c = false := by
  by_contra hnone
  have hblanks : ∀ c ∈ gap ++ content, isBlank c = true := by
    refine List.forall_mem_append.mpr
      ⟨fun c hc => Extent.isBlank_of_isSpaceOrBreak (h.blank c hc), fun c hc => ?_⟩
    exact Bool.of_not_eq_false fun hink => hnone ⟨c, hc, hink⟩
  obtain ⟨v, hv⟩ := Extent.trimEnd_isPrefix header.text
  obtain ⟨c, g, rfl⟩ := List.exists_cons_of_ne_nil hgap
  have hsize := congrArg size hv
  have hpos := size_pos_of_cons c g
  rw [List.append_assoc header.text, trimEnd_append_of_blank hblanks, size_append, size_append,
    size_append p] at hpast
  rw [size_append] at hsize
  omega

/-- The header of a block scalar shows if its slice starts there. -/
theorem Lexeme.HoldsBlock.headerShows (h : l.HoldsBlock source header gap content rest)
    (hstyle : style = .literal ∨ style = .folded)
    (hn : n.OfScalar (SourceMap.ofText source) text style l.token.span)
    (hs : s.map = SourceMap.ofText source)
    (hstart : l.token.span.start.index = l.first + (header.text ++ gap).length)
    (hline : '\n' ∈ gap) (hspans : s.SpansBlock l n (header.text ++ gap ++ content)) :
    l.HeaderShows source content := by
  have hwhole := h.source_eq
  have hfront : source.take l.token.span.start.index =
      source.take l.first ++ header.text ++ gap := by
    rw [hstart, List.append_assoc]
    refine (Text.take_append_of_drop (w := content ++ rest) ?_).symm
    rw [h.written, List.append_assoc]
  obtain ⟨start, first, last, taken, hskip, hextent, -, hnstart, hnstop⟩ := hn.made
  rw [Node.offsetOfMark_eq, hfront] at hskip
  obtain ⟨hlast, found, hfound, rfl⟩ := TreeBuilder.scalarExtent_block hstyle hextent
  change Extent.skipProperties source _ = _ at hskip
  change Extent.blockHeader source _ = _ at hfound
  -- the slice starts at the header, and ends behind the white space in front of the content
  have hfirst : found.getD start = size (source.take l.first) := by
    have hboundary : source.IsBoundary start := (yields_iff.mp (Extent.lands_skipProperties
      (Text.isBoundary_of_isPrefix ⟨_, hwhole.symm⟩))).1 start hskip
    have hlanded := (yields_iff.mp (Extent.yields_blockHeader hboundary)).1 found hfound
    refine hspans.start_eq hs ?_ hnstart
    cases found with
    | none => exact hboundary.le_size
    | some k => exact (hlanded k rfl).le_size
  obtain ⟨hle, hwithin⟩ := TreeBuilder.trimmedEnd_bounds hlast
  have hend := hspans.stop_eq hs hwithin hnstop
  rw [← h.take_eq] at hend
  have hpast := (Extent.le_of_skipProperties hskip).trans (hle.trans hend.le)
  generalize hp : source.take l.first = p at *
  rw [hwhole] at hskip hfound
  obtain ⟨hproperty, hheader, hcomment, hblank⟩ :=
    Extent.starts_of_blockHeader header h.blank hline hskip hfound hfirst
  obtain ⟨c, hc, hink⟩ := h.ink (List.ne_nil_of_mem hline) hpast
  obtain ⟨d, t, rfl⟩ := List.exists_cons_of_ne_nil (List.ne_nil_of_mem hc)
  exact ⟨hp ▸ hcomment, hp ▸ hblank, hheader, hproperty, c, hc, hink⟩

/-- **A block scalar** reaches from its header to the last character that is not blank, if its
header shows. -/
theorem Lexeme.Scanned.writesBlock (hstyle : style = .literal ∨ style = .folded)
    (h : l.Scanned source style) (hs : s.map = SourceMap.ofText source)
    (hn : n.OfScalar s.map text style l.token.span) : s.WritesBlock l n := by
  have hsource : s.source = source := by rw [Snapshot.source, hs]; rfl
  obtain ⟨header, gap, content, rest, hblock⟩ := h.holdsBlock hstyle
  rw [hs] at hn
  refine ⟨header, gap, content, rest, hsource ▸ hblock, ?_, fun hline hspans => ?_⟩
  · rw [hsource]
    rintro (hmarked | hshows)
    · exact hblock.spansBlock_of_marked hstyle hn hs hmarked
    · exact hblock.spansBlock_of_headerShows hstyle hn hs hshows
  · rw [hsource]
    exact hblock.start.imp (·.1) fun hstart =>
      hblock.headerShows hstyle hn hs hstart hline hspans

end Block

end Styles

section Owners

variable {source : Text} {s : Snapshot}

/-- A scalar that a token writes. -/
theorem Lexeme.Fits.isWrittenAs {l : Lexeme} {n : Node} {y : Event × Span} (h : l.Fits source)
    (hs : s.map = SourceMap.ofText source) (htoken : Event.token? y = some l.token)
    (hn : n.OfEvent s.map y) : s.IsWrittenAs l n := by
  obtain ⟨text, style, anchor, hy, hn⟩ := hn
  obtain ⟨e, span⟩ := y
  obtain rfl : e = _ := hy
  have hl : l.token = ⟨span, .scalar style text⟩ := (Option.some.inj htoken).symm
  have hitem : l.token.item = .scalar style text := by rw [hl]
  have hscanned := h.written
  rw [Lexeme.Written, hitem] at hscanned
  rw [show span = l.token.span by rw [hl]] at hn
  refine ⟨style, text, hitem, ?_⟩
  cases style with
  | plain => exact hscanned.writesPlain hitem hs hn
  | singleQuoted => exact hscanned.writesQuoted true rfl hs hn
  | doubleQuoted => exact hscanned.writesQuoted false rfl hs hn
  | literal => exact ⟨hn.kind_of_isBlock (.inl rfl), hscanned.writesBlock (.inl rfl) hs hn⟩
  | folded => exact ⟨hn.kind_of_isBlock (.inr rfl), hscanned.writesBlock (.inr rfl) hs hn⟩

/-- The characters of different tokens are different ones. -/
theorem Lexeme.Row.pairwise {tokens : List (Located Token)} {ls : List Lexeme}
    (h : Lexeme.Row source tokens ls) : ls.Pairwise fun l next => l.stop ≤ next.first := by
  have hchain := h.chain
  have hfits := h.fits
  clear h
  induction ls with
  | nil => exact .nil
  | cons l rest ih =>
      have hrest := ih hchain.tail fun x hx => hfits x (List.mem_cons_of_mem l hx)
      refine .cons (fun next hnext => ?_) hrest
      cases rest with
      | nil => cases hnext
      | cons m rest =>
          have hle := (List.isChain_cons_cons.mp hchain).1.le
          rcases List.mem_cons.mp hnext with rfl | hnext
          · exact hle
          · have hwide := (hfits m (by simp)).le
            exact hle.trans (hwide.trans ((List.pairwise_cons.mp hrest).1 next hnext))

/-- **Where scalars are written.** Every scalar that is not missing is written by a token of its
own, whose characters are those of no other token, and its slice is taken out of these. -/
theorem Snapshot.scalars_written (h : Snapshot.ofText source = .ok s) :
    ∃ ls events, Lexeme.Row source (Token.scan source).tokens ls ∧
      (ls.Pairwise fun l next => l.stop ≤ next.first) ∧ Event.ofDocument source = .ok events ∧
      (Event.writers (Token.scan source)).reduceOption.Pairwise (· < ·) ∧
      List.Forall₂ (s.Made ls) (Event.scalarsBy source events) s.tree.root.scalars := by
  obtain ⟨events, root, hevents, hroot, rfl⟩ := Snapshot.ofText_eq_ok h
  obtain ⟨ls, hrow⟩ := Token.scan_laid source
  obtain ⟨hwritten, hsorted⟩ := Event.written_of_ofDocument hevents
  refine ⟨ls, events, hrow, hrow.pairwise, hevents, hsorted, ?_⟩
  have hmade := Node.scalars_of_ofDocument hevents hroot
  rw [← List.map_fst_zip (Nat.le_of_eq hwritten.length_eq), List.filter_map,
    List.forall₂_map_left_iff] at hmade
  have hknown : ∀ z ∈ Event.scalarsBy source events,
      EventReader.WrittenBy (Token.scan source).tokens z.1 z.2 ∧ z.1.1.isScalar = true :=
    fun z hz => ⟨List.forall₂_zip hwritten (List.mem_of_mem_filter hz), (List.mem_filter.mp hz).2⟩
  refine ((List.forall₂_and_left _ _).mpr ⟨hknown, hmade⟩).imp ?_
  rintro ⟨y, number⟩ n ⟨⟨hby, hscalar⟩, hn⟩
  refine ⟨hn, fun k hk => ?_, fun hnone => hby.unwritten hnone hscalar⟩
  obtain ⟨t, ht, htoken⟩ := hby.writes k hk
  rw [← hrow.tokens, List.getElem?_map] at ht
  obtain ⟨l, hl, rfl⟩ := Option.map_eq_some_iff.mp ht
  exact ⟨l, hl, (hrow.fits l (List.mem_of_getElem? hl)).isWrittenAs rfl htoken hn⟩

end Owners

/-- The scalars of a text with a quoted one and a block scalar whose header shows. -/
theorem Snapshot.scalars_written_quoted_block :
    ∃ s, Snapshot.ofText "a: 'b'\nc: |\n  d\n".toList = .ok s ∧
      s.tree.root.scalars.map (fun n => (n.kind, (s.textOf n).toOption)) =
        [(.scalar "a".toList, some "a".toList), (.scalar "b".toList, some "'b'".toList),
          (.scalar "c".toList, some "c".toList), (.scalar "d\n".toList, some "|\n  d".toList)] ∧
      ∃ ls events, Lexeme.Row "a: 'b'\nc: |\n  d\n".toList
          (Token.scan "a: 'b'\nc: |\n  d\n".toList).tokens ls ∧
        (ls.Pairwise fun l next => l.stop ≤ next.first) ∧
        Event.ofDocument "a: 'b'\nc: |\n  d\n".toList = .ok events ∧
        (Event.writers (Token.scan "a: 'b'\nc: |\n  d\n".toList)).reduceOption.Pairwise (· < ·) ∧
        List.Forall₂ (s.Made ls) (Event.scalarsBy "a: 'b'\nc: |\n  d\n".toList events)
          s.tree.root.scalars := by
  obtain ⟨e, hload, hslices⟩ := Editor.exists_load "a: 'b'\nc: |\n  d\n".toList
    (P := fun e => e.snapshot.tree.root.scalars.map
        (fun n => (n.kind, (e.snapshot.textOf n).toOption)) =
      [(.scalar "a".toList, some "a".toList), (.scalar "b".toList, some "'b'".toList),
        (.scalar "c".toList, some "c".toList), (.scalar "d\n".toList, some "|\n  d".toList)])
    (by decide +kernel)
  have hs := (Editor.load_eq_ok hload).1
  exact ⟨e.snapshot, hs, hslices, Snapshot.scalars_written hs⟩

/-- **A block scalar whose content starts like a property** is not found at its header: the slice
is what follows the word. -/
theorem Snapshot.block_slice_behind_property :
    ∃ s, Snapshot.ofText "a: |\n  &b x\n".toList = .ok s ∧
      (Event.ofDocument "a: |\n  &b x\n".toList).toOption.map
          (fun events => (events.map (·.1)).filter Event.isScalar) =
        some [.scalar "a".toList .plain 0, .scalar "&b x\n".toList .literal 0] ∧
      s.tree.root.scalars.map (fun n => (n.kind, (s.textOf n).toOption)) =
        [(.scalar "a".toList, some "a".toList), (.scalar "&b x\n".toList, some "x".toList)] := by
  obtain ⟨e, hload, hslices⟩ := Editor.exists_load "a: |\n  &b x\n".toList
    (P := fun e => e.snapshot.tree.root.scalars.map
        (fun n => (n.kind, (e.snapshot.textOf n).toOption)) =
      [(.scalar "a".toList, some "a".toList), (.scalar "&b x\n".toList, some "x".toList)])
    (by decide +kernel)
  exact ⟨e.snapshot, (Editor.load_eq_ok hload).1, by decide +kernel, hslices⟩

end YamlEdit
