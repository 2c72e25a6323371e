import Mathlib.Data.List.TakeWhile
import YamlEdit.Proofs.ExtentBounds
import YamlEdit.Proofs.Layout
import YamlEdit.Proofs.MissingMarks
import YamlEdit.Proofs.ScalarNodes

/-!
# Where missing values are placed

A missing value is placed behind the indicator that the builder finds around the mark of its event:
the last thing in front of the mark, or a `:` right at it. Whether that is the indicator of the
value itself depends on what stands between the two (`Event.LeadsBack`).

Main statement: `Node.missing_behind_indicator_iff`.
-/

namespace YamlEdit

open Text

namespace Extent

/-- The last character in front of character number `i`, blanks aside. -/
def lastInk (source : Text) (i : Nat) : Char :=
  ((source.take i).reverse.dropWhile isBlank).headD ' '

section Indicators

variable {source x y : Text} {i : Nat} {c : Char} {r : Option Nat}

theorem isBlank_of_isSpaceOrBreak (h : Token.isSpaceOrBreak c = true) : isBlank c = true := by
  simp only [Token.isSpaceOrBreak, Token.isSpace, Token.isBreak, Bool.or_eq_true,
    beq_iff_eq] at h
  rcases h with (rfl | rfl) | rfl | rfl <;> decide

theorem not_isBlank_of_isIndicator (h : isIndicator c = true) : isBlank c = false := by
  simp only [isIndicator, Bool.or_eq_true, beq_iff_eq] at h
  rcases h with (rfl | rfl) | rfl <;> decide

theorem not_isBlank_of_isPropertyMark (h : isPropertyMark c = true) : isBlank c = false := by
  simp only [isPropertyMark, Bool.or_eq_true, beq_iff_eq] at h
  rcases h with rfl | rfl <;> decide

/-- **What is looked at** for the indicator of a missing value. -/
theorem indicatorEnd_append (x y : Text) : indicatorEnd (x ++ y) (size x) =
    .ok (if isIndicator ((x.reverse.dropWhile isBlank).headD ' ') then
        some (size (x.reverse.dropWhile isBlank))
      else if y.headD ' ' = ':' ∧ isNameChar (y.tail.headD ' ') = false then some (size x + 1)
      else none) := by
  unfold indicatorEnd
  rw [cutAt_append]
  show (if isIndicator _ then _ else _) = _
  split
  · rfl
  · dsimp only
    split
    · rfl
    · next d rest _ =>
        show Except.ok (if isNameChar d then none else some (size x + 1)) = _
        rw [List.tail_cons, List.headD_cons, List.headD_cons]
        cases isNameChar d <;> rfl
    · next hcolon hcolons =>
        rw [if_neg]
        · rfl
        · rintro ⟨hhead, -⟩
          cases y with
          | nil => cases hhead
          | cons c rest =>
              obtain rfl : c = ':' := hhead
              cases rest with
              | nil => exact hcolon rfl
              | cons d rest => exact hcolons d rest rfl

/-- What is not blank is not taken off, and all that is in front of it stays. -/
theorem dropWhile_reverse_append (hc : c ∈ y) (hink : isBlank c = false) :
    ∃ d z, y.reverse.dropWhile isBlank = d :: z ∧
      (x ++ y).reverse.dropWhile isBlank = d :: z ++ x.reverse := by
  cases hdrop : y.reverse.dropWhile isBlank with
  | nil =>
      have := List.dropWhile_eq_nil_iff.mp hdrop c (List.mem_reverse.mpr hc)
      rw [hink] at this
      cases this
  | cons d z =>
      refine ⟨d, z, rfl, ?_⟩
      rw [List.reverse_append, List.dropWhile_append, hdrop]
      rfl

/-- The search does not reach back over anything that is not blank. -/
theorem lt_of_indicatorEnd (hc : c ∈ y) (hink : isBlank c = false) {z : Text}
    (h : indicatorEnd (x ++ y ++ z) (size (x ++ y)) = .ok r) :
    size x < r.getD (size (x ++ y)) := by
  obtain ⟨d, u, -, hhead⟩ := @dropWhile_reverse_append x y c hc hink
  obtain ⟨y₁, y₂, rfl⟩ := List.append_of_mem hc
  have hlt : size x < size (x ++ (y₁ ++ c :: y₂)) := by
    have := Char.utf8Size_pos c
    rw [size_append, size_append, size_cons]
    omega
  rw [indicatorEnd_append] at h
  cases h
  split
  · have := size_pos_of_cons d u
    rw [hhead, Option.getD_some, size_append, size_reverse]
    omega
  · split
    · rw [Option.getD_some]
      omega
    · exact hlt

/-- Over blanks the search reaches back to an indicator. -/
theorem indicatorEnd_behind (hc : isIndicator c = true) (hy : ∀ d ∈ y, isBlank d = true)
    {z : Text} :
    indicatorEnd (x ++ [c] ++ y ++ z) (size (x ++ [c] ++ y)) = .ok (some (size (x ++ [c]))) := by
  have hhead : (x ++ [c] ++ y).reverse.dropWhile isBlank = c :: x.reverse := by
    rw [List.reverse_append, List.reverse_append, List.dropWhile_append_of_pos
      (fun d hd => hy d (List.mem_reverse.mp hd))]
    exact List.dropWhile_cons_of_neg (by rw [not_isBlank_of_isIndicator hc]; decide)
  have hsize : size (c :: x.reverse) = size (x ++ [c]) := by
    rw [size_append, size_cons, size_cons, size_nil, size_reverse]
    omega
  rw [indicatorEnd_append, hhead, List.headD_cons, if_pos hc, hsize]

/-- At a `:` the search finds that one if nothing else is an indicator in front of it and no name
goes on behind it. -/
theorem indicatorEnd_at {z : Text} (h : indicatorEnd (x ++ ':' :: z) (size x) = .ok r) :
    r.getD (size x) = size (x ++ [':']) ↔
      isIndicator ((x.reverse.dropWhile isBlank).headD ' ') = false ∧
        isNameChar (z.headD ' ') = false := by
  have hsize : size (x ++ [':']) = size x + 1 := size_append x [':']
  rw [indicatorEnd_append] at h
  cases h
  rw [hsize]
  split
  · next hindicator =>
      have hle : size (x.reverse.dropWhile isBlank) ≤ size x := by
        obtain ⟨u, hu⟩ := List.dropWhile_suffix (l := x.reverse) isBlank
        have := congrArg size hu
        rw [size_append, size_reverse] at this
        omega
      rw [hindicator, Option.getD_some]
      exact ⟨fun h => absurd h (by omega), fun h => absurd h.1 (by decide)⟩
  · next hindicator =>
      rw [List.headD_cons, List.tail_cons]
      split
      · next hname =>
          exact ⟨fun _ => ⟨Bool.eq_false_iff.mpr hindicator, hname.2⟩, fun _ => rfl⟩
      · next hname =>
          rw [Option.getD_none]
          exact ⟨fun h => absurd h (by omega), fun h => absurd ⟨rfl, h.2⟩ hname⟩

/-! ## Properties at a mark -/

theorem skipProperties_append (hmark : isPropertyMark (y.headD ' ') = false) :
    skipProperties (x ++ y) (size x) = .ok (size x) := by
  unfold skipProperties
  rw [dropBytes_append]
  show Except.ok (size x + propertiesSize y.length y) = _
  cases y with
  | nil => rfl
  | cons c y =>
      rw [List.length_cons, propertiesSize, if_neg (by rw [hmark]; decide), Nat.add_zero]

/-- Properties at a mark are stepped over. -/
theorem skipProperties_property (hmark : isPropertyMark (y.headD ' ') = true) :
    ∃ u v, y = u ++ v ∧ y.headD ' ' ∈ u ∧
      skipProperties (x ++ y) (size x) = .ok (size (x ++ u)) := by
  obtain ⟨u, ⟨v, hv⟩, hsize⟩ := propertiesSize_eq y.length y
  refine ⟨u, v, hv.symm, ?_, ?_⟩
  · cases y with
    | nil => cases hmark
    | cons c y =>
        rw [List.headD_cons] at hmark ⊢
        have hname : isNameChar c = true := by
          simp only [isPropertyMark, Bool.or_eq_true, beq_iff_eq] at hmark
          rcases hmark with rfl | rfl <;> decide
        cases u with
        | nil =>
            have := Char.utf8Size_pos c
            rw [List.length_cons, propertiesSize, List.headD_cons, if_pos hmark,
              List.takeWhile_cons_of_pos hname] at hsize
            dsimp only at hsize
            rw [size_cons, size_nil] at hsize
            omega
        | cons d u =>
            cases hv
            exact List.mem_cons_self
  · unfold skipProperties
    rw [dropBytes_append, size_append, ← hsize]
    rfl

end Indicators

end Extent

/-! ## Missing values -/

/-- A missing value, at the given place. -/
structure Node.IsMissingAt (m : SourceMap) (place : Nat) (n : Node) : Prop where
  kind : n.kind = .scalar []
  start : n.start = m.position place
  stop : n.stop = m.position place

namespace Node

variable {source : Text} {place : Nat} {span : Span} {n : Node}

/-- A missing value is where the indicator ends that is found for it, or at its mark. -/
theorem OfScalar.isMissingAt_iff {start : Nat} {r : Option Nat}
    (h : n.OfScalar (SourceMap.ofText source) ['~'] .plain span) (hplace : place ≤ size source)
    (hstart : Extent.skipProperties source ((SourceMap.ofText source).offsetOfMark span.start) =
      .ok start) (hr : Extent.indicatorEnd source start = .ok r) :
    n.IsMissingAt (SourceMap.ofText source) place ↔
      (SourceMap.ofText source).offsetOfMark span.stop ≤ start ∧ r.getD start = place := by
  have hboundary : source.IsBoundary start :=
    (yields_iff.mp (Extent.lands_skipProperties
      ((SourceMap.ofText source).isBoundary_offsetOfMark span.start))).1 start hstart
  have hfound := (yields_iff.mp (Extent.finds_indicatorEnd hboundary)).1 r hr
  have hle : r.getD start ≤ size source := by
    cases r with
    | none => exact hboundary.le_size
    | some k => exact (hfound k rfl).le_size
  obtain ⟨start', first, last, taken, hstart', hextent, hkind, hfirst, hlast⟩ := h.made
  obtain rfl : start = start' := Except.ok.inj (hstart.symm.trans hstart')
  unfold TreeBuilder.scalarExtent at hextent
  dsimp only at hextent
  split at hextent
  · next heq =>
      rw [show Extent.indicatorEnd (SourceMap.ofText source).source start = _ from hr] at hextent
      cases hextent
      constructor
      · intro hmissing
        refine ⟨by omega, ?_⟩
        rw [← SourceMap.offset_position hle, ← SourceMap.offset_position hplace]
        exact congrArg _ (hfirst.symm.trans hmissing.start)
      · rintro ⟨-, rfl⟩
        exact ⟨hkind, hfirst, hlast⟩
  · next hne =>
      obtain ⟨stop, -, hextent⟩ := bind_eq_ok.mp hextent
      cases hextent
      constructor
      · intro hmissing
        cases hkind.symm.trans hmissing.kind
      · rintro ⟨hle, -⟩
        exact absurd (Nat.max_eq_right hle).symm hne

end Node

/-- Whether the marks of a missing value lead back to its indicator, which is character number
`first`: they enclose nothing, and if they are at the indicator itself, there is no other one in
front of it and no name goes on behind it; if they are further on, there is no comment in between
and no property at them. -/
def Event.LeadsBack (source : Text) (first : Nat) (span : Span) : Prop :=
  (SourceMap.ofText source).offsetOfMark span.stop ≤
      (SourceMap.ofText source).offsetOfMark span.start ∧
    if span.start.index = first then
      Extent.isIndicator (Extent.lastInk source first) = false ∧
        Extent.isNameChar ((source.drop (first + 1)).headD ' ') = false
    else
      '#' ∉ source.between (first + 1) span.start.index ∧
        Extent.isPropertyMark ((source.drop span.start.index).headD ' ') = false

namespace Node

variable {source : Text} {first : Nat} {c : Char} {span : Span} {n : Node}

theorem offsetOfMark_eq (source : Text) (mark : Mark) :
    (SourceMap.ofText source).offsetOfMark mark = size (source.take mark.index) :=
  SourceMap.bytesOf_eq_size _ _

/-- The parts of a text around one of its characters. -/
theorem exists_parts (hc : source[first]? = some c) :
    ∃ x z, source = x ++ c :: z ∧ source.take first = x ∧ source.take (first + 1) = x ++ [c] ∧
      source.drop (first + 1) = z := by
  obtain ⟨hlt, rfl⟩ := List.getElem?_eq_some_iff.mp hc
  exact ⟨source.take first, source.drop (first + 1), by simp, rfl, by simp, rfl⟩

/-- **A missing value that is marked at its indicator**, which is a `:`. -/
theorem OfScalar.missingBehind_iff_at (hc : source[first]? = some ':')
    (hspan : span.start.index = first)
    (h : n.OfScalar (SourceMap.ofText source) ['~'] .plain span) :
    n.IsMissingAt (SourceMap.ofText source) (size (source.take (first + 1))) ↔
      Event.LeadsBack source first span := by
  obtain ⟨x, z, hsource, hfront, htake, hdrop⟩ := exists_parts hc
  have hmark : (SourceMap.ofText source).offsetOfMark span.start = size x := by
    rw [offsetOfMark_eq, hspan, hfront]
  have hstart : Extent.skipProperties source
      ((SourceMap.ofText source).offsetOfMark span.start) = .ok (size x) := by
    rw [hmark, hsource]
    exact Extent.skipProperties_append rfl
  obtain ⟨r, hr⟩ : ∃ r, Extent.indicatorEnd (x ++ ':' :: z) (size x) = .ok r :=
    ⟨_, Extent.indicatorEnd_append x (':' :: z)⟩
  have hplace : size (x ++ [':']) ≤ size source :=
    htake ▸ (isBoundary_of_isPrefix (List.take_prefix _ _)).le_size
  rw [Event.LeadsBack, if_pos hspan, hmark, Extent.lastInk, hfront, htake, hdrop,
    h.isMissingAt_iff hplace hstart (hsource ▸ hr), Extent.indicatorEnd_at hr]

/-- **A missing value that is marked behind its indicator**, past filler. -/
theorem OfScalar.missingBehind_iff_past (hc : source[first]? = some c)
    (hindicator : Extent.isIndicator c = true) (hspan : first < span.start.index)
    (hfiller : Token.Filler (source.between (first + 1) span.start.index))
    (h : n.OfScalar (SourceMap.ofText source) ['~'] .plain span) :
    n.IsMissingAt (SourceMap.ofText source) (size (source.take (first + 1))) ↔
      Event.LeadsBack source first span := by
  obtain ⟨x, z, -, -, htake, -⟩ := exists_parts hc
  rw [Event.LeadsBack, if_neg (by omega), htake]
  -- `y` stands between the indicator and the mark, and `w` behind the mark
  have hfront : source.take span.start.index =
      x ++ [c] ++ source.between (first + 1) span.start.index := by
    rw [← htake, Text.between, ← List.take_add, Nat.add_sub_cancel' hspan]
  have hsource := (List.take_append_drop span.start.index source).symm
  rw [hfront] at hsource
  have hmark := offsetOfMark_eq source span.start
  rw [hfront] at hmark
  generalize source.between (first + 1) span.start.index = y at *
  generalize source.drop span.start.index = w at *
  have hplace : size (x ++ [c]) ≤ size source :=
    htake ▸ (isBoundary_of_isPrefix (List.take_prefix _ _)).le_size
  rw [hmark]
  cases hproperty : Extent.isPropertyMark (w.headD ' ') with
  | true =>
      -- the builder steps over the properties, and no search leads back over them
      obtain ⟨u, v, rfl, hu, hskip⟩ := @Extent.skipProperties_property (x ++ [c] ++ y) w hproperty
      obtain ⟨r, hr⟩ : ∃ r, Extent.indicatorEnd (x ++ [c] ++ y ++ u ++ v)
          (size (x ++ [c] ++ y ++ u)) = .ok r := ⟨_, Extent.indicatorEnd_append _ v⟩
      have hlt := Extent.lt_of_indicatorEnd hu (Extent.not_isBlank_of_isPropertyMark hproperty) hr
      have hle : size (x ++ [c]) ≤ size (x ++ [c] ++ y) := by
        rw [size_append _ y]
        omega
      rw [← List.append_assoc] at hsource
      rw [h.isMissingAt_iff hplace (by rw [hmark, hsource, List.append_assoc _ u]; exact hskip)
        (hsource ▸ hr)]
      exact ⟨fun h => absurd h.2 (by omega), fun h => absurd h.2.2 (by decide)⟩
  | false =>
      have hstart : Extent.skipProperties source
          ((SourceMap.ofText source).offsetOfMark span.start) = .ok (size (x ++ [c] ++ y)) := by
        rw [hmark, hsource]
        exact Extent.skipProperties_append hproperty
      by_cases hcomment : '#' ∈ y
      · obtain ⟨r, hr⟩ : ∃ r, Extent.indicatorEnd (x ++ [c] ++ y ++ w) (size (x ++ [c] ++ y)) =
            .ok r := ⟨_, Extent.indicatorEnd_append _ w⟩
        have hlt := Extent.lt_of_indicatorEnd hcomment (by decide) hr
        rw [h.isMissingAt_iff hplace hstart (hsource ▸ hr)]
        exact ⟨fun h => absurd h.2 (by omega), fun h => absurd hcomment h.2.1⟩
      · have hblank : ∀ d ∈ y, isBlank d = true := fun d hd =>
          Extent.isBlank_of_isSpaceOrBreak (hfiller.blank_of_not_mem hcomment d hd)
        have hr := @Extent.indicatorEnd_behind x y c hindicator hblank w
        rw [h.isMissingAt_iff hplace hstart (hsource ▸ hr), Option.getD_some]
        exact and_congr_right fun _ => ⟨fun _ => ⟨hcomment, rfl⟩, fun _ => rfl⟩

end Node

/-! ## Missing values of a text -/

/-- The events of scalars, each with the number of the token that it is missing behind, if it is. -/
def Event.scalarsBehind (doc : Text) (events : List (Event × Span)) :
    List ((Event × Span) × Option Nat) :=
  (events.zip (Event.nothingsBehind (Token.scan doc))).filter (·.1.1.isScalar)

/-- A scalar node that is made of an event. If the event is missing behind an indicator that is
written, it is right behind that exactly if the marks of the event lead back to it. -/
structure Node.Follows (source : Text) (ls : List Lexeme) (z : (Event × Span) × Option Nat)
    (n : Node) : Prop where
  made : n.OfEvent (SourceMap.ofText source) z.1
  behind : ∀ k l, z.2 = some k → ls[k]? = some l → l.token.item.indicates = true →
    l.first < l.stop →
      (n.IsMissingAt (SourceMap.ofText source) (size (source.take (l.first + 1))) ↔
        Event.LeadsBack source l.first z.1.2)

theorem Token.eq_of_indicates {t : Token} (h : t.indicates = true) :
    t = .blockEntry ∨ t = .key ∨ t = .value := by
  cases t with
  | blockEntry => exact .inl rfl
  | key => exact .inr (.inl rfl)
  | value => exact .inr (.inr rfl)
  | _ => cases h

section Follows

variable {source : Text} {tokens : List (Located Token)} {ls : List Lexeme} {l : Lexeme} {k : Nat}
  {span : Span}

/-- An indicator that is written is one of the three characters. -/
theorem Lexeme.Fits.indicates (h : l.Fits source) (hl : l.token.item.indicates = true)
    (hwide : l.first < l.stop) : ∃ c, Extent.isIndicator c = true ∧ l.Indicates source c := by
  have hwritten := h.written
  rcases Token.eq_of_indicates hl with hitem | hitem | hitem
  all_goals rw [Written, hitem] at hwritten
  · exact ⟨'-', rfl, hwritten.1⟩
  · exact ⟨'?', rfl, hwritten.1.resolve_left (Nat.ne_of_lt hwide)⟩
  · exact ⟨':', rfl, hwritten.1⟩

/-- A token that says that there is no value is marked at its first character. -/
theorem Lexeme.Fits.start_of_tellsNothing (h : l.Fits source)
    (hl : l.token.item.tellsNothing = true) : l.token.span.start.index = l.first := by
  have hwritten := h.written
  unfold Written at hwritten
  split at hwritten
  · next hitem =>
      rw [hitem] at hl
      cases hl
  · exact hwritten.2
  · exact hwritten.2
  · next hitem =>
      rw [hitem] at hl
      cases hl
  · exact hwritten

/-- **Where a missing value is marked**: at its indicator, if that is a `:`, or behind it, past
filler. -/
theorem Lexeme.Row.place_of_marks (h : Lexeme.Row source tokens ls) (hl : ls[k]? = some l)
    (hindicates : l.token.item.indicates = true) (hwide : l.first < l.stop)
    (hmarks : EventReader.Marks l.token span tokens[k + 1]?) :
    ∃ c, Extent.isIndicator c = true ∧ source[l.first]? = some c ∧
      (c = ':' ∧ span.start.index = l.first ∨ l.first < span.start.index ∧
        Token.Filler (source.between (l.first + 1) span.start.index)) := by
  have hfits := h.fits l (List.mem_of_getElem? hl)
  rcases hmarks with ⟨rfl, hkey⟩ | ⟨t, ht, rfl, htells⟩
  · have hwritten := hfits.written
    rcases Token.eq_of_indicates hindicates with hitem | hitem | hitem
    · rw [Written, hitem] at hwritten
      obtain ⟨hdash, hspan⟩ := hwritten
      exact ⟨'-', rfl, hdash.char, .inr (hspan ▸ ⟨hwide, hdash.filler⟩)⟩
    · exact absurd hitem hkey
    · rw [Written, hitem] at hwritten
      exact ⟨':', rfl, hwritten.1.char, .inl ⟨rfl, hwritten.2⟩⟩
  · -- the next token comes behind filler
    obtain ⟨c, hc, hwritten⟩ := hfits.indicates hindicates hwide
    rw [← h.tokens, List.getElem?_map] at ht
    obtain ⟨next, hnext, rfl⟩ := Option.map_eq_some_iff.mp ht
    obtain ⟨hlt, hgetl⟩ := List.getElem?_eq_some_iff.mp hl
    obtain ⟨hltnext, hgetnext⟩ := List.getElem?_eq_some_iff.mp hnext
    have hbefore : Before source l next := by
      rw [← hgetl, ← hgetnext]
      exact List.isChain_iff_getElem.mp h.chain k hltnext
    have hspan := (h.fits next (List.mem_of_getElem? hnext)).start_of_tellsNothing htells
    refine ⟨c, hc, hwritten.char, .inr ⟨?_, ?_⟩⟩
    · rw [hspan]
      exact Nat.lt_of_lt_of_le hwide hbefore.le
    · rw [hspan, ← between_append source hwide hbefore.le]
      exact hwritten.filler.append hbefore.filler

end Follows

/-- **Where missing values are placed.** A value that is missing behind an indicator which is
written is right behind that exactly if the marks of its event lead back to it. -/
theorem Node.missing_behind_indicator_iff {source : Text} {root : Node}
    (h : Node.ofText (SourceMap.ofText source) = .ok root) :
    ∃ ls events, Lexeme.Row source (Token.scan source).tokens ls ∧
      Event.ofDocument source = .ok events ∧
      List.Forall₂ (Node.Follows source ls) (Event.scalarsBehind source events) root.scalars := by
  obtain ⟨ls, hrow⟩ := Token.scan_laid source
  unfold Node.ofText at h
  cases hevents : Event.ofDocument (SourceMap.ofText source).source with
  | error fault =>
      rw [hevents] at h
      cases h
  | ok events =>
      rw [hevents] at h
      change Event.ofDocument source = .ok events at hevents
      refine ⟨ls, events, hrow, hevents, ?_⟩
      have hmarks := Event.marks_of_ofDocument hevents
      have hmade := Node.scalars_of_ofDocument hevents h
      rw [← List.map_fst_zip (Nat.le_of_eq hmarks.length_eq), List.filter_map,
        List.forall₂_map_left_iff] at hmade
      refine ((List.forall₂_and_left _ _).mpr
        ⟨fun z hz => List.forall₂_zip hmarks (List.mem_of_mem_filter hz), hmade⟩).imp ?_
      rintro ⟨⟨e, span⟩, number⟩ n ⟨hmarked, hn⟩
      refine ⟨hn, fun k l hk hl hindicates hwide => ?_⟩
      obtain ⟨he, hmarked⟩ := hmarked k hk
      have htoken : (Token.scan source).tokens[k]? = some l.token := by
        rw [← hrow.tokens, List.getElem?_map, hl]
        rfl
      obtain ⟨text, style, anchor, heq, hscalar⟩ := hn
      cases he.symm.trans heq
      obtain ⟨c, hc, hchar, ⟨rfl, hspan⟩ | ⟨hspan, hfiller⟩⟩ :=
        hrow.place_of_marks hl hindicates hwide (hmarked _ htoken hindicates)
      · exact hscalar.missingBehind_iff_at hchar hspan
      · exact hscalar.missingBehind_iff_past hchar hc hspan hfiller

/-- Of two missing items, one in front of a comment, the one without is behind its dash. -/
theorem Node.missing_behind_indicator_iff_items :
    ∃ root, Node.ofText (SourceMap.ofText "- # c\n-\n".toList) = .ok root ∧
      (root.scalars.map Node.start)[1]? = some ⟨1, 1⟩ ∧
      ∃ ls events, Lexeme.Row "- # c\n-\n".toList (Token.scan "- # c\n-\n".toList).tokens ls ∧
        Event.ofDocument "- # c\n-\n".toList = .ok events ∧
        List.Forall₂ (Node.Follows "- # c\n-\n".toList ls)
          (Event.scalarsBehind "- # c\n-\n".toList events) root.scalars := by
  obtain ⟨root, hroot, hplace⟩ := exists_ok_of_any
    (x := Node.ofText (SourceMap.ofText "- # c\n-\n".toList))
    (P := fun root => (root.scalars.map Node.start)[1]? = some ⟨1, 1⟩) (by decide +kernel)
  exact ⟨root, hroot, hplace, Node.missing_behind_indicator_iff hroot⟩

/-- **A missing item in front of a comment** is behind the comment, and not behind its dash. -/
theorem Node.missing_behind_comment :
    ∃ root n, Node.ofText (SourceMap.ofText "- # c\n-\n".toList) = .ok root ∧
      root.descendant? [0, 0, 0] = some n ∧
      n.IsMissingAt (SourceMap.ofText "- # c\n-\n".toList) 5 ∧
      ¬ n.IsMissingAt (SourceMap.ofText "- # c\n-\n".toList) 1 := by
  obtain ⟨root, hroot, hat⟩ := exists_ok_of_any
    (x := Node.ofText (SourceMap.ofText "- # c\n-\n".toList))
    (P := fun root => (root.descendant? [0, 0, 0]).map (fun n => (n.kind, n.start, n.stop)) =
      some (.scalar [], ⟨0, 5⟩, ⟨0, 5⟩)) (by decide +kernel)
  obtain ⟨n, hn, hplace⟩ := Option.map_eq_some_iff.mp hat
  obtain ⟨hkind, hstart, hstop⟩ : n.kind = .scalar [] ∧ n.start = ⟨0, 5⟩ ∧ n.stop = ⟨0, 5⟩ := by
    simpa using hplace
  refine ⟨root, n, hroot, hn, ⟨hkind, hstart, hstop⟩, fun hmissing => ?_⟩
  exact absurd (hstart.symm.trans hmissing.start) (by decide +kernel)

end YamlEdit
