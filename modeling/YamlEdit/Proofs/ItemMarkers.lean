import Mathlib.Data.Bool.AllAny
import YamlEdit.Proofs.EventDashes
import YamlEdit.Proofs.MissingValues
import YamlEdit.Proofs.PlanOffsets

/-!
# Where the dashes of items are found

The dash of an item is looked for backwards from where the item starts: over white space, and over
words that start like an anchor or a tag. A word that ends with a dash is not stepped over, and
neither is a comment. So the dash that introduces the item is found exactly if nothing but white
space and such words stands between the two (`Extent.LeadsTo`). Which dash introduces an item is
what the event parser says of its event (`Snapshot.Introduces`).

Main statement: `Snapshot.item_marked_iff`.
-/

namespace YamlEdit

open Text

namespace Extent

/-- A word that starts like an anchor or a tag and does not end with a dash. -/
structure IsProperty (word : Text) : Prop where
  mark : isPropertyMark (word.headD ' ') = true
  ink : ∀ c ∈ word, isBlank c = false
  undashed : word.getLast? ≠ some '-'

/-- What the search for a dash goes back over: white space, with properties in it that stand behind
white space of one byte. -/
inductive PropertyGap : Text → Prop where
  | blanks {gap : Text} (h : ∀ c ∈ gap, isBlank c = true) : PropertyGap gap
  | property {gap word blanks : Text} {b : Char} (front : PropertyGap (gap ++ [b]))
      (blank : isBlank b = true) (narrow : b.utf8Size = 1) (property : IsProperty word)
      (behind : ∀ c ∈ blanks, isBlank c = true) : PropertyGap (gap ++ b :: (word ++ blanks))

section Search

variable {source before x y gap word rest : Text} {fuel place d : Nat}

theorem itemMarkerFrom_of_dash (h : before.dropWhile isBlank = '-' :: rest) (y : Text)
    (fuel : Nat) :
    itemMarkerFrom (before.reverse ++ y) (fuel + 1) (size before) = .ok (some (size rest)) := by
  have hone : size ('-' :: rest) - 1 = size rest := by
    rw [size_cons, show Char.utf8Size '-' = 1 from rfl]
    omega
  rw [itemMarkerFrom_succ, h, List.headD_cons, if_pos rfl, hone]

/-- The search goes on in front of a property. -/
theorem itemMarkerFrom_of_lastWord (hdash : (before.dropWhile isBlank).headD ' ' ≠ '-')
    (hword : LastWord (before.dropWhile isBlank) word rest) (y : Text) (fuel : Nat) :
    itemMarkerFrom (before.reverse ++ y) (fuel + 1) (size before) = .ok (some d) ↔
      (∀ c ∈ rest.head?, c.utf8Size = 1) ∧ isPropertyMark (word.headD ' ') = true ∧
        itemMarkerFrom (before.reverse ++ y) fuel (size rest) = .ok (some d) := by
  rw [itemMarkerFrom_succ, if_neg hdash]
  dsimp only
  rcases dropBytes_lastWordStart hword with ⟨hstart, hone, hdrop⟩ | ⟨⟨c, hc, hwide⟩, b, hdrop⟩
  · rw [hdrop, ok_bind, hstart, and_iff_right hone]
    split
    · next hmark => rw [and_iff_right hmark]
    · next hmark => exact ⟨nofun, fun h => absurd h.1 hmark⟩
  · rw [hdrop]
    refine ⟨nofun, fun h => ?_⟩
    have := h.1 c hc
    omega

/-- Whether the last word ends with a dash is what the search looks at first. -/
theorem headD_lastWord_eq_dash_iff (h : LastWord before word rest) (hword : word ≠ []) :
    before.headD ' ' = '-' ↔ word.getLast? = some '-' := by
  obtain ⟨front, c, rfl⟩ := (List.eq_nil_or_concat word).resolve_left hword
  rw [h.split, List.concat_eq_append, List.reverse_concat, List.getLast?_concat]
  simp

/-- Behind a dash, a property with white space around it is the last word. -/
theorem lastWord_of_property {blanks : Text} {b : Char} (gap rest : Text) (hb : isBlank b = true)
    (hword : IsProperty word) (hblanks : ∀ c ∈ blanks, isBlank c = true) :
    LastWord (((gap ++ b :: (word ++ blanks)).reverse ++ rest).dropWhile isBlank) word
      ((gap ++ [b]).reverse ++ rest) := by
  refine ⟨?_, hword.ink, by simpa using hb⟩
  obtain ⟨front, c, rfl⟩ := (List.eq_nil_or_concat word).resolve_left
    (ne_nil_of_isPropertyMark hword.mark)
  have hc : isBlank c = false := hword.ink c (by simp)
  have hreverse : (gap ++ b :: (front.concat c ++ blanks)).reverse ++ rest =
      blanks.reverse ++ ((front.concat c).reverse ++ ((gap ++ [b]).reverse ++ rest)) := by
    simp
  rw [hreverse, List.dropWhile_append_of_pos fun d hd => hblanks d (List.mem_reverse.mp hd),
    List.concat_eq_append, List.reverse_concat, List.cons_append]
  exact List.dropWhile_cons_of_neg (by rw [hc]; decide)

/-- A property in front of which there is a dash, as far as the search goes. -/
theorem exists_gap_of_lastWord (hdash : (before.dropWhile isBlank).headD ' ' ≠ '-')
    (hword : LastWord (before.dropWhile isBlank) word rest)
    (hone : ∀ c ∈ rest.head?, c.utf8Size = 1) (hmark : isPropertyMark (word.headD ' ') = true)
    (hrest : rest.reverse = x ++ '-' :: gap) (hgap : PropertyGap gap) :
    ∃ gap', before.reverse = x ++ '-' :: gap' ∧ PropertyGap gap' := by
  obtain rfl : rest = gap.reverse ++ '-' :: x.reverse := by
    rw [← List.reverse_reverse rest, hrest]
    simp
  -- a dash is no white space, so there is some between it and the word
  obtain ⟨gap, b, rfl⟩ := (List.eq_nil_or_concat gap).resolve_left (by
    rintro rfl
    exact absurd (hword.blank '-' rfl) (by decide))
  rw [List.concat_eq_append] at hgap
  have hundashed : word.getLast? ≠ some '-' :=
    mt (headD_lastWord_eq_dash_iff hword (ne_nil_of_isPropertyMark hmark)).mpr hdash
  refine ⟨gap ++ b :: (word ++ (before.takeWhile isBlank).reverse), ?_,
    .property hgap (hword.blank b (by simp)) (hone b (by simp)) ⟨hmark, hword.word, hundashed⟩
      fun c hc => List.all_eq_true.mp List.all_takeWhile c (List.mem_reverse.mp hc)⟩
  have hsplit : before.takeWhile isBlank ++ before.dropWhile isBlank = before :=
    List.takeWhile_append_dropWhile
  rw [hword.split] at hsplit
  conv_lhs => rw [← hsplit]
  simp

/-- If the search finds a dash, it has gone back over properties. -/
theorem exists_gap_of_itemMarkerFrom (hfuel : before.length < fuel) (y : Text)
    (h : itemMarkerFrom (before.reverse ++ y) fuel (size before) = .ok (some d)) :
    ∃ x gap, before.reverse = x ++ '-' :: gap ∧ size x = d ∧ PropertyGap gap := by
  induction fuel generalizing before y with
  | zero => cases h
  | succ fuel ih =>
      by_cases hdash : (before.dropWhile isBlank).headD ' ' = '-'
      · obtain ⟨rest, hrest⟩ : ∃ rest, before.dropWhile isBlank = '-' :: rest := by
          cases hhead : before.dropWhile isBlank with
          | nil =>
              rw [hhead] at hdash
              cases hdash
          | cons c rest =>
              rw [hhead] at hdash
              exact ⟨rest, by rw [show c = '-' from hdash]⟩
        rw [itemMarkerFrom_of_dash hrest] at h
        refine ⟨rest.reverse, (before.takeWhile isBlank).reverse, ?_, ?_, .blanks fun c hc => ?_⟩
        · have hsplit : before.takeWhile isBlank ++ before.dropWhile isBlank = before :=
            List.takeWhile_append_dropWhile
          conv_lhs => rw [← hsplit, hrest]
          simp
        · rw [size_reverse]
          exact Option.some.inj (Except.ok.inj h)
        · exact List.all_eq_true.mp List.all_takeWhile c (List.mem_reverse.mp hc)
      · obtain ⟨word, rest, hword⟩ := exists_lastWord (before.dropWhile isBlank)
        obtain ⟨hone, hmark, h⟩ := (itemMarkerFrom_of_lastWord hdash hword y fuel).mp h
        obtain ⟨z, hz, hlt⟩ := hword.append y
        have hshorter := hlt (ne_nil_of_isPropertyMark hmark)
        rw [hz] at h
        obtain ⟨x, gap, hx, hd, hgap⟩ := ih (by omega) z h
        obtain ⟨gap', hbefore, hgap'⟩ := exists_gap_of_lastWord hdash hword hone hmark hx hgap
        exact ⟨x, gap', hbefore, hd, hgap'⟩

/-- Over properties the search goes back to a dash. -/
theorem itemMarkerFrom_of_gap (hgap : PropertyGap gap) (x y : Text)
    (hfuel : (gap.reverse ++ '-' :: x.reverse).length < fuel) :
    itemMarkerFrom ((gap.reverse ++ '-' :: x.reverse).reverse ++ y) fuel
      (size (gap.reverse ++ '-' :: x.reverse)) = .ok (some (size x)) := by
  induction hgap generalizing y fuel with
  | @blanks gap hblank =>
      obtain ⟨fuel, rfl⟩ : ∃ k, fuel = k + 1 := ⟨fuel - 1, by omega⟩
      have hhead : (gap.reverse ++ '-' :: x.reverse).dropWhile isBlank = '-' :: x.reverse := by
        rw [List.dropWhile_append_of_pos fun c hc => hblank c (List.mem_reverse.mp hc)]
        exact List.dropWhile_cons_of_neg (by decide)
      rw [itemMarkerFrom_of_dash hhead, size_reverse]
  | @property gap word blanks b _ hb hone hword hblanks ih =>
      obtain ⟨fuel, rfl⟩ : ∃ k, fuel = k + 1 := ⟨fuel - 1, by omega⟩
      have hne := ne_nil_of_isPropertyMark hword.mark
      have hlast := lastWord_of_property gap ('-' :: x.reverse) hb hword hblanks
      have hdash := mt (headD_lastWord_eq_dash_iff hlast hne).mp hword.undashed
      refine (itemMarkerFrom_of_lastWord hdash hlast y fuel).mpr
        ⟨by simpa using hone, hword.mark, ?_⟩
      obtain ⟨z, hz, hlt⟩ := hlast.append y
      have hshorter := hlt hne
      rw [hz]
      exact ih z (by omega)

/-- **What is found**: the dash from which nothing but white space and properties leads to the
place. -/
theorem itemMarker_eq_iff (h : source.IsBoundary place) :
    itemMarker source place = .ok (some d) ↔
      ∃ x gap y, source = x ++ '-' :: (gap ++ y) ∧ size x = d ∧ size (x ++ '-' :: gap) = place ∧
        PropertyGap gap := by
  obtain ⟨front, y, rfl, rfl⟩ := h
  have hfuel : front.reverse.length < (front ++ y).length + 1 := by
    rw [List.length_reverse, List.length_append]
    omega
  rw [itemMarker]
  constructor
  · intro h
    obtain ⟨x, gap, hx, hd, hgap⟩ := exists_gap_of_itemMarkerFrom hfuel y
      (by rwa [List.reverse_reverse, size_reverse])
    rw [List.reverse_reverse] at hx
    obtain rfl := hx
    exact ⟨x, gap, y, by simp, hd, rfl, hgap⟩
  · rintro ⟨x, gap, z, hsplit, rfl, hsize, hgap⟩
    have hsplit' : (x ++ '-' :: gap) ++ z = front ++ y := by
      rw [hsplit]
      simp
    obtain ⟨rfl, -⟩ := append_inj_of_size hsplit' hsize
    have hreverse : (gap.reverse ++ '-' :: x.reverse).reverse = x ++ '-' :: gap := by simp
    rw [← hreverse, List.reverse_reverse] at hfuel
    have hfound := itemMarkerFrom_of_gap hgap x y hfuel
    rwa [← size_reverse, hreverse] at hfound

/-- An anchor and a tag are stepped over. -/
example : itemMarker "- &x !!str a\n".toList 11 = .ok (some 0) := by rfl

/-- Nothing but white space and properties stands between the dash that is character number `first`
and a place. -/
def LeadsTo (source : Text) (first place : Nat) : Prop :=
  ∃ gap, gap <+: source.drop (first + 1) ∧ PropertyGap gap ∧
    size (source.take (first + 1) ++ gap) = place

/-- The same for a dash that is known. -/
theorem itemMarker_eq_dash_iff (h : source.IsBoundary place) {first : Nat}
    (hdash : source[first]? = some '-') :
    itemMarker source place = .ok (some (size (source.take first))) ↔
      LeadsTo source first place := by
  obtain ⟨front, behind, hsource, htake, htake', hdrop⟩ := Node.exists_parts hdash
  rw [itemMarker_eq_iff h, LeadsTo, htake, htake', hdrop]
  constructor
  · rintro ⟨x, gap, y, hsplit, hsize, hplace, hgap⟩
    obtain ⟨rfl, hrest⟩ := append_inj_of_size (hsource.symm.trans hsplit) hsize.symm
    obtain rfl := List.tail_eq_of_cons_eq hrest
    exact ⟨gap, List.prefix_append _ _, hgap, by rw [← hplace, List.append_assoc]; rfl⟩
  · rintro ⟨gap, ⟨y, rfl⟩, hgap, hplace⟩
    exact ⟨front, gap, y, hsource, rfl, by rw [← hplace, List.append_assoc]; rfl, hgap⟩

end Search

end Extent

/-! ## The items of a text -/

/-- The events of a node start with one that does not close anything. -/
theorem Event.exists_first {m : SourceMap} {labels : Event.Labels} {events : List (Event × Span)}
    {o : Outline} {v : List Sign} (h : Event.signs m labels events = o.signs ++ v) :
    ∃ z rest, events = z :: rest ∧ z.1.closes = false := by
  have hfits := Event.fits_signs m labels events
  rw [h] at hfits
  cases o
  all_goals
    rw [Outline.signs, List.cons_append] at hfits
    obtain ⟨⟨e, span⟩, rest, ⟨look, hsign⟩, -, rfl⟩ := List.forall₂_cons_right_iff.mp hfits
    refine ⟨_, rest, rfl, ?_⟩
    cases e <;> first | rfl | cases hsign

namespace Snapshot

/-- What is at an address is a sequence without brackets, so its items have dashes. -/
def HasDashes (s : Snapshot) (events : List (Event × Span)) (a : Address) : Prop :=
  ∃ y, s.eventAt? events a = some y ∧ Event.isDashed s.source y = true

/-- What is at an address is an item that a dash introduces, a token with its characters. -/
structure Introduces (s : Snapshot) (ls : List Lexeme) (events : List (Event × Span)) (l : Lexeme)
    (a : Address) : Prop where
  item : l.token.item = .blockEntry
  indicates : l.Indicates s.source '-'
  event : ∃ z k, s.eventAt? events a = some z ∧ ls[k]? = some l ∧
    (Event.dashes (Token.scan s.source))[(s.outline.before a).length]? = some (some k) ∧
    EventReader.IntroducedBy (Token.scan s.source).tokens z k

section Items

variable {source : Text} {s : Snapshot} {events : List (Event × Span)} {ls : List Lexeme}
  {a : Address} {i : Nat} {n item : Node}

/-- A sequence that is taken for a block has no brackets. -/
theorem hasDashes_of_block (h : Snapshot.ofText source = .ok s)
    (hevents : Event.ofDocument source = .ok events) (hn : s.tree.root.descendant? a = some n)
    (hblock : n.kind = .sequence .block) : s.HasDashes events a := by
  have hat := Node.at?_of_descendant? (sound_of_ofText h).tree.regular hn
  obtain ⟨kind, start, stop, anchor, children⟩ := n
  obtain rfl : kind = .sequence .block := hblock
  obtain ⟨_, ⟨e, span⟩, _, -, hy, -, labels, hsign⟩ := split_at h hevents hat
  refine ⟨_, hy, ?_⟩
  rw [source_of_ofText h]
  obtain ⟨look, hlook⟩ := Event.fits_signIn (SourceMap.ofText source) labels (e, span)
  have hopener : e.sign look = .opening (TreeBuilder.bracketOf false .block) :=
    hlook.symm.trans hsign
  obtain ⟨n, hn, -⟩ := TreeBuilder.opener_of_sign hopener
  obtain rfl : e = .sequenceStart n := hn
  cases hbracketed : Event.isBracketed source (.sequenceStart n, span) with
  | false =>
      rw [Event.isDashed, hbracketed]
      rfl
  | true =>
      cases style_of_isBracketed hsign hbracketed

/-- In front of an item, its sequence is the innermost collection that is open. -/
theorem opened_before_item {front : List (Event × Span)} {rest : List (Event × Span)} {x : Outline}
    (hat : s.outline.at? (a ++ [i]) = some x) (hdashes : s.HasDashes (front ++ rest) a)
    (hfits : List.Forall₂ Event.Fits front (s.outline.before (a ++ [i]))) :
    (Event.pushAll (Event.isDashed s.source) [] front).head? = some true := by
  obtain ⟨o, ho⟩ := Outline.at?_of_append hat
  rw [Outline.at?_append ho] at hat
  obtain ⟨bracket, l, child, rfl, -, -⟩ := Outline.at?_cons_eq_some.mp hat
  rw [Outline.before_append ho] at hfits
  obtain ⟨before, inner, rfl, hbefore, hinner⟩ := Event.append_of_fits hfits
  have hparts := hinner
  rw [Outline.before_child] at hparts
  obtain ⟨y, inner, ⟨look, hsign⟩, -, rfl⟩ := List.forall₂_cons_right_iff.mp hparts
  obtain ⟨y', hy, hdashed⟩ := hdashes
  rw [List.append_assoc, List.cons_append, eventAt?_append hbefore] at hy
  obtain rfl := Option.some.inj hy
  have hstyle : bracket.style?.isSome = true := by
    obtain ⟨n, hn⟩ := Event.sequenceStart_of_isDashed hdashed
    rw [hn] at hsign
    cases bracket <;> first | rfl | cases hsign
  rw [Event.pushAll_append, Event.pushAll_before_child hinner hstyle, hdashed]
  rfl

/-- **Every item of a sequence without brackets is introduced by a dash.** -/
theorem exists_introduces (h : Snapshot.ofText source = .ok s)
    (hevents : Event.ofDocument source = .ok events)
    (hrow : Lexeme.Row source (Token.scan source).tokens ls) {x : Outline}
    (hat : s.outline.at? (a ++ [i]) = some x) (hdashes : s.HasDashes events a) :
    ∃ l, s.Introduces ls events l (a ++ [i]) := by
  have hsource := source_of_ofText h
  obtain ⟨front, rest, labels, rfl, hfits, hsigns⟩ := events_at h hevents hat
  have hopened := opened_before_item hat hdashes hfits
  obtain ⟨z, rest, rfl, hcloses⟩ := Event.exists_first hsigns
  rw [hsource] at hopened
  obtain ⟨k, hk, hby⟩ := (Event.introduced_of_ofDocument hevents).2 rfl hopened hcloses
  obtain ⟨t, ht, hitem⟩ := hby.exists_dash
  rw [← hrow.tokens, List.getElem?_map] at ht
  obtain ⟨l, hl, rfl⟩ := Option.map_eq_some_iff.mp ht
  have hwritten := (hrow.fits l (List.mem_of_getElem? hl)).written
  rw [Lexeme.Written, hitem] at hwritten
  refine ⟨l, hitem, hsource ▸ hwritten.1, z, k, eventAt?_append hfits, hl, ?_, ?_⟩
  · rw [hsource, ← hfits.length_eq]
    exact hk
  · rw [hsource]
    exact hby

/-- **Where the dash of an item is found**: exactly where nothing but white space and properties
stands between the dash that introduces the item and the place where the item starts. -/
theorem item_marked_iff (h : Snapshot.ofText source = .ok s) :
    ∃ events, Event.ofDocument source = .ok events ∧
      (Event.dashes (Token.scan source)).reduceOption.Pairwise (· < ·) ∧
      (∃ ls, Lexeme.Row source (Token.scan source).tokens ls) ∧
      ∀ {ls a n i item}, Lexeme.Row source (Token.scan source).tokens ls →
        s.tree.root.descendant? a = some n → n.children[i]? = some item →
        n.kind = .sequence .block ∨ s.HasDashes events a →
          ∃ l, s.Introduces ls events l (a ++ [i]) ∧
            (Extent.itemMarker s.source (s.startOf item) =
                .ok (some (size (s.source.take l.first))) ↔
              Extent.LeadsTo s.source l.first (s.startOf item)) := by
  obtain ⟨events, -, hevents, -, -⟩ := Snapshot.ofText_eq_ok h
  refine ⟨events, hevents, (Event.introduced_of_ofDocument hevents).1, Token.scan_laid source,
    fun {ls a n i item} hrow hn hitem hsequence => ?_⟩
  have hs := Snapshot.within_of_ofText h
  have hregular := hs.sound.tree.regular
  have hdashes : s.HasDashes events a := hsequence.elim (hasDashes_of_block h hevents hn) id
  have hchild := Node.descendant?_concat hn hitem
  obtain ⟨l, hl⟩ := exists_introduces h hevents hrow (Node.at?_of_descendant? hregular hchild)
    hdashes
  refine ⟨l, hl, Extent.itemMarker_eq_dash_iff ?_ hl.indicates.char⟩
  rw [hs.source_eq]
  exact hs.startOf ⟨_, hchild⟩

end Items

/-- Behind an anchor and a tag the dash is found. -/
theorem item_marked_iff_behind_properties :
    ∃ s n item ls events l, Snapshot.ofText "- &a !t x\n".toList = .ok s ∧
      s.tree.root.descendant? [0, 0] = some n ∧ n.kind = .sequence .block ∧
      n.children[0]? = some item ∧ s.Introduces ls events l [0, 0, 0] ∧
      Extent.itemMarker s.source (s.startOf item) = .ok (some (size (s.source.take l.first))) := by
  obtain ⟨e, hload, hitem⟩ := Editor.exists_load "- &a !t x\n".toList
    (P := fun e => ((e.snapshot.tree.root.descendant? [0, 0]).bind fun n =>
      n.children[0]?.map fun item => (n.kind, e.snapshot.startOf item)) =
        some (.sequence .block, 8)) (by decide +kernel)
  have hs := (Editor.load_eq_ok hload).1
  obtain ⟨n, hn, hitem⟩ := Option.bind_eq_some_iff.mp hitem
  obtain ⟨item, hchild, hpair⟩ := Option.map_eq_some_iff.mp hitem
  obtain ⟨hblock, hstart⟩ := Prod.mk.inj hpair
  obtain ⟨events, -, -, ⟨ls, hrow⟩, hitems⟩ := item_marked_iff hs
  obtain ⟨l, hl, hfound⟩ := hitems hrow hn hchild (.inl hblock)
  -- there is only one dash in the text
  have hfirst : l.first = 0 := by
    have hchar := hl.indicates.char
    rw [source_of_ofText hs] at hchar
    have honly : ∀ j < 10, "- &a !t x\n".toList[j]? = some '-' → j = 0 := by decide
    exact honly _ (List.getElem?_eq_some_iff.mp hchar).1 hchar
  have hanchor : Extent.PropertyGap " &a ".toList :=
    @Extent.PropertyGap.property [] "&a".toList [' '] ' '
      (.blanks (List.all_iff_forall_prop.mp rfl)) rfl rfl
      ⟨rfl, List.all_iff_forall_prop.mp rfl, by decide⟩ (List.all_iff_forall_prop.mp rfl)
  have htag : Extent.PropertyGap " &a !t ".toList :=
    @Extent.PropertyGap.property " &a".toList "!t".toList [' '] ' ' hanchor rfl rfl
      ⟨rfl, List.all_iff_forall_prop.mp rfl, by decide⟩ (List.all_iff_forall_prop.mp rfl)
  refine ⟨e.snapshot, n, item, ls, events, l, hs, hn, hblock, hchild, hl, hfound.mpr ?_⟩
  rw [source_of_ofText hs, hfirst, hstart]
  exact ⟨" &a !t ".toList, by decide, htag, by decide⟩

/-- **An anchor that ends with a dash** is where the search stops. -/
theorem item_mark_in_anchor :
    ∃ s n item ls events l, Snapshot.ofText "- &a- x\n".toList = .ok s ∧
      s.tree.root.descendant? [0, 0] = some n ∧ n.kind = .sequence .block ∧
      n.children[0]? = some item ∧ item.anchor = some "a-".toList ∧
      Lexeme.Row "- &a- x\n".toList (Token.scan "- &a- x\n".toList).tokens ls ∧
      Event.ofDocument "- &a- x\n".toList = .ok events ∧
      s.Introduces ls events l [0, 0, 0] ∧ l.first = 0 ∧
      Extent.itemMarker s.source (s.startOf item) = .ok (some 4) := by
  obtain ⟨e, hload, hitem⟩ := Editor.exists_load "- &a- x\n".toList
    (P := fun e => ((e.snapshot.tree.root.descendant? [0, 0]).bind fun n =>
      n.children[0]?.map fun item => (n.kind, item.anchor, e.snapshot.startOf item)) =
        some (.sequence .block, some "a-".toList, 6)) (by decide +kernel)
  have hs := (Editor.load_eq_ok hload).1
  have hsource := source_of_ofText hs
  obtain ⟨n, hn, hitem⟩ := Option.bind_eq_some_iff.mp hitem
  obtain ⟨item, hchild, hpair⟩ := Option.map_eq_some_iff.mp hitem
  obtain ⟨hblock, hpair⟩ := Prod.mk.inj hpair
  obtain ⟨hanchor, hstart⟩ := Prod.mk.inj hpair
  obtain ⟨ls, hrow⟩ := Token.scan_laid "- &a- x\n".toList
  obtain ⟨events, -, hevents, -, -⟩ := Snapshot.ofText_eq_ok hs
  have hregular := (Snapshot.sound_of_ofText hs).tree.regular
  obtain ⟨l, hl⟩ := exists_introduces hs hevents hrow
    (Node.at?_of_descendant? hregular (Node.descendant?_concat hn hchild))
    (hasDashes_of_block hs hevents hn hblock)
  -- the token of the dash is marked in front of the anchor
  have hfirst : l.first = 0 := by
    obtain ⟨_, k, -, hk, -⟩ := hl.event
    have hmem := List.mem_of_getElem? hk
    have hwritten := (hrow.fits l hmem).written
    rw [Lexeme.Written, hl.item] at hwritten
    have hplaces : ∀ t ∈ (Token.scan "- &a- x\n".toList).tokens,
        t.item = .blockEntry → t.span.start.index = 2 := by decide +kernel
    have hstop := hplaces l.token (hrow.tokens ▸ List.mem_map_of_mem hmem) hl.item
    have hlt := hl.indicates.wide
    have hchar := hl.indicates.char
    rw [hsource] at hchar
    have hfront : ∀ j < 2, "- &a- x\n".toList[j]? = some '-' → j = 0 := by decide
    exact hfront _ (by omega) hchar
  exact ⟨e.snapshot, n, item, ls, events, l, hs, hn, hblock, hchild, hanchor, hrow, hevents, hl,
    hfirst, by rw [hsource, hstart]; rfl⟩

end Snapshot

end YamlEdit
