import Mathlib.Data.List.Chain
import YamlEdit.Proofs.Scanning

/-!
# The order of tokens

A collection that has no brackets of its own is announced by a token without a text: it starts where
its first entry does. That token is put into the queue together with one of the entry, so it is
never followed by a token that closes a collection (`Located.Follows`). The queue is only in order
between two tokens of the text, and the parts of a step are followed with what holds between them
(`Scan.Keeps`).

Main statement: `Token.scan_ordered`, for the tokens of a document, which also says where the names
of anchors and aliases and the brackets of collections are written.
-/

namespace YamlEdit

/-- Whether a token closes a collection. -/
def Token.closes : Token → Bool
  | .blockEnd | .flowSequenceEnd | .flowMappingEnd => true
  | _ => false

/-- The name that an anchor gives to its node. -/
def Token.anchorName? : Token → Option Text
  | .anchor name => some name
  | _ => none

/-- Whether a token neither opens nor closes a collection, and names no anchor. The dash of an item
may open one. -/
def Token.isNeutral : Token → Bool
  | .blockSequenceStart | .blockMappingStart | .flowSequenceStart | .flowMappingStart => false
  | .blockEntry => false
  | .blockEnd | .flowSequenceEnd | .flowMappingEnd => false
  | .anchor _ | .aliasTo _ => false
  | _ => true

namespace Located

/-- Whether a token announces a collection without being its bracket. -/
def Announces (doc : Text) (t : Located Token) : Prop :=
  match t.item with
  | .blockSequenceStart | .blockMappingStart => True
  | .flowSequenceStart => (doc.drop t.span.start.index).head? ≠ some '['
  | .flowMappingStart => (doc.drop t.span.start.index).head? ≠ some '\x7b'
  | _ => False

/-- What may stand behind a token: an announced collection is not closed at once. -/
def Follows (doc : Text) (t next : Located Token) : Prop :=
  t.Announces doc → next.item.closes = false

/-- Whether a token has characters of the text. -/
def IsWide (t : Located Token) : Prop := t.span.start.index < t.span.stop.index

/-- The names of anchors and aliases are written at their marks, up to the first character that no
name can hold. So are the brackets of collections, except that a mapping in brackets may be
announced without its own. What opens a block has no text. -/
def Written (doc : Text) (t : Located Token) : Prop :=
  match t.item with
  | .anchor name => name ≠ [] ∧ ∃ rest, doc.drop t.span.start.index = '&' :: rest ∧
      rest.takeWhile Token.isAnchorChar = name
  | .aliasTo name => name ≠ [] ∧ ∃ rest, doc.drop t.span.start.index = '*' :: rest ∧
      rest.takeWhile Token.isAnchorChar = name
  | .flowSequenceStart => t.IsWide ∧ (doc.drop t.span.start.index).head? = some '['
  | .flowMappingStart => t.IsWide → (doc.drop t.span.start.index).head? = some '\x7b'
  | .blockSequenceStart | .blockMappingStart | .blockEntry => ¬ t.IsWide
  | _ => True

/-- Whether a token neither opens nor closes a collection, and names no anchor. -/
def IsNeutral (t : Located Token) : Prop := t.item.isNeutral = true

theorem not_announces_of_isNeutral {doc : Text} {t : Located Token} (h : t.IsNeutral) :
    ¬ t.Announces doc := by
  obtain ⟨span, item⟩ := t
  cases item <;> first | exact id | cases h

theorem closes_of_isNeutral {t : Located Token} (h : t.IsNeutral) :
    t.item.closes = false := by
  obtain ⟨span, item⟩ := t
  cases item <;> first | rfl | cases h

theorem written_of_isNeutral {doc : Text} {t : Located Token} (h : t.IsNeutral) :
    t.Written doc := by
  obtain ⟨span, item⟩ := t
  cases item with
  | blockSequenceStart | blockMappingStart | blockEntry | blockEnd => cases h
  | flowSequenceStart | flowMappingStart | flowSequenceEnd | flowMappingEnd => cases h
  | anchor name | aliasTo name => cases h
  | _ => trivial

theorem not_isWide_empty (mark : Mark) (token : Token) :
    ¬ IsWide ⟨Span.empty mark, token⟩ :=
  Nat.lt_irrefl mark.index

end Located

namespace Scanner

/-- What the tokens so far have to do with the document; those in `front` have been handed out. -/
structure Ordered (doc : Text) (front : List (Located Token)) (s : Scanner) : Prop where
  place : s.rest = doc.drop s.mark.index
  chain : (front ++ s.queue).IsChain (Located.Follows doc)
  written : ∀ t ∈ front ++ s.queue, t.Written doc
  /-- There is a first token, and it is no anchor. -/
  first : ∃ t rest, front ++ s.queue = t :: rest ∧ t.item.anchorName? = none

/-- The last token announces nothing, so that the next one may be any. -/
structure Settled (doc : Text) (front : List (Located Token)) (s : Scanner) : Prop
    extends s.Ordered doc front where
  last : ∀ t ∈ (front ++ s.queue).getLast?, ¬ t.Announces doc

/-- What is settled when the scanner has come as far as the given index. -/
structure Reaches (doc : Text) (front : List (Located Token)) (n : Nat) (s : Scanner) : Prop
    extends s.Settled doc front where
  index : n ≤ s.mark.index

/-- Token number `n`, if there is one, closes nothing, so any token may be put in front of it. -/
structure Spaced (doc : Text) (front : List (Located Token)) (n : Nat) (s : Scanner) : Prop
    extends s.Ordered doc front where
  gap : ∀ t ∈ s.queue[n - s.taken]?, t.item.closes = false

section Ordered

variable {doc : Text} {front : List (Located Token)} {s s' : Scanner} {t : Located Token} {n : Nat}

theorem Ordered.advance (h : s.Ordered doc front) (hs : s.Advances s') : s'.Ordered doc front := by
  obtain ⟨⟨k, hrest, hindex⟩, hqueue, -⟩ := hs
  refine ⟨?_, by rw [hqueue]; exact h.chain, by rw [hqueue]; exact h.written,
    by rw [hqueue]; exact h.first⟩
  rw [hrest, hindex, h.place, List.drop_drop]

theorem Settled.advance (h : s.Settled doc front) (hs : s.Advances s') : s'.Settled doc front :=
  ⟨h.toOrdered.advance hs, by rw [hs.queue]; exact h.last⟩

theorem Reaches.advance (h : s.Reaches doc front n) (hs : s.Advances s') :
    s'.Reaches doc front n := by
  refine ⟨h.toSettled.advance hs, ?_⟩
  obtain ⟨⟨k, -, hindex⟩, -, -⟩ := hs
  rw [hindex]
  exact Nat.le_add_right_of_le h.index

theorem Spaced.advance (h : s.Spaced doc front n) (hs : s.Advances s') : s'.Spaced doc front n :=
  ⟨h.toOrdered.advance hs, by rw [hs.queue, hs.taken]; exact h.gap⟩

theorem Ordered.first_pushed (h : s.Ordered doc front) (t : Located Token) :
    ∃ x rest, front ++ (s.queue ++ [t]) = x :: rest ∧ x.item.anchorName? = none := by
  obtain ⟨x, rest, hx, hanchor⟩ := h.first
  exact ⟨x, rest ++ [t], by rw [← List.append_assoc, hx]; rfl, hanchor⟩

/-- A token that closes nothing may come behind any other one. -/
theorem Ordered.push (h : s.Ordered doc front) (hcloses : t.item.closes = false)
    (hwritten : t.Written doc) : (s.pushed t).Ordered doc front := by
  refine ⟨h.place, ?_, ?_, h.first_pushed t⟩
  · show (front ++ (s.queue ++ [t])).IsChain _
    rw [← List.append_assoc]
    refine h.chain.append (List.isChain_singleton t) fun x _ y hy _ => ?_
    obtain rfl : t = y := by simpa using hy
    exact hcloses
  · show ∀ x ∈ front ++ (s.queue ++ [t]), x.Written doc
    rw [← List.append_assoc]
    intro x hx
    rcases List.mem_append.mp hx with hx | hx
    · exact h.written x hx
    · rw [List.mem_singleton.mp hx]
      exact hwritten

/-- What is settled with a new last token. -/
theorem settled_of_push (h : (s.pushed t).Ordered doc front) (ht : ¬ t.Announces doc) :
    (s.pushed t).Settled doc front := by
  refine ⟨h, fun x hx => ?_⟩
  have hlast : (front ++ (s.queue ++ [t])).getLast? = some t := by
    rw [← List.append_assoc, List.getLast?_concat]
  obtain rfl : t = x := Option.some.inj (hlast.symm.trans hx)
  exact ht

/-- A neutral token may come behind any other one, and settles the queue. -/
theorem Ordered.push_neutral (h : s.Ordered doc front) (ht : t.IsNeutral) :
    (s.pushed t).Settled doc front :=
  settled_of_push (h.push (Located.closes_of_isNeutral ht) (Located.written_of_isNeutral ht))
    (Located.not_announces_of_isNeutral ht)

/-- Behind what is settled any token may come. -/
theorem Settled.push (h : s.Settled doc front) (ht : ¬ t.Announces doc)
    (hwritten : t.Written doc) : (s.pushed t).Settled doc front := by
  refine settled_of_push ⟨h.place, ?_, ?_, h.first_pushed t⟩ ht
  · show (front ++ (s.queue ++ [t])).IsChain _
    rw [← List.append_assoc]
    refine h.chain.append (List.isChain_singleton t) fun x hx y _ hannounces => ?_
    exact absurd hannounces (h.last x hx)
  · show ∀ x ∈ front ++ (s.queue ++ [t]), x.Written doc
    rw [← List.append_assoc]
    intro x hx
    rcases List.mem_append.mp hx with hx | hx
    · exact h.written x hx
    · rw [List.mem_singleton.mp hx]
      exact hwritten

/-- A token is put into the queue. It has to close nothing, and may announce a collection if what
comes behind it does not close one. -/
theorem Ordered.insert (h : s.Ordered doc front) (hcloses : t.item.closes = false)
    (hwritten : t.Written doc) (hanchor : t.item.anchorName? = none)
    (hgap : t.Announces doc → ∀ x ∈ s.queue[n - s.taken]?, x.item.closes = false) :
    (s.inserted n t).Spaced doc front n := by
  have hqueue : front ++ s.queue =
      (front ++ s.queue.take (n - s.taken)) ++ s.queue.drop (n - s.taken) := by
    rw [List.append_assoc, List.take_append_drop]
  have hchain := h.chain
  have hmem := h.written
  rw [hqueue] at hchain hmem
  obtain ⟨hleft, hright, -⟩ := List.isChain_append.mp hchain
  refine ⟨⟨h.place, ?_, ?_, ?_⟩, ?_⟩
  · show (front ++ (s.queue.take (n - s.taken) ++ t :: s.queue.drop (n - s.taken))).IsChain _
    rw [← List.append_assoc]
    refine hleft.append (hright.cons fun x hx hannounces => ?_) fun x _ y hy _ => ?_
    · rw [List.head?_drop] at hx
      exact hgap hannounces x hx
    · obtain rfl : t = y := by simpa using hy
      exact hcloses
  · show ∀ x ∈ front ++ (s.queue.take (n - s.taken) ++ t :: s.queue.drop (n - s.taken)), _
    intro x hx
    rw [← List.append_assoc, List.mem_append, List.mem_cons] at hx
    rcases hx with hx | rfl | hx
    · exact hmem x (List.mem_append_left _ hx)
    · exact hwritten
    · exact hmem x (List.mem_append_right _ hx)
  · show ∃ x rest, front ++ (s.queue.take (n - s.taken) ++ t :: s.queue.drop (n - s.taken)) = _ ∧ _
    obtain ⟨x, rest, hx, hxanchor⟩ := h.first
    rw [hqueue] at hx
    rw [← List.append_assoc]
    cases hhead : front ++ s.queue.take (n - s.taken) with
    | nil => exact ⟨t, _, rfl, hanchor⟩
    | cons y others =>
        rw [hhead] at hx
        cases hx
        exact ⟨x, _, rfl, hxanchor⟩
  · show ∀ x ∈ (s.queue.take (n - s.taken) ++ t :: s.queue.drop (n - s.taken))[n - s.taken]?, _
    intro x hx
    rcases Nat.lt_or_ge s.queue.length (n - s.taken) with hlt | hle
    · rw [List.take_of_length_le (by omega), List.drop_of_length_le (by omega)] at hx
      rw [List.getElem?_eq_none (by simp; omega)] at hx
      cases hx
    · rw [List.getElem?_append_right (List.length_take_le _ _), List.length_take_of_le hle,
        Nat.sub_self] at hx
      cases hx
      exact hcloses

end Ordered

end Scanner

namespace Scan

open Token

instance (doc : Text) (front : List (Located Token)) :
    Stable Scanner.Advances (Scanner.Ordered doc front) :=
  ⟨Scanner.Ordered.advance⟩

instance (doc : Text) (front : List (Located Token)) :
    Stable Scanner.Advances (Scanner.Settled doc front) :=
  ⟨Scanner.Settled.advance⟩

instance (doc : Text) (front : List (Located Token)) (n : Nat) :
    Stable Scanner.Advances (Scanner.Reaches doc front n) :=
  ⟨Scanner.Reaches.advance⟩

instance (doc : Text) (front : List (Located Token)) (n : Nat) :
    Stable Scanner.Advances (Scanner.Spaced doc front n) :=
  ⟨Scanner.Spaced.advance⟩

section Order

variable {α : Type} {doc : Text} {front : List (Located Token)} {n : Nat}

/-! ## Tokens without a text -/

theorem push_keeps {span : Span} {token : Token} (ht : token.isNeutral = true) :
    Keeps (Scanner.Ordered doc front) (Scanner.Settled doc front) (push span token) := by
  intro s a s' hs h
  cases h
  exact hs.push_neutral ht

theorem push_keeps_settled {span : Span} {token : Token}
    (ht : ¬ Located.Announces doc ⟨span, token⟩) (hwritten : Located.Written doc ⟨span, token⟩) :
    Keeps (Scanner.Settled doc front) (Scanner.Settled doc front) (push span token) := by
  intro s a s' hs h
  cases h
  exact hs.push ht hwritten

/-- The ends of blocks come behind what is settled. -/
theorem unrollIndent_keeps (column : Int) :
    Keeps (Scanner.Settled doc front) (Scanner.Settled doc front) (unrollIndent column) :=
  unrollIndent_keeps_of (fun _ _ h => h.advance ⟨⟨0, rfl, rfl⟩, rfl, rfl⟩)
    (fun h => h.push id trivial) column

/-- A block may be announced behind any token. -/
theorem rollIndent_keeps {column : Nat} {token : Token} {mark : Mark}
    (hcloses : token.closes = false) (hwritten : Located.Written doc ⟨Span.empty mark, token⟩) :
    Keeps (Scanner.Ordered doc front) (Scanner.Ordered doc front)
      (rollIndent column none token mark) := by
  refine rollIndent_keeps_of (fun _ _ h => h.advance ⟨⟨0, rfl, rfl⟩, rfl, rfl⟩) nofun fun _ => ?_
  intro s a s' hs h
  cases h
  exact hs.push hcloses hwritten

theorem insertAt_keeps {mark : Mark} {token : Token} (hcloses : token.closes = false)
    (hwritten : Located.Written doc ⟨Span.empty mark, token⟩) (hanchor : token.anchorName? = none) :
    Keeps (Scanner.Spaced doc front n) (Scanner.Spaced doc front n) (insertAt n mark token) := by
  intro s a s' hs h
  cases h
  exact hs.toOrdered.insert hcloses hwritten hanchor fun _ => hs.gap

/-- A block may be announced in front of a token that closes nothing. -/
theorem rollIndent_keeps_spaced {column : Nat} {token : Token} {mark : Mark}
    (hcloses : token.closes = false) (hwritten : Located.Written doc ⟨Span.empty mark, token⟩)
    (hanchor : token.anchorName? = none) :
    Keeps (Scanner.Spaced doc front n) (Scanner.Spaced doc front n)
      (rollIndent column (some n) token mark) :=
  rollIndent_keeps_of (fun _ _ h => h.advance ⟨⟨0, rfl, rfl⟩, rfl, rfl⟩)
    (fun _ h => Option.some.inj h ▸ insertAt_keeps hcloses hwritten hanchor) nofun

/-- A key is announced in front of any token. -/
theorem insertAt_key_keeps {mark : Mark} :
    Keeps (Scanner.Ordered doc front) (Scanner.Spaced doc front n) (insertAt n mark .key) := by
  intro s a s' hs h
  cases h
  exact hs.insert rfl trivial rfl fun h => nomatch h

/-! ## Tokens that neither open nor close -/

-- an instance is as large as the function that it is about
set_option synthInstance.maxSize 1000

/-- Whether a token is a scalar of the given style. -/
def IsScalar (style : ScalarStyle) (t : Located Token) : Prop := ∃ text, t.item = .scalar style text

theorem neutral_of_isScalar {style : ScalarStyle} {t : Located Token} (h : IsScalar style t) :
    t.IsNeutral := by
  obtain ⟨text, hitem⟩ := h
  rw [Located.IsNeutral, hitem]
  rfl

instance (span : Span) (style : ScalarStyle) (text : Text) :
    Gives (IsScalar style) (pure ⟨span, .scalar style text⟩) :=
  gives_pure ⟨text, rfl⟩

theorem Gives.neutral {x : Scan (Located Token)} {style : ScalarStyle}
    (hx : Gives (IsScalar style) x) : Gives Located.IsNeutral x where
  gives h := neutral_of_isScalar (hx.gives h)

theorem scanPlain_gives : Gives (IsScalar .plain) scanPlain := by unfold scanPlain; infer_instance

theorem scanQuoted_gives (single : Bool) :
    Gives (IsScalar (if single then .singleQuoted else .doubleQuoted)) (scanQuoted single) := by
  unfold scanQuoted; infer_instance

theorem scanBlock_gives (folded : Bool) :
    Gives (IsScalar (if folded then .folded else .literal)) (scanBlock folded) := by
  refine .last fun _ => .last fun _ => .last fun _ => .last fun _ => .last fun _ => .last fun _ =>
    .check fun _ => .last fun _ => .last fun _ => .last fun _ => .check fun _ => .last fun _ => ?_
  split <;> infer_instance

instance : Gives Located.IsNeutral scanPlain := scanPlain_gives.neutral

instance (single : Bool) : Gives Located.IsNeutral (scanQuoted single) :=
  (scanQuoted_gives single).neutral

instance (folded : Bool) : Gives Located.IsNeutral (scanBlock folded) :=
  (scanBlock_gives folded).neutral

/-- A tag is marked at its first character. -/
theorem scanTag_eq {s s' : Scanner} {t : Located Token} (h : scanTag s = .ok (t, s')) :
    t.span.start = s.mark ∧ ∃ handle rest, t.item = .tag handle rest := by
  have hpure : ∀ stop handle rest, Gives
      (fun t : Located Token => t.span.start = s.mark ∧ ∃ handle rest, t.item = .tag handle rest)
      (pure ⟨⟨s.mark, stop⟩, .tag handle rest⟩) := fun _ _ _ => gives_pure ⟨rfl, _, _, rfl⟩
  unfold scanTag at h
  obtain ⟨_, _, hmark, h⟩ := stateful_bind_eq_ok.mp h
  cases hmark
  refine Gives.of_run (P := fun t => t.span.start = s.mark ∧
    ∃ handle rest, t.item = .tag handle rest) (.last fun _ => ?_) h
  split
  · refine .last fun _ => .last fun _ => .last fun _ => .last fun _ => .check fun _ =>
      .last fun _ => ?_
    rw [pure_bind]
    infer_instance
  · refine .last fun _ => .last fun _ => .last fun _ => ?_
    split
    · refine .check fun _ => ?_
      rw [pure_bind]
      infer_instance
    · dsimp only
      rw [pure_bind]
      split <;> infer_instance

instance : Gives Located.IsNeutral scanTag where
  gives h := by
    obtain ⟨-, handle, rest, hitem⟩ := scanTag_eq h
    rw [Located.IsNeutral, hitem]
    rfl

/-- Whether a token is a directive. -/
def isDirective : Token → Bool
  | .versionDirective _ _ | .tagDirective _ _ => true
  | _ => false

theorem versionDirective_gives (start : Mark) :
    Gives (isDirective · = true) (versionDirective start) :=
  .last fun _ => .last fun _ => .last fun _ => .check fun _ => .last fun _ => .last fun _ =>
    gives_pure rfl

theorem tagDirective_gives (start : Mark) : Gives (isDirective · = true) (tagDirective start) :=
  .last fun _ => .last fun _ => .last fun _ => .last fun _ => .last fun _ => .check fun _ =>
    gives_pure rfl

/-- A directive is marked at its first character. -/
theorem scanDirective_eq {s s' : Scanner} {t : Located Token} (h : scanDirective s = .ok (t, s')) :
    t.span.start = s.mark ∧ isDirective t.item = true := by
  unfold scanDirective at h
  obtain ⟨_, _, hmark, h⟩ := stateful_bind_eq_ok.mp h
  cases hmark
  refine Gives.of_run (P := fun t => t.span.start = s.mark ∧ isDirective t.item = true)
    (.last fun _ => .last fun _ => .last fun _ => .check fun _ => .last fun _ =>
      .check fun _ => ?_) h
  split
  · refine .bind (versionDirective_gives s.mark) fun token ht => ?_
    exact .last fun _ => .last fun _ => .last fun _ => .check fun _ => .last fun _ =>
      gives_pure ⟨rfl, ht⟩
  · split
    · refine .bind (tagDirective_gives s.mark) fun token ht => ?_
      exact .last fun _ => .last fun _ => .last fun _ => .check fun _ => .last fun _ =>
        gives_pure ⟨rfl, ht⟩
    · refine .last fun _ => ?_
      rw [pure_bind]
      exact .last fun _ => .last fun _ => .last fun _ => .check fun _ => .last fun _ =>
        gives_pure ⟨rfl, rfl⟩

instance : Gives Located.IsNeutral scanDirective where
  gives {s t s'} h := by
    obtain ⟨-, hitem⟩ := scanDirective_eq h
    rw [Located.IsNeutral]
    cases ht : t.item <;> rw [ht] at hitem <;> first | rfl | cases hitem

/-! ## One token after the other -/

/-- A neutral token that has been scanned is put behind the others. -/
theorem enqueue_keeps {x : Scan (Located Token)} [MovesOn x] [Gives Located.IsNeutral x] :
    Keeps (Scanner.Ordered doc front) (Scanner.Settled doc front) (x >>= enqueue) :=
  keeps_given (P := Located.IsNeutral) fun _ htoken => push_keeps htoken

theorem fetchStreamEnd_keeps :
    Keeps (Scanner.Settled doc front) (Scanner.Settled doc front) fetchStreamEnd := by
  refine .bind (keeps_of_takes (movesOn_note ?_ ?_ ?_ ?_)) fun _ => keeps_then fun _ =>
    keeps_check keeps_fail fun _ =>
    .bind (keeps_of_takes (movesOn_note ?_ ?_ ?_ ?_)) fun _ =>
    .bind (unrollIndent_keeps _) fun _ => keeps_then fun _ => keeps_then fun _ =>
    (push_keeps rfl).weaken Scanner.Settled.toOrdered
  all_goals
    intro s
    first
      | rfl
      | split <;> rfl

theorem fetchDirective_keeps :
    Keeps (Scanner.Settled doc front) (Scanner.Settled doc front) fetchDirective :=
  .bind (unrollIndent_keeps _) fun _ => keeps_then fun _ => keeps_then fun _ =>
    enqueue_keeps.weaken Scanner.Settled.toOrdered

theorem fetchDocumentMarker_keeps {token : Token} (ht : token.isNeutral = true) :
    Keeps (Scanner.Settled doc front) (Scanner.Settled doc front) (fetchDocumentMarker token) :=
  .bind (unrollIndent_keeps _) fun _ => keeps_then fun _ => keeps_then fun _ => keeps_then fun _ =>
    keeps_then fun _ => keeps_then fun _ => (push_keeps ht).weaken Scanner.Settled.toOrdered

/-- The end of a mapping without braces comes behind what is settled. -/
theorem endPair_keeps : Keeps (Scanner.Settled doc front) (Scanner.Settled doc front) endPair :=
  endPair_keeps_of (fun _ _ h => h.advance ⟨⟨0, rfl, rfl⟩, rfl, rfl⟩) fun h => h.push id trivial

theorem push_flowEnd_keeps (span : Span) (isMapping : Bool) :
    Keeps (Scanner.Settled doc front) (Scanner.Settled doc front)
      (push span (if isMapping then .flowMappingEnd else .flowSequenceEnd)) := by
  intro s a s' hs h
  cases h
  cases isMapping
  · exact hs.push id trivial
  · exact hs.push id trivial

theorem fetchFlowEnd_keeps (isMapping : Bool) :
    Keeps (Scanner.Settled doc front) (Scanner.Settled doc front) (fetchFlowEnd isMapping) := by
  have hnote : MovesOn (modify fun s =>
      if 0 < s.flowLevel then { s with adjacentValueAt := s.mark.index } else s : Scan Unit) := by
    refine movesOn_note ?_ ?_ ?_ ?_
    all_goals
      intro s
      split <;> rfl
  have hpairs : MovesOn (modify fun s => { s with pairs := s.pairs.drop 1 } : Scan Unit) :=
    movesOn_note (fun _ => rfl) (fun _ => rfl) (fun _ => rfl) fun _ => rfl
  refine keeps_then fun _ => keeps_then fun _ => keeps_then fun _ =>
    keeps_ite (fun _ => ?_) fun _ => ?_
  · exact .bind endPair_keeps fun _ => keeps_then fun _ => keeps_then fun _ => keeps_then fun _ =>
      keeps_then fun _ => keeps_then fun _ => keeps_then fun _ => push_flowEnd_keeps _ isMapping
  · exact keeps_then fun _ => keeps_then fun _ => keeps_then fun _ => keeps_then fun _ =>
      keeps_then fun _ => push_flowEnd_keeps _ isMapping

theorem fetchFlowEntry_keeps :
    Keeps (Scanner.Settled doc front) (Scanner.Settled doc front) fetchFlowEntry :=
  keeps_then fun _ => keeps_then fun _ => .bind endPair_keeps fun _ => keeps_then fun _ =>
    keeps_then fun _ => keeps_then fun _ => keeps_then fun _ =>
    (push_keeps rfl).weaken Scanner.Settled.toOrdered

/-- The dash of an item comes behind the token that announces the sequence. -/
theorem dash_keeps (start : Mark) :
    Keeps (Scanner.Settled doc front) (Scanner.Settled doc front) (dash start) := by
  refine keeps_then fun _ =>
    .bind ((rollIndent_keeps rfl (by exact Located.not_isWide_empty _ _)).weaken
      Scanner.Settled.toOrdered) fun _ =>
    keeps_then fun _ => keeps_then fun _ => keeps_then fun _ => keeps_check keeps_fail fun _ =>
    keeps_then fun _ => keeps_then fun _ => keeps_then fun _ => ?_
  refine keeps_check (keeps_of_takes inferInstance) fun _ => keeps_then fun _ =>
    keeps_then fun _ => keeps_then fun mark s a s' hs h => ?_
  cases h
  exact Scanner.settled_of_push (hs.push rfl (Located.not_isWide_empty mark .blockEntry)) id

theorem fetchBlockEntry_keeps :
    Keeps (Scanner.Settled doc front) (Scanner.Settled doc front) fetchBlockEntry := by
  refine keeps_then fun s => keeps_check keeps_fail fun _ => keeps_check keeps_fail fun _ => ?_
  split
  · exact keeps_check keeps_failAt fun _ => dash_keeps s.mark
  · exact dash_keeps s.mark

theorem keyMark_keeps (start : Mark) :
    Keeps (Scanner.Ordered doc front) (Scanner.Settled doc front) (keyMark start) :=
  keeps_then fun _ => keeps_then fun _ => keeps_then fun _ => keeps_then fun _ =>
  keeps_check keeps_fail fun _ => keeps_then fun _ => push_keeps rfl

/-- The mark of a key comes behind the token that announces the mapping. -/
theorem fetchKey_keeps :
    Keeps (Scanner.Settled doc front) (Scanner.Settled doc front) fetchKey := by
  have hstart : MovesOn (modify fun s => { s with flowMappingStarted := true } : Scan Unit) :=
    movesOn_note (fun _ => rfl) (fun _ => rfl) (fun _ => rfl) fun _ => rfl
  refine keeps_then fun start => keeps_then fun s => keeps_ite (fun _ => ?_) fun _ => ?_
  · have hkey : Keeps (Scanner.Settled doc front) (Scanner.Settled doc front) (keyMark start) :=
      (keyMark_keeps start).weaken Scanner.Settled.toOrdered
    refine keeps_then fun _ => keeps_then fun _ => ?_
    exact keeps_ite (fun _ => keeps_then fun _ => hkey) fun _ => keeps_then fun _ => hkey
  · refine keeps_then fun _ => keeps_check keeps_fail fun _ =>
      .bind ((rollIndent_keeps rfl (by exact Located.not_isWide_empty _ _)).weaken
        Scanner.Settled.toOrdered) fun _ => keeps_then fun _ => ?_
    exact keeps_ite (fun _ => keeps_then fun _ => keyMark_keeps start)
      fun _ => keeps_then fun _ => keyMark_keeps start

theorem insertAt_keeps_of_pair {isPair : Bool} {pending : PendingKey} {start : Mark}
    {x : Scan α} {J : Scanner → Prop} (hx : Keeps (Scanner.Spaced doc front pending.token) J x) :
    Keeps (Scanner.Spaced doc front pending.token) J (do
      if isPair then
        if pending.mark.line < start.line then failAt start .misplacedColon
        insertAt pending.token pending.mark .flowMappingStart
      x) := by
  refine keeps_ite (fun _ => ?_) fun _ => hx
  exact keeps_check keeps_failAt fun _ => .bind (insertAt_keeps rfl
    (fun hwide => absurd hwide (Located.not_isWide_empty _ _)) rfl) fun _ => hx

/-- The `:` of a key that is pending. The tokens that announce the key are put in front of it, the
mark of the key first. -/
theorem valueOfPending_keeps (isPair : Bool) (pending : PendingKey) (start : Mark) :
    Keeps (Scanner.Settled doc front) (Scanner.Settled doc front)
      (valueOfPending isPair pending start) := by
  have hkeys : MovesOn (modify fun s =>
      { s with keys := { pending with possible := false } :: s.keys.drop 1 } : Scan Unit) :=
    movesOn_note (fun _ => rfl) (fun _ => rfl) (fun _ => rfl) fun _ => rfl
  refine .bind (insertAt_key_keeps.weaken Scanner.Settled.toOrdered) fun _ =>
    insertAt_keeps_of_pair ?_
  exact .bind (rollIndent_keeps_spaced rfl (Located.not_isWide_empty _ _) rfl) fun _ =>
    keeps_then fun _ => keeps_then fun _ => keeps_then fun _ =>
    (push_keeps rfl).weaken Scanner.Spaced.toOrdered

theorem push_keeps_of_pair {isPair : Bool} {start : Mark} {x : Scan α} {J : Scanner → Prop}
    (hx : Keeps (Scanner.Ordered doc front) J x) :
    Keeps (Scanner.Ordered doc front) J (do
      if isPair then push (Span.empty start) .flowMappingStart
      x) := by
  refine keeps_check (fun s a s' hs h => ?_) fun _ => hx
  cases h
  exact hs.push rfl fun hwide => absurd hwide (Located.not_isWide_empty _ _)

/-- The `:` in front of which there is no key. -/
theorem valueOfNone_keeps (isPair : Bool) (s : Scanner) :
    Keeps (Scanner.Settled doc front) (Scanner.Settled doc front) (valueOfNone isPair s) := by
  have hvalue : Keeps (Scanner.Ordered doc front) (Scanner.Settled doc front) (do
      rollProvisional
      if s.flowLevel = 0 then allowKey else forbidKey
      push (Span.empty s.mark) .value) :=
    keeps_then fun _ => keeps_ite (fun _ => keeps_then fun _ => push_keeps rfl)
      fun _ => keeps_then fun _ => push_keeps rfl
  refine (push_keeps_of_pair ?_).weaken Scanner.Settled.toOrdered
  refine keeps_ite (fun _ => ?_) fun _ => hvalue
  exact keeps_check keeps_failAt fun _ =>
    .bind (rollIndent_keeps rfl (Located.not_isWide_empty _ _)) fun _ => hvalue

theorem value_keeps (isPair : Bool) (s : Scanner) :
    Keeps (Scanner.Settled doc front) (Scanner.Settled doc front) (value isPair s) :=
  keeps_ite (fun _ => valueOfPending_keeps isPair _ s.mark) fun _ => valueOfNone_keeps isPair s

/-- A value comes behind the tokens that announce its key. -/
theorem fetchValue_keeps :
    Keeps (Scanner.Settled doc front) (Scanner.Settled doc front) fetchValue := by
  have hpair : MovesOn (modify fun s => { s with pairs := true :: s.pairs.drop 1 } : Scan Unit) :=
    movesOn_note (fun _ => rfl) (fun _ => rfl) (fun _ => rfl) fun _ => rfl
  refine keeps_then fun s => keeps_check (keeps_of_takes hpair) fun _ => keeps_then fun _ =>
    keeps_then fun c => keeps_ite (fun _ => ?_) fun _ => value_keeps _ s
  exact keeps_then fun _ => keeps_then fun _ => keeps_check keeps_fail fun _ => value_keeps _ s

theorem fetchFlowValue_keeps :
    Keeps (Scanner.Settled doc front) (Scanner.Settled doc front) fetchFlowValue :=
  keeps_then fun _ => keeps_then fun _ => keeps_check keeps_fail fun _ => fetchValue_keeps

theorem fetchQuoted_keeps (single : Bool) :
    Keeps (Scanner.Settled doc front) (Scanner.Settled doc front) (fetchQuoted single) := by
  have hvalue : MovesOn (modify fun s => { s with adjacentValueAt := s.mark.index } : Scan Unit) :=
    movesOn_note (fun _ => rfl) (fun _ => rfl) (fun _ => rfl) fun _ => rfl
  exact keeps_then fun _ => keeps_given (P := Located.IsNeutral) fun _ htoken =>
    keeps_then fun _ => keeps_then fun _ => keeps_then fun _ =>
      (push_keeps htoken).weaken Scanner.Settled.toOrdered

theorem fetchPlain_keeps :
    Keeps (Scanner.Settled doc front) (Scanner.Settled doc front) fetchPlain :=
  keeps_then fun _ => enqueue_keeps.weaken Scanner.Settled.toOrdered

theorem fetchBlockScalar_keeps (folded : Bool) :
    Keeps (Scanner.Settled doc front) (Scanner.Settled doc front) (fetchBlockScalar folded) :=
  keeps_then fun _ => keeps_then fun _ => enqueue_keeps.weaken Scanner.Settled.toOrdered

theorem fetchTag_keeps : Keeps (Scanner.Settled doc front) (Scanner.Settled doc front) fetchTag :=
  keeps_then fun _ => enqueue_keeps.weaken Scanner.Settled.toOrdered

/-! ## Tokens that have to do with the text at their marks -/

/-- The scanner is in front of the given character. -/
def At (doc : Text) (front : List (Located Token)) (c : Char) (s : Scanner) : Prop :=
  s.Settled doc front ∧ s.rest.head? = some c

theorem At.drop_mark {c : Char} {s : Scanner} (h : At doc front c s) :
    doc.drop s.mark.index = c :: s.rest.drop 1 := by
  rw [← h.1.place]
  obtain ⟨-, hc⟩ := h
  cases hrest : s.rest with
  | nil =>
      rw [hrest] at hc
      cases hc
  | cons d rest =>
      rw [hrest] at hc
      cases hc
      rfl

theorem savePendingKey_keeps_at {c : Char} :
    Keeps (At doc front c) (At doc front c) savePendingKey := by
  rintro s a s' ⟨hs, hc⟩ h
  refine ⟨hs.advance (MovesOn.advances h), ?_⟩
  cases h
  dsimp only
  split <;> exact hc

theorem forbidKey_keeps_at {c : Char} : Keeps (At doc front c) (At doc front c) forbidKey := by
  rintro s a s' ⟨hs, hc⟩ h
  refine ⟨hs.advance (MovesOn.advances h), ?_⟩
  cases h
  exact hc

/-- A character of the text is taken. -/
theorem skipContent_keeps_reaches {n : Nat} :
    Keeps (Scanner.Reaches doc front n) (Scanner.Reaches doc front (n + 1)) (skipContent 1) := by
  intro s a s' hs h
  refine ⟨hs.toSettled.advance (MovesOn.advances h), ?_⟩
  cases h
  exact Nat.succ_le_succ hs.index

/-- An opening bracket stands at the mark of its token. -/
theorem fetchFlowStart_keeps (isMapping : Bool) :
    Keeps (At doc front (if isMapping then '\x7b' else '[')) (Scanner.Settled doc front)
      (fetchFlowStart isMapping) := by
  have hstart : MovesOn (modify fun s =>
      if isMapping then { s with flowMappingStarted := true }
      else { s with pairs := false :: s.pairs } : Scan Unit) := by
    refine movesOn_note ?_ ?_ ?_ ?_
    all_goals
      intro s
      cases isMapping <;> rfl
  refine .bind savePendingKey_keeps_at fun _ s a s' hs h => ?_
  obtain ⟨_, _, hmark, h⟩ := stateful_bind_eq_ok.mp h
  cases hmark
  have hdrop := hs.drop_mark
  refine Keeps.bind (I := Scanner.Reaches doc front s.mark.index)
    (keeps_of_takes inferInstance) (fun _ => keeps_then fun _ => keeps_then fun _ =>
    .bind skipContent_keeps_reaches fun _ => keeps_then fun _ => keeps_then fun _ =>
    fun s₁ a s' hs₁ h => ?_) ⟨hs.1, Nat.le_refl _⟩ h
  cases h
  -- the bracket has been taken since the mark
  have hwide := hs₁.index
  refine hs₁.toSettled.push ?_ ?_
  · cases isMapping
    · simp [Located.Announces, hdrop]
    · simp [Located.Announces, hdrop]
  · cases isMapping
    · exact ⟨hwide, by simp [hdrop]⟩
    · exact fun _ => by simp [hdrop]

/-- The name of an anchor stands behind its mark. -/
theorem scanAnchor_eq {isAlias : Bool} {s s' : Scanner} {t : Located Token}
    (h : scanAnchor isAlias s = .ok (t, s')) :
    (s.rest.drop 1).takeWhile isAnchorChar ≠ [] ∧ t.span.start = s.mark ∧
      t.item = (if isAlias then .aliasTo ((s.rest.drop 1).takeWhile isAnchorChar)
        else .anchor ((s.rest.drop 1).takeWhile isAnchorChar)) := by
  unfold scanAnchor at h
  obtain ⟨_, _, hmark, h⟩ := stateful_bind_eq_ok.mp h
  cases hmark
  obtain ⟨_, s₁, hskip, h⟩ := stateful_bind_eq_ok.mp h
  cases hskip
  obtain ⟨_, _, hget, h⟩ := stateful_bind_eq_ok.mp h
  cases hget
  obtain ⟨_, s₂, hskip, h⟩ := stateful_bind_eq_ok.mp h
  split at h
  · cases h
  · next hname =>
      cases h
      exact ⟨by simpa using hname, rfl, rfl⟩

theorem fetchAnchor_keeps (isAlias : Bool) :
    Keeps (At doc front (if isAlias then '*' else '&')) (Scanner.Settled doc front)
      (fetchAnchor isAlias) := by
  refine .bind (.bind savePendingKey_keeps_at fun _ => forbidKey_keeps_at) fun _ s a s' hs h => ?_
  obtain ⟨t, s₁, ht, h⟩ := stateful_bind_eq_ok.mp h
  have hadvances : s.Advances s₁ := MovesOn.advances ht
  obtain ⟨hname, hstart, hitem⟩ := scanAnchor_eq ht
  obtain ⟨⟨start, stop⟩, item⟩ := t
  dsimp only at hstart hitem
  subst hstart hitem
  refine push_keeps_settled ?_ ?_ (hs.1.advance hadvances) h
  · cases isAlias <;> exact id
  · cases isAlias
    · exact ⟨hname, _, hs.drop_mark, rfl⟩
    · exact ⟨hname, _, hs.drop_mark, rfl⟩

/-! ## The loop -/

theorem fetchByStart_keeps {c next : Char} :
    Keeps (fun s => s.Settled doc front ∧ s.rest.headD '\x00' = c) (Scanner.Settled doc front)
      (fetchByStart c next) := by
  have hat : ∀ {d : Char} {s : Scanner}, c = d → d ≠ '\x00' →
      s.Settled doc front ∧ s.rest.headD '\x00' = c → At doc front d s := by
    rintro d s rfl hd ⟨hs, hc⟩
    refine ⟨hs, ?_⟩
    cases hrest : s.rest with
    | nil =>
        rw [hrest] at hc
        exact absurd hc.symm hd
    | cons x rest =>
        rw [hrest] at hc
        exact congrArg some hc
  refine keeps_look fun s => ?_
  refine keeps_ite (fun hc => (fetchFlowStart_keeps false).weaken (hat hc (by decide))) fun _ => ?_
  refine keeps_ite (fun hc => (fetchFlowStart_keeps true).weaken (hat hc (by decide))) fun _ => ?_
  refine keeps_ite (fun _ => (fetchFlowEnd_keeps false).weaken And.left) fun _ => ?_
  refine keeps_ite (fun _ => (fetchFlowEnd_keeps true).weaken And.left) fun _ => ?_
  refine keeps_ite (fun _ => fetchFlowEntry_keeps.weaken And.left) fun _ => ?_
  refine keeps_ite (fun _ => fetchBlockEntry_keeps.weaken And.left) fun _ => ?_
  refine keeps_ite (fun _ => fetchKey_keeps.weaken And.left) fun _ => ?_
  refine keeps_ite (fun _ => fetchValue_keeps.weaken And.left) fun _ => ?_
  refine keeps_ite (fun _ => fetchFlowValue_keeps.weaken And.left) fun _ => ?_
  refine keeps_ite (fun hc => (fetchAnchor_keeps true).weaken (hat hc (by decide))) fun _ => ?_
  refine keeps_ite (fun hc => (fetchAnchor_keeps false).weaken (hat hc (by decide))) fun _ => ?_
  refine keeps_ite (fun _ => fetchTag_keeps.weaken And.left) fun _ => ?_
  refine keeps_ite (fun _ => (fetchBlockScalar_keeps false).weaken And.left) fun _ => ?_
  refine keeps_ite (fun _ => (fetchBlockScalar_keeps true).weaken And.left) fun _ => ?_
  refine keeps_ite (fun _ => (fetchQuoted_keeps true).weaken And.left) fun _ => ?_
  refine keeps_ite (fun _ => (fetchQuoted_keeps false).weaken And.left) fun _ => ?_
  exact keeps_ite (fun _ => keeps_fail) fun _ => fetchPlain_keeps.weaken And.left

theorem fetch_keeps : Keeps (Scanner.Settled doc front) (Scanner.Settled doc front) fetch := by
  refine keeps_then fun _ => keeps_then fun _ => keeps_then fun _ => keeps_then fun _ =>
    .bind (unrollIndent_keeps _) fun _ s a s' hs h => ?_
  obtain ⟨_, _, hpeek, h⟩ := stateful_bind_eq_ok.mp h
  cases hpeek
  refine keeps_look (I := fun s' => s'.Settled doc front ∧ s'.rest.headD '\x00' =
    s.rest.headD '\x00') (fun _ => ?_) ⟨hs, rfl⟩ h
  refine keeps_ite (fun _ => fetchStreamEnd_keeps.weaken And.left) fun _ => ?_
  refine keeps_ite (fun _ => fetchDirective_keeps.weaken And.left) fun _ => ?_
  refine keeps_look fun _ => keeps_ite (fun _ => ?_) fun _ => keeps_look fun _ =>
    keeps_ite (fun _ => ?_) fun _ => keeps_look fun _ => keeps_look fun _ =>
    keeps_ite (fun _ => keeps_fail) fun _ => keeps_look fun _ => fetchByStart_keeps
  · exact (fetchDocumentMarker_keeps rfl).weaken And.left
  · refine .bind ((fetchDocumentMarker_keeps rfl).weaken And.left) fun _ => keeps_then fun _ =>
      keeps_then fun _ => keeps_ite (fun _ => keeps_fail) fun _ => keeps_pure

instance : MovesOn mustFetch := by unfold mustFetch; infer_instance

end Order

end Scan

namespace Token

variable {doc : Text}

theorem ordered_handed {front queue : List (Located Token)}
    (hchain : (front ++ queue).IsChain (Located.Follows doc))
    (hwritten : ∀ t ∈ front ++ queue, t.Written doc)
    (hfirst : ∃ t rest, front ++ queue = t :: rest ∧ t.item.anchorName? = none) :
    front.IsChain (Located.Follows doc) ∧ (∀ t ∈ front, t.Written doc) ∧
      ∀ t ∈ front.head?, t.item.anchorName? = none := by
  refine ⟨(List.isChain_append.mp hchain).1, fun t ht => hwritten t (List.mem_append_left _ ht),
    fun t ht => ?_⟩
  obtain ⟨x, rest, hx, hanchor⟩ := hfirst
  cases front with
  | nil => cases ht
  | cons y others =>
      cases hx
      cases ht
      exact hanchor

theorem scanFrom_ordered (fuel : Nat) {s : Scanner} {handed : List (Located Token)}
    (h : s.Settled doc handed.reverse) :
    (scanFrom fuel s handed).tokens.IsChain (Located.Follows doc) ∧
      (∀ t ∈ (scanFrom fuel s handed).tokens, t.Written doc) ∧
      ∀ t ∈ (scanFrom fuel s handed).tokens.head?, t.item.anchorName? = none := by
  induction fuel generalizing s handed with
  | zero => exact ordered_handed h.chain h.written h.first
  | succ fuel ih =>
      rw [scanFrom]
      split
      · exact ordered_handed h.chain h.written h.first
      · next s₁ hmust =>
          have h₁ := h.advance (Scan.MovesOn.advances (x := Scan.mustFetch) hmust)
          split
          · exact ordered_handed h.chain h.written h.first
          · next s₂ hfetch => exact ih (Scan.fetch_keeps h₁ hfetch)
      · next s₁ hmust =>
          have h₁ := h.advance (Scan.MovesOn.advances (x := Scan.mustFetch) hmust)
          split
          · exact ordered_handed h.chain h.written h.first
          · next token queue hqueue =>
              -- the token moves from the queue to those that have been handed out
              have hmoved : handed.reverse ++ s₁.queue = (token :: handed).reverse ++ queue := by
                rw [hqueue, List.reverse_cons, List.append_assoc, List.singleton_append]
              have hchain := h₁.chain
              have hwritten := h₁.written
              have hfirst := h₁.first
              have hlast := h₁.last
              rw [hmoved] at hchain hwritten hfirst hlast
              split
              · exact ordered_handed hchain hwritten hfirst
              · exact ih ⟨⟨h₁.place, hchain, hwritten, hfirst⟩, hlast⟩

/-- An announced collection is not closed by the token behind the one that announces it, the names
of anchors and aliases stand at their marks, and the first token is no anchor. -/
theorem scan_ordered (doc : Text) :
    (scan doc).tokens.IsChain (Located.Follows doc) ∧
      (∀ t ∈ (scan doc).tokens, t.Written doc) ∧
      ∀ t ∈ (scan doc).tokens.head?, t.item.anchorName? = none := by
  refine scanFrom_ordered _ ⟨⟨rfl, List.isChain_singleton _, ?_, _, _, rfl, rfl⟩, ?_⟩
  · intro t ht
    rw [List.mem_singleton.mp ht]
    trivial
  · intro t ht
    cases ht
    exact id

end Token

end YamlEdit
