import YamlEdit.Proofs.ExtentBounds
import YamlEdit.Proofs.PathGrammar

/-!
# Reading a path in parts

A piece of a path is read off its own characters and one more: a run ends in front of a character
that cannot be part of it, and a filter ends at its bracket (`Selector.begins_iff`). So what has been
read of a path does not depend on what follows (`Selector.Reads.append`), and what is still to be read
does not depend on what has been read, offsets apart (`Selector.segmentsFrom_add`).

Main statements: `Selector.parse_join`, a path that is read can stand in front of any other one with a
dot between them; `Selector.parse_error_local`, a path that is refused is refused at one of its
filters or numbers, and what follows it cannot mend that unless a bracket is missing.
-/

namespace YamlEdit

namespace Text

/-- A boundary in front of the end stays one when the text goes on. -/
theorem IsBoundary.append_right {t : Text} {n : Nat} (h : t.IsBoundary n) (u : Text) :
    (t ++ u).IsBoundary n := by
  obtain ⟨x, y, rfl, rfl⟩ := h
  exact ⟨x, y ++ u, List.append_assoc x y u, rfl⟩

/-- A boundary of the trimmed text is one of the whole text, behind the blanks at its start. -/
theorem IsBoundary.of_trim {t : Text} {n : Nat} (h : t.trim.IsBoundary n) :
    t.IsBoundary (size t - size t.trimStart + n) := by
  obtain ⟨blanks, hend, -⟩ := trimEnd_append_blanks t.trimStart
  have hstart : t = t.takeWhile isBlank ++ t.trimStart := List.takeWhile_append_dropWhile.symm
  have hsize : size t - size t.trimStart = size (t.takeWhile isBlank) := by
    rw [congrArg size hstart, size_append, Nat.add_sub_cancel]
  have hrest : t.trimStart.IsBoundary n := by
    rw [hend]
    exact h.append_right blanks
  rw [hsize]
  conv => arg 1; rw [hstart]
  exact hrest.append_left

/-- A run goes on if the text does, or stays as it is. -/
theorem takeWhile_isPrefix_append (p : Char → Bool) (t u : Text) :
    t.takeWhile p <+: (t ++ u).takeWhile p := by
  rw [List.takeWhile_append]
  split
  · exact (List.takeWhile_prefix p).trans (List.prefix_append t _)
  · exact List.prefix_rfl

end Text

namespace PathError

/-- The same error further on. -/
def add (n : Nat) (e : PathError) : PathError := ⟨n + e.position, e.fault⟩

/-- Whether an error is one in a text that stands at an offset of the path. -/
def LiesIn (t : Text) (offset : Nat) (e : PathError) : Prop :=
  ∃ k, t.IsBoundary k ∧ e.position = offset + k

end PathError

namespace Selector

/-! ## Pieces and what follows them -/

/-- How a piece is written. -/
def Piece.text : Piece → Text
  | separator => ['.']
  | digits run => run
  | word run => run
  | filter body => '[' :: (body ++ [']'])

/-- Whether the characters of a piece fit its kind. -/
def Piece.IsWhole : Piece → Prop
  | separator => True
  | digits run => run ≠ [] ∧ ∀ c ∈ run, Text.isDigit c = true
  | word run => run ≠ [] ∧ (∀ c ∈ run.head?, Text.isDigit c = false) ∧ ∀ c ∈ run, c ≠ '.' ∧ c ≠ '['
  | filter body => Outside (· ≠ ']') body

/-- Whether a piece ends where a text begins. -/
def Piece.EndsBefore : Piece → Text → Prop
  | separator, _ => True
  | digits _, t => ∀ c ∈ t.head?, Text.isDigit c = false
  | word _, t => ∀ c ∈ t.head?, c = '.' ∨ c = '['
  | filter _, _ => True

section Pieces

variable {t u x front rest : Text} {piece : Piece} {pieces : List Piece}

/-- **A piece** is read off its characters and the one behind them. -/
theorem begins_iff :
    Begins t piece rest ↔ t = piece.text ++ rest ∧ piece.IsWhole ∧ piece.EndsBefore rest := by
  constructor
  · rintro (⟨h⟩ | ⟨h, hsome, hall, hlongest⟩ | ⟨h, hsome, hstart, hall, hlongest⟩ | ⟨h, hclosed⟩)
    · exact ⟨h, trivial, trivial⟩
    · exact ⟨h, ⟨hsome, hall⟩, hlongest⟩
    · exact ⟨h, ⟨hsome, hstart, hall⟩, hlongest⟩
    · exact ⟨by simpa [Piece.text] using h, hclosed, trivial⟩
  · rintro ⟨h, hwhole, hends⟩
    cases piece with
    | separator => exact .separator h
    | digits run => exact .digits h hwhole.1 hwhole.2 hends
    | word run => exact .word h hwhole.1 hwhole.2.1 hwhole.2.2 hends
    | filter body => exact .filter (by simpa [Piece.text] using h) hwhole

/-- Only the first character of what follows counts. -/
theorem Piece.EndsBefore.of_head? (h : piece.EndsBefore u) (hx : ∀ c ∈ x.head?, c ∈ u.head?) :
    piece.EndsBefore x := by
  cases piece with
  | separator | filter => trivial
  | digits run => exact fun c hc => h c (hx c hc)
  | word run => exact fun c hc => h c (hx c hc)

/-- Every piece ends in front of a dot. -/
theorem Piece.endsBefore_dot (piece : Piece) (t : Text) : piece.EndsBefore ('.' :: t) := by
  cases piece with
  | separator | filter => trivial
  | digits run =>
      rintro c ⟨⟩
      rfl
  | word run =>
      rintro c ⟨⟩
      exact .inl rfl

/-- The pieces that are read off the start of a text, and the rest of it. -/
inductive Reads : Text → List Piece → Text → Prop where
  | here (t : Text) : Reads t [] t
  | piece {t u rest : Text} {piece : Piece} {pieces : List Piece} (first : Begins t piece u)
      (others : Reads u pieces rest) : Reads t (piece :: pieces) rest

theorem Splits.reads (h : Splits t pieces) : Reads t pieces [] := by
  induction h with
  | nil => exact .here []
  | cons first _ ih => exact .piece first ih

/-- What has been read of a text makes up these pieces alone. -/
theorem Reads.splits_front (h : Reads t pieces rest) :
    ∃ front, t = front ++ rest ∧ Splits front pieces := by
  induction h with
  | here t => exact ⟨[], rfl, .nil⟩
  | @piece t u rest piece pieces hfirst _ ih =>
      obtain ⟨front, rfl, hsplits⟩ := ih
      obtain ⟨rfl, hwhole, hends⟩ := begins_iff.mp hfirst
      refine ⟨piece.text ++ front, (List.append_assoc _ _ _).symm, .cons ?_ hsplits⟩
      refine begins_iff.mpr ⟨rfl, hwhole, hends.of_head? fun c hc => ?_⟩
      obtain ⟨front', rfl⟩ := List.head?_eq_some_iff.mp hc
      rfl

/-- **What has been read stays read** whatever follows the text, if something was left; and a dot can
follow in any case. -/
theorem Reads.append (h : Reads t pieces rest) (hx : rest ≠ [] ∨ x.head? = some '.') :
    Reads (t ++ x) pieces (rest ++ x) := by
  induction h with
  | here t => exact .here _
  | @piece t u rest piece pieces hfirst hothers ih =>
      obtain ⟨rfl, hwhole, hends⟩ := begins_iff.mp hfirst
      refine .piece (begins_iff.mpr ⟨List.append_assoc _ _ _, hwhole, ?_⟩) (ih hx)
      cases u with
      | cons c u => exact hends.of_head? fun d hd => hd
      | nil =>
          -- nothing is left, so the dot follows at once
          obtain ⟨front, hnil, -⟩ := hothers.splits_front
          rcases hx with hsome | hdot
          · exact absurd (List.append_eq_nil_iff.mp hnil.symm).2 hsome
          · obtain ⟨x', rfl⟩ := List.head?_eq_some_iff.mp hdot
            exact piece.endsBefore_dot x'

end Pieces

/-! ## Offsets -/

section Offsets

theorem filterValue_add (n start : Nat) (t : Text) :
    filterValue (n + start) t = (filterValue start t).mapError (·.add n) := by
  unfold filterValue
  simp only [Nat.add_assoc]
  repeat' split
  all_goals rfl

theorem filterBody_add (n start : Nat) (body : Text) :
    filterBody (n + start) body = (filterBody start body).mapError (·.add n) := by
  unfold filterBody
  simp only [Nat.add_assoc]
  split
  · split
    · rfl
    · rw [filterValue_add]
      cases filterValue _ _ <;> rfl
  · rfl

theorem nextSegment_add (n offset : Nat) (c : Char) (cs : Text) :
    nextSegment (n + offset) c cs = (nextSegment offset c cs).mapError (·.add n) := by
  unfold nextSegment
  split
  · rfl
  split
  · split
    · rfl
    · rw [filterBody_add]
      cases filterBody _ _ <;> rfl
  split
  · dsimp only
    split <;> rfl
  · rfl

/-- One step of the reader, and the others. -/
theorem segmentsFrom_eq (offset : Nat) (c : Char) (cs : Text) :
    segmentsFrom offset (c :: cs) = nextSegment offset c cs >>= fun next =>
      (segmentsFrom (offset + (Text.size (c :: cs) - Text.size next.2)) next.2).map
        (next.1.toList ++ ·) := by
  rw [segmentsFrom]
  split
  · next h => rw [h]; rfl
  · next h => rw [h]; rfl

/-- **Errors move along** with the part of the path that is read. -/
theorem segmentsFrom_add (n offset : Nat) (t : Text) :
    segmentsFrom (n + offset) t = (segmentsFrom offset t).mapError (·.add n) := by
  induction offset, t using segmentsFrom.induct with
  | case1 offset =>
      simp only [segmentsFrom]
      rfl
  | case2 offset c cs e hfails =>
      rw [segmentsFrom_eq, segmentsFrom_eq, nextSegment_add, hfails]
      rfl
  | case3 offset c cs step rest hnext next ih =>
      rw [segmentsFrom_eq, segmentsFrom_eq, nextSegment_add, hnext]
      show (segmentsFrom _ rest).map _ = ((segmentsFrom next rest).map _).mapError _
      rw [Nat.add_assoc, ih]
      cases segmentsFrom next rest <;> rfl

/-- An error counted from the start of the path. -/
theorem segmentsFrom_eq_add (offset : Nat) (t : Text) :
    segmentsFrom offset t = (segmentsFrom 0 t).mapError (·.add offset) :=
  segmentsFrom_add offset 0 t

end Offsets

/-! ## Reading on -/

section ReadingOn

variable {p t rest : Text} {piece : Piece} {pieces : List Piece}
  {steps : List (Option Segment)} {segments : List Segment} {e : PathError}

theorem Begins.size_le (h : Begins t piece rest) : Text.size rest ≤ Text.size t := by
  rw [(begins_iff.mp h).1, Text.size_append]
  exact Nat.le_add_left _ _

theorem Reads.size_le (h : Reads t pieces rest) : Text.size rest ≤ Text.size t := by
  obtain ⟨front, rfl, -⟩ := h.splits_front
  rw [Text.size_append]
  exact Nat.le_add_left _ _

/-- What has been read comes first, and reading goes on behind it. -/
theorem segmentsFrom_of_reads {offset : Nat} (h : Reads t pieces rest)
    (hmeans : List.Forall₂ (Means FirstOfAll) pieces steps) :
    segmentsFrom offset t =
      (segmentsFrom (offset + (Text.size t - Text.size rest)) rest).map
        (steps.reduceOption ++ ·) := by
  induction h generalizing offset steps with
  | here t =>
      cases hmeans
      rw [Nat.sub_self, Nat.add_zero]
      cases segmentsFrom offset t <;> rfl
  | @piece t u rest piece pieces hfirst hothers ih =>
      cases hmeans with
      | @cons _ step _ steps hmeans hall =>
          obtain ⟨c, cs, rfl⟩ : ∃ c cs, t = c :: cs :=
            List.exists_cons_of_length_pos (Nat.zero_lt_of_lt hfirst.length_lt)
          have hsize := hfirst.size_le
          have hsize' := hothers.size_le
          rw [segmentsFrom_eq, nextSegment_eq_ok_iff.mpr ⟨piece, hfirst, hmeans⟩, ok_bind, ih hall,
            show offset + (Text.size (c :: cs) - Text.size u) + (Text.size u - Text.size rest) =
              offset + (Text.size (c :: cs) - Text.size rest) by omega]
          cases segmentsFrom _ rest <;> cases step <;> rfl

/-- A path that is refused is read up to a piece that is refused. -/
theorem exists_of_segmentsFrom_eq_error {offset : Nat} (h : segmentsFrom offset t = .error e) :
    ∃ pieces steps c cs, Reads t pieces (c :: cs) ∧
      List.Forall₂ (Means FirstOfAll) pieces steps ∧
      nextSegment (offset + (Text.size t - Text.size (c :: cs))) c cs = .error e := by
  induction offset, t using segmentsFrom.induct with
  | case1 offset =>
      rw [segmentsFrom] at h
      cases h
  | case2 offset c cs e' hfails =>
      rw [segmentsFrom_eq, hfails] at h
      cases h
      exact ⟨[], [], c, cs, .here _, .nil, by rwa [Nat.sub_self]⟩
  | case3 offset c cs step rest hnext next ih =>
      rw [segmentsFrom_eq, hnext] at h
      have hrest : segmentsFrom next rest = .error e := by
        change (segmentsFrom next rest).map _ = _ at h
        cases hread : segmentsFrom next rest with
        | ok => rw [hread] at h; cases h
        | error => rw [hread] at h; cases h; rfl
      obtain ⟨pieces, steps, d, ds, hreads, hall, hfails⟩ := ih hrest
      obtain ⟨piece, hbegins, hmeans⟩ := nextSegment_eq_ok_iff.mp hnext
      have hsize := hbegins.size_le
      have hsize' := hreads.size_le
      refine ⟨piece :: pieces, step :: steps, d, ds, .piece hbegins hreads, .cons hmeans hall, ?_⟩
      rwa [show offset + (Text.size (c :: cs) - Text.size (d :: ds)) =
        next + (Text.size rest - Text.size (d :: ds)) by omega]

/-- The steps of a path stand in front of those of any other one. -/
theorem segmentsFrom_join (hp : Spells FirstOfAll p segments) (q : Text) :
    segmentsFrom 0 (p ++ '.' :: q) =
      ((segmentsFrom 0 q).mapError (·.add (Text.size p + 1))).map (segments ++ ·) := by
  obtain ⟨pieces, steps, hsplits, hall, rfl⟩ := hp
  have hreads : Reads (p ++ '.' :: q) pieces ('.' :: q) := hsplits.reads.append (.inr rfl)
  have hdot : segmentsFrom (Text.size p) ('.' :: q) = segmentsFrom (Text.size p + 1) q := by
    rw [segmentsFrom_eq]
    show (segmentsFrom (Text.size p + (1 + Text.size q - Text.size q)) q).map _ = _
    rw [Nat.add_sub_cancel]
    cases segmentsFrom (Text.size p + 1) q <;> rfl
  rw [segmentsFrom_of_reads hreads hall, Text.size_append, Nat.add_sub_cancel, Nat.zero_add, hdot,
    segmentsFrom_eq_add]

end ReadingOn

theorem parse_eq_error_iff {path : Text} {e : PathError} :
    parse path = .error e ↔ segmentsFrom 0 path = .error e :=
  map_eq_error (x := segmentsFrom 0 path)

/-- **Paths are put together with dots.** Behind a path that is read and a dot any other path is read
as it is alone: with its steps behind those of the first one, or with the same fault, as many bytes
further on. -/
theorem parse_join {p q : Text} {segments : List Segment} (hp : parse p = .ok ⟨p, segments⟩) :
    (∀ others, parse q = .ok ⟨q, others⟩ →
      parse (p ++ '.' :: q) = .ok ⟨p ++ '.' :: q, segments ++ others⟩) ∧
    ∀ position fault, parse q = .error ⟨position, fault⟩ →
      parse (p ++ '.' :: q) = .error ⟨Text.size p + 1 + position, fault⟩ := by
  have hjoin := segmentsFrom_join (parse_eq_ok_iff.mp hp) q
  constructor
  · intro others hq
    obtain ⟨_, hq, heq⟩ := map_eq_ok (x := segmentsFrom 0 q) |>.mp hq
    cases heq
    rw [parse, hjoin, hq]
    rfl
  · intro position fault hq
    rw [parse_eq_error_iff] at hq ⊢
    rw [hjoin, hq]
    rfl

/-- Behind a bracket and a quote that are part of a string, a key in a filter is missing. -/
theorem parse_join_behind_string :
    parse "a[k=']\\'.']".toList =
        .ok ⟨"a[k=']\\'.']".toList, [.key ['a'], .filter ['k'] (.string "]'.".toList)]⟩ ∧
      parse "é[=1]".toList = .error ⟨3, .emptyKey⟩ ∧
      parse "a[k=']\\'.'].é[=1]".toList = .error ⟨15, .emptyKey⟩ := by
  have hp : parse "a[k=']\\'.']".toList =
      .ok ⟨"a[k=']\\'.']".toList, [.key ['a'], .filter ['k'] (.string "]'.".toList)]⟩ := by
    decide +kernel
  have hq : parse "é[=1]".toList = .error ⟨3, .emptyKey⟩ := by decide +kernel
  exact ⟨hp, hq, (parse_join hp).2 _ _ hq⟩

/-! ## Where a path is refused -/

section Refused

variable {t body : Text} {e : PathError}

theorem liesIn_start (t : Text) (offset : Nat) (fault : PathFault) :
    PathError.LiesIn t offset ⟨offset, fault⟩ :=
  ⟨0, t.isBoundary_zero, rfl⟩

/-- The right side of a filter is refused at its start, behind a string or at a second sign of
equality. -/
theorem liesIn_of_filterValue {start : Nat} (h : filterValue start t = .error e) :
    e.LiesIn t start := by
  unfold filterValue at h
  split at h
  · cases h
  next c cs =>
  split at h
  · split at h <;> cases h
    exact liesIn_start _ _ _
  next hdigit =>
  split at h
  · next hquote =>
      split at h
      · cases h
        exact liesIn_start _ _ _
      · cases h
      · next value rest hrest hread =>
          cases h
          obtain ⟨s, rfl, -⟩ := (readQuoted_eq_some_iff hquote).mp hread
          exact ⟨_, Text.isBoundary_of_suffix ⟨c :: s, rfl⟩, rfl⟩
  split at h
  · cases h
  split at h
  · cases h
  split at h
  · cases h
    exact ⟨_, Text.isBoundary_of_isPrefix (List.takeWhile_prefix _), rfl⟩
  · cases h

/-- A filter is refused at its bracket, or inside. -/
theorem liesIn_of_filterBody {offset : Nat} (h : filterBody offset body = .error e) :
    e.LiesIn ('[' :: body) offset := by
  unfold filterBody at h
  split at h
  · next hmem =>
      obtain ⟨hbody, -⟩ := Text.takeWhile_ne_iff.mpr
        ⟨(by simpa using hmem : '=' ∈ body), rfl, rfl⟩
      dsimp only at h
      split at h
      · cases h
        exact ⟨1, ⟨['['], body, rfl, rfl⟩, rfl⟩
      · obtain ⟨k, hk, hposition⟩ := liesIn_of_filterValue (map_eq_error.mp h)
        -- the value stands behind the bracket, the key and the sign of equality
        have hfront : Text.size ('[' :: (body.takeWhile (· ≠ '=') ++ ['='])) =
            1 + Text.size (body.takeWhile (· ≠ '=')) + 1 := by
          rw [Text.size_cons, Text.size_append]
          rfl
        have hinside := hk.of_trim.append_left (x := '[' :: (body.takeWhile (· ≠ '=') ++ ['=']))
        rw [List.cons_append, List.append_assoc, List.singleton_append, ← hbody, hfront] at hinside
        exact ⟨_, hinside, by rw [hposition]; omega⟩
  · cases h
    exact liesIn_start _ _ _

/-- A piece is refused at its start or inside, and it is a filter or a number. -/
theorem liesIn_of_nextSegment {offset : Nat} {c : Char} {cs : Text}
    (h : nextSegment offset c cs = .error e) :
    e.LiesIn (c :: cs) offset ∧ (c = '[' ∨ Text.isDigit c = true) := by
  unfold nextSegment at h
  split at h
  · cases h
  split at h
  · next hbracket =>
      refine ⟨?_, .inl hbracket⟩
      split at h
      · cases h
        exact liesIn_start _ _ _
      · next body rest hclose =>
          obtain ⟨rfl, -⟩ := closeFilter_eq_some_iff.mp hclose
          obtain ⟨k, hk, hposition⟩ := liesIn_of_filterBody (map_eq_error.mp h)
          rw [hbracket]
          exact ⟨k, hk.append_right (']' :: rest), hposition⟩
  split at h
  · next hdigit =>
      dsimp only at h
      split at h <;> cases h
      exact ⟨liesIn_start _ _ _, .inr hdigit⟩
  · cases h

/-- **A piece that is refused stays refused** at the same place whatever follows, unless it is a
filter that is not closed. -/
theorem nextSegment_append {offset : Nat} {c : Char} {cs : Text}
    (h : nextSegment offset c cs = .error e) (hclosed : e.fault ≠ .unterminatedFilter) (x : Text) :
    ∃ fault, nextSegment offset c (cs ++ x) = .error ⟨e.position, fault⟩ := by
  unfold nextSegment at h ⊢
  split at h
  · cases h
  next hdot =>
  rw [if_neg hdot]
  split at h
  · next hbracket =>
      rw [if_pos hbracket]
      split at h
      · cases h
        exact absurd rfl hclosed
      · next body rest hclose =>
          obtain ⟨rfl, hbody⟩ := closeFilter_eq_some_iff.mp hclose
          rw [List.append_assoc, List.cons_append, closeFilter_eq_some_iff.mpr ⟨rfl, hbody⟩]
          exact ⟨e.fault, map_eq_error.mpr (map_eq_error.mp h)⟩
  next hbracket =>
  rw [if_neg hbracket]
  split at h
  · next hdigit =>
      rw [if_pos hdigit]
      dsimp only at h ⊢
      split at h <;> cases h
      next hlarge =>
      -- there may be more digits now
      obtain ⟨es, hes⟩ := Text.takeWhile_isPrefix_append Text.isDigit cs x
      rw [Text.toNatDigits_eq] at hlarge
      rw [← hes, ← List.cons_append, Text.toNatDigits_eq, Nat.ofDigitChars_append, if_neg]
      · exact ⟨_, rfl⟩
      · exact fun h => hlarge (Nat.le_trans (Text.le_ofDigitChars es _) h)
  · cases h

end Refused

/-- **Where a path is refused.** What is wrong lies between two characters, at or behind the start
of a filter or of a number up to which the path is read. If it is anything but a missing bracket, no
path that goes on in another way is read either, and what is wrong is at the same place. -/
theorem parse_error_local {path : Text} {position : Nat} {fault : PathFault}
    (h : parse path = .error ⟨position, fault⟩) :
    path.IsBoundary position ∧
      (∃ front c rest pieces, path = front ++ c :: rest ∧ Reads path pieces (c :: rest) ∧
        Text.size front ≤ position ∧ (c = '[' ∨ Text.isDigit c = true) ∧
        ∃ segments, parse front = .ok ⟨front, segments⟩) ∧
      (fault ≠ .unterminatedFilter → ∀ x, ∃ fault', parse (path ++ x) = .error ⟨position, fault'⟩) := by
  rw [parse_eq_error_iff] at h
  obtain ⟨pieces, steps, c, cs, hreads, hall, hfails⟩ := exists_of_segmentsFrom_eq_error h
  obtain ⟨front, rfl, hsplits⟩ := hreads.splits_front
  rw [Text.size_append, Nat.add_sub_cancel, Nat.zero_add] at hfails
  obtain ⟨⟨k, hk, hposition⟩, hstart⟩ := liesIn_of_nextSegment hfails
  refine ⟨?_, ⟨front, c, cs, pieces, rfl, hreads, ?_, hstart, ?_⟩, fun hclosed x => ?_⟩
  · rw [show position = _ from hposition]
    exact hk.append_left
  · rw [show position = _ from hposition]
    exact Nat.le_add_right _ _
  · exact ⟨_, parse_eq_ok_iff.mpr ⟨pieces, steps, hsplits, hall, rfl⟩⟩
  · obtain ⟨fault', hfails'⟩ := nextSegment_append hfails hclosed x
    refine ⟨fault', parse_eq_error_iff.mpr ?_⟩
    rw [segmentsFrom_of_reads (hreads.append (.inl (List.cons_ne_nil c cs))) hall,
      List.append_assoc, Text.size_append, Nat.add_sub_cancel, Nat.zero_add, List.cons_append,
      segmentsFrom_eq, hfails']
    rfl

/-- A string with text behind it, after a blank of two bytes: the path is refused right behind the
string, and so is what goes on behind it. -/
theorem parse_error_local_behind_string :
    parse "a[k=\u00a0'x'y]".toList = .error ⟨9, .textAfterQuote⟩ ∧
      Text.IsBoundary "a[k=\u00a0'x'y]".toList 9 ∧
      ∀ x, ∃ fault, parse ("a[k=\u00a0'x'y]".toList ++ x) = .error ⟨9, fault⟩ := by
  have hparse : parse "a[k=\u00a0'x'y]".toList = .error ⟨9, .textAfterQuote⟩ := by decide +kernel
  obtain ⟨hboundary, -, hstays⟩ := parse_error_local hparse
  exact ⟨hparse, hboundary, hstays nofun⟩

end Selector

end YamlEdit
