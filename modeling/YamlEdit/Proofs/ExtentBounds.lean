import YamlEdit.Proofs.Offsets

/-!
# Where the places of nodes are looked for

The functions that look at the text around a mark take boundaries of the text to boundaries of the
text (`Extent.Lands`). There are two exceptions. The search for the `-` of an item and the one for
the header of a block scalar step one byte past the blank in front of a word, and stumble if that
blank is longer (`Extent.DashLost`, `Extent.HeaderLost`).
-/

namespace YamlEdit

namespace Text

variable {t x y : Text} {n : Nat}

theorem size_reverse (t : Text) : size t.reverse = size t := by
  induction t with
  | nil => rfl
  | cons c t ih => rw [List.reverse_cons, size_append, ih, size_cons, size_cons, size_nil]; omega

/-- What is left of a text when an end is taken off is a boundary. -/
theorem isBoundary_of_suffix (h : y <:+ t) : t.IsBoundary (size t - size y) := by
  obtain ⟨x, rfl⟩ := h
  rw [size_append, Nat.add_sub_cancel]
  exact isBoundary_append

theorem isBoundary_of_isPrefix (h : x <+: t) : t.IsBoundary (size x) := by
  obtain ⟨y, rfl⟩ := h
  exact isBoundary_append

theorem IsBoundary.max {k : Nat} (h : t.IsBoundary n) (h' : t.IsBoundary k) :
    t.IsBoundary (max n k) := by
  rw [Nat.max_def]
  split
  · exact h'
  · exact h

theorem IsBoundary.min {k : Nat} (h : t.IsBoundary n) (h' : t.IsBoundary k) :
    t.IsBoundary (min n k) := by
  rw [Nat.min_def]
  split
  · exact h
  · exact h'

/-- Whether a character stands behind an offset. -/
def StartsAt (t : Text) (n : Nat) (c : Char) : Prop := ∃ x y, t = x ++ c :: y ∧ size x = n

/-- Whether a character stands in front of an offset. -/
def EndsAt (t : Text) (n : Nat) (c : Char) : Prop :=
  ∃ x y, t = x ++ c :: y ∧ size x + c.utf8Size = n

theorem StartsAt.next {c : Char} (h : t.StartsAt n c) : t.IsBoundary (n + c.utf8Size) := by
  obtain ⟨x, y, rfl, rfl⟩ := h
  refine ⟨x ++ [c], y, by simp, ?_⟩
  rw [size_append, size_cons, size_nil, Nat.add_zero]

theorem EndsAt.previous {c : Char} (h : t.EndsAt n c) : t.IsBoundary (n - c.utf8Size) := by
  obtain ⟨x, y, rfl, rfl⟩ := h
  rw [Nat.add_sub_cancel]
  exact isBoundary_append

end Text

namespace Extent

open Text

variable {source : Text} {place : Nat}

/-- A computation that gives a boundary. -/
abbrev Lands (source : Text) (x : Except BadOffset Nat) : Prop :=
  Yields (fun _ => False) source.IsBoundary x

/-- A search that gives a boundary if it finds anything. -/
abbrev Finds (source : Text) (x : Except BadOffset (Option Nat)) : Prop :=
  Yields (fun _ => False) (fun r => ∀ n, r = some n → source.IsBoundary n) x

/-- A cut at a boundary. -/
theorem cutAt_append (x y : Text) : (x ++ y).cutAt (size x) = .ok ⟨x.reverse, y⟩ :=
  cutAt_eq_ok.mpr (by simp)

theorem dropBytes_append (x y : Text) : (x ++ y).dropBytes (size x) = .ok y :=
  dropBytes_eq_ok.mpr ⟨x, rfl, rfl⟩

/-! ## Properties -/

theorem propertiesSize_eq (fuel : Nat) (t : Text) :
    ∃ u, u <+: t ∧ propertiesSize fuel t = size u := by
  induction fuel generalizing t with
  | zero => exact ⟨[], List.nil_prefix, rfl⟩
  | succ fuel ih =>
      rw [propertiesSize]
      split
      · dsimp only
        obtain ⟨u, ⟨v, hv⟩, hsize⟩ :=
          ih ((t.dropWhile isNameChar).dropWhile fun c => c == ' ' || c == '\t')
        refine ⟨t.takeWhile isNameChar ++
          (t.dropWhile isNameChar).takeWhile (fun c => c == ' ' || c == '\t') ++ u, ⟨v, ?_⟩, ?_⟩
        · rw [List.append_assoc, hv, List.append_assoc, List.takeWhile_append_dropWhile,
            List.takeWhile_append_dropWhile]
        · rw [hsize, size_append, size_append]
      · exact ⟨[], List.nil_prefix, rfl⟩

theorem lands_skipProperties (h : source.IsBoundary place) :
    Lands source (skipProperties source place) := by
  obtain ⟨x, y, rfl, rfl⟩ := h
  obtain ⟨u, hu, hsize⟩ := propertiesSize_eq y.length y
  unfold skipProperties
  rw [dropBytes_append]
  show (x ++ y).IsBoundary (size x + propertiesSize y.length y)
  rw [hsize]
  exact (isBoundary_of_isPrefix hu).append_left

/-! ## Quoted scalars -/

theorem suffix_of_afterSingleQuoted {t rest : Text} (h : afterSingleQuoted t = some rest) :
    rest <:+ t := by
  fun_induction afterSingleQuoted t with
  | case1 => cases h
  | case2 =>
      cases h
      exact List.nil_suffix
  | case3 => cases h
  | case4 t ih => exact (ih h).trans ⟨['\'', '\''], rfl⟩
  | case5 d t _ =>
      cases h
      exact ⟨['\''], rfl⟩
  | case6 c d t _ ih => exact (ih h).trans ⟨[c], rfl⟩

theorem suffix_of_afterDoubleQuoted {t rest : Text} (h : afterDoubleQuoted t = some rest) :
    rest <:+ t := by
  fun_induction afterDoubleQuoted t with
  | case1 => cases h
  | case2 t =>
      cases h
      exact ⟨['"'], rfl⟩
  | case3 => cases h
  | case4 c t _ ih => exact (ih h).trans ⟨['\\', c], rfl⟩
  | case5 c t _ _ ih => exact (ih h).trans ⟨[c], rfl⟩

theorem finds_quotedEnd (h : source.IsBoundary place) : Finds source (quotedEnd source place) := by
  obtain ⟨x, y, rfl, rfl⟩ := h
  unfold quotedEnd
  rw [dropBytes_append]
  intro n hn
  obtain ⟨rest, hrest, rfl⟩ := Option.map_eq_some_iff.mp hn
  refine isBoundary_of_suffix (List.IsSuffix.trans ?_ (List.suffix_append x y))
  split at hrest
  · exact (suffix_of_afterSingleQuoted hrest).trans ⟨['\''], rfl⟩
  · exact (suffix_of_afterDoubleQuoted hrest).trans ⟨['"'], rfl⟩
  · cases hrest

/-! ## Missing values, anchors and aliases -/

theorem finds_indicatorEnd (h : source.IsBoundary place) :
    Finds source (indicatorEnd source place) := by
  obtain ⟨x, y, rfl, rfl⟩ := h
  unfold indicatorEnd
  rw [cutAt_append]
  -- what is left of the text in front of the place starts where the text does
  have hhead : (x ++ y).IsBoundary (size (x.reverse.dropWhile isBlank)) := by
    rw [← size_reverse]
    refine isBoundary_of_isPrefix (List.IsPrefix.trans ?_ (List.prefix_append x y))
    rw [← List.reverse_suffix, List.reverse_reverse]
    exact List.dropWhile_suffix _
  have hcolon : ∀ {rest : Text}, y = ':' :: rest → (x ++ y).IsBoundary (size x + 1) := by
    rintro rest rfl
    have : IsBoundary (':' :: rest) 1 := ⟨[':'], rest, rfl, rfl⟩
    exact this.append_left
  show Finds (x ++ y) (if isIndicator ((x.reverse.dropWhile isBlank).headD ' ') then _ else _)
  split
  · rintro n ⟨⟩
    exact hhead
  · dsimp only
    split
    · rintro n ⟨⟩
      exact hcolon rfl
    · intro n hn
      split at hn
      · cases hn
      · cases hn
        exact hcolon rfl
    · exact forall_none

theorem yields_anchorLabel (h : source.IsBoundary place) :
    Yields (fun _ => False) (fun _ => True) (anchorLabel source place) := by
  obtain ⟨x, y, rfl, rfl⟩ := h
  unfold anchorLabel
  rw [cutAt_append, ok_bind]
  dsimp only
  split <;> trivial

theorem finds_aliasEnd (h : source.IsBoundary place) : Finds source (aliasEnd source place) := by
  obtain ⟨x, y, rfl, rfl⟩ := h
  unfold aliasEnd
  rw [dropBytes_append, ok_bind]
  split
  · next rest =>
      rintro n ⟨⟩
      have hname : '*' :: rest.takeWhile isNameChar <+: '*' :: rest :=
        (List.prefix_cons_inj _).mpr (List.takeWhile_prefix _)
      have : IsBoundary ('*' :: rest) (1 + size (rest.takeWhile isNameChar)) :=
        isBoundary_of_isPrefix hname
      rw [Nat.add_assoc]
      exact this.append_left
  · exact forall_none

/-! ## Flow collections -/

theorem suffix_of_afterCloser {closer : Char} {inComment : Bool} {t rest : Text}
    (h : afterCloser closer inComment t = some rest) : closer :: rest <:+ t := by
  fun_induction afterCloser closer inComment t with
  | case1 => cases h
  | case2 c t ih => exact (ih h).trans ⟨[c], rfl⟩
  | case3 c t _ ih => exact (ih h).trans ⟨[c], rfl⟩
  | case4 t _ ih => exact (ih h).trans ⟨['#'], rfl⟩
  | case5 t _ _ =>
      cases h
      exact List.suffix_rfl
  | case6 => cases h

/-- A flow collection ends behind its closing bracket, or where the search for that starts. -/
theorem yields_flowEnd (h : source.IsBoundary place) (closer : Char) :
    Yields (fun _ => False) (fun n => source.IsBoundary n ∧ (source.EndsAt n closer ∨ n = place))
      (flowEnd source place closer) := by
  obtain ⟨x, y, rfl, rfl⟩ := h
  unfold flowEnd
  rw [dropBytes_append, ok_bind]
  show Yields _ _ (.ok _ : Except BadOffset Nat)
  split
  · next after hafter =>
      obtain ⟨front, rfl⟩ := suffix_of_afterCloser hafter
      have hend : size x + (size (front ++ closer :: after) - size after) =
          size (x ++ front) + closer.utf8Size := by
        rw [size_append, size_append, size_cons]
        omega
      rw [hend]
      exact ⟨⟨x ++ front ++ [closer], after, by simp, by simp [size_append, Nat.add_assoc]⟩,
        .inl ⟨x ++ front, after, by simp, rfl⟩⟩
  · exact ⟨isBoundary_append, .inr rfl⟩

/-! ## The search for a header -/

/-- The last word of a text: what is behind its last blank. The text, and what is in front of the
word, are given from their ends. -/
structure LastWord (before word rest : Text) : Prop where
  split : before = word.reverse ++ rest
  word : ∀ c ∈ word, isBlank c = false
  blank : ∀ c ∈ rest.head?, isBlank c = true

theorem exists_lastWord (before : Text) : ∃ word rest, LastWord before word rest := by
  refine ⟨(before.takeWhile (!isBlank ·)).reverse, before.dropWhile (!isBlank ·), ?_, ?_, ?_⟩
  · rw [List.reverse_reverse, List.takeWhile_append_dropWhile]
  · intro c hc
    have := List.all_eq_true.mp (List.all_takeWhile (p := (!isBlank ·)) (l := before)) c
      (List.mem_reverse.mp hc)
    simpa using this
  · intro c hc
    have := List.head?_dropWhile_not (!isBlank ·) before
    rw [hc] at this
    simpa using this

theorem lastOffset?_append {p : Char → Bool} {u rest : Text} (h : ∀ c ∈ u, p c = false) :
    lastOffset? p (u ++ rest) = lastOffset? p rest := by
  induction u with
  | nil => rfl
  | cons c u ih =>
      rw [List.cons_append, lastOffset?, if_neg (by simp [h c List.mem_cons_self]),
        ih fun d hd => h d (List.mem_cons_of_mem _ hd)]

/-- One byte past the last blank the last word starts, unless the blank is longer than that. -/
theorem dropBytes_lastWordStart {before word rest : Text} (h : LastWord before word rest) :
    lastWordStart isBlank before = size rest ∧ (∀ c ∈ rest.head?, c.utf8Size = 1) ∧
        dropBytes before.reverse (lastWordStart isBlank before) = .ok word ∨
      (∃ c ∈ rest.head?, 1 < c.utf8Size) ∧
        ∃ b, dropBytes before.reverse (lastWordStart isBlank before) = .error b := by
  obtain ⟨rfl, hword, hblank⟩ := h
  have hsplit : (word.reverse ++ rest).reverse = rest.reverse ++ word := by simp
  have hlast : lastOffset? isBlank (word.reverse ++ rest) = lastOffset? isBlank rest :=
    lastOffset?_append fun c hc => hword c (List.mem_reverse.mp hc)
  cases rest with
  | nil =>
      have hstart : lastWordStart isBlank (word.reverse ++ []) = 0 := by
        rw [lastWordStart, hlast, lastOffset?]
      refine .inl ⟨hstart, nofun, ?_⟩
      rw [hstart, hsplit]
      exact dropBytes_append [] word
  | cons c rest =>
      have hstart : lastWordStart isBlank (word.reverse ++ c :: rest) = size rest + 1 := by
        rw [lastWordStart, hlast, lastOffset?, if_pos (hblank c rfl)]
      rw [hstart, hsplit]
      have hpos := c.utf8Size_pos
      by_cases hone : c.utf8Size = 1
      · refine .inl ⟨by rw [size_cons]; omega, ?_, ?_⟩
        · rintro _ ⟨⟩
          exact hone
        · refine dropBytes_eq_ok.mpr ⟨(c :: rest).reverse, rfl, ?_⟩
          rw [size_reverse, size_cons]
          omega
      · refine .inr ⟨⟨c, rfl, by omega⟩, ?_⟩
        cases hdrop : dropBytes ((c :: rest).reverse ++ word) (size rest + 1) with
        | error b => exact ⟨b, rfl⟩
        | ok y =>
            -- the cut would be inside of the blank
            obtain ⟨x, hx, hsize⟩ := dropBytes_eq_ok.mp hdrop
            exfalso
            rw [List.reverse_cons, List.append_assoc, List.singleton_append] at hx
            have hrest : size rest.reverse = size rest := size_reverse rest
            rcases List.append_eq_append_iff.mp hx with ⟨z, rfl, hz⟩ | ⟨z, hz, -⟩
            · rw [size_append] at hsize
              cases z with
              | nil =>
                  rw [size_nil] at hsize
                  omega
              | cons d z =>
                  cases hz
                  rw [size_cons] at hsize
                  omega
            · have := congrArg size hz
              rw [size_append] at this
              omega

/-- The line in front of the content of a block scalar, up to a comment: what is in front of the
content is given from its end. -/
def headerLine (before : Text) : Text :=
  trimEnd (beforeComment false ((before.dropWhile isBlank).takeWhile (· ≠ '\n')).reverse)

/-- The search for the header of a block scalar stumbles: the blank in front of the last word of the
header's line takes more than one byte. -/
def HeaderLost (before after : Text) : Prop :=
  isHeaderMark (after.headD ' ') = false ∧
    ∃ word c rest, LastWord (headerLine before).reverse word (c :: rest) ∧ 1 < c.utf8Size

theorem beforeComment_isPrefix (spaced : Bool) (t : Text) : beforeComment spaced t <+: t := by
  induction t generalizing spaced with
  | nil => exact List.prefix_rfl
  | cons c t ih =>
      rw [beforeComment]
      split
      · exact List.nil_prefix
      · exact (List.prefix_cons_inj c).mpr (ih _)

theorem trimEnd_isPrefix (t : Text) : trimEnd t <+: t := by
  rw [← List.reverse_suffix, trimEnd, List.reverse_reverse]
  exact List.dropWhile_suffix _

/-- The line of the header is a part of the text in front of the content. -/
theorem exists_headerLine (x : Text) :
    ∃ u v, x = u ++ headerLine x.reverse ++ v ∧
      size (x.reverse.dropWhile isBlank) -
        size ((x.reverse.dropWhile isBlank).takeWhile (· ≠ '\n')).reverse = size u := by
  obtain ⟨v, hv⟩ := (trimEnd_isPrefix _).trans (beforeComment_isPrefix false
    ((x.reverse.dropWhile isBlank).takeWhile (· ≠ '\n')).reverse)
  refine ⟨((x.reverse.dropWhile isBlank).dropWhile (· ≠ '\n')).reverse,
    v ++ (x.reverse.takeWhile isBlank).reverse, ?_, ?_⟩
  · rw [List.append_assoc, ← List.append_assoc (headerLine _), headerLine, hv,
      ← List.append_assoc, ← List.reverse_append, List.takeWhile_append_dropWhile,
      ← List.reverse_append, List.takeWhile_append_dropWhile, List.reverse_reverse]
  · have hsize : size (x.reverse.dropWhile isBlank) =
        size ((x.reverse.dropWhile isBlank).takeWhile (· ≠ '\n')) +
          size ((x.reverse.dropWhile isBlank).dropWhile (· ≠ '\n')) := by
      rw [← size_append, List.takeWhile_append_dropWhile]
    rw [size_reverse, size_reverse, hsize]
    omega

theorem finds_blockHeader {x y : Text} (h : ¬ HeaderLost x.reverse y) :
    Finds (x ++ y) (blockHeader (x ++ y) (size x)) := by
  unfold blockHeader
  rw [cutAt_append]
  show Finds (x ++ y) (if isHeaderMark (y.headD ' ') then _ else _)
  split
  · rintro n ⟨⟩
    exact isBoundary_append
  · next hmark =>
      obtain ⟨u, v, hx, hline⟩ := exists_headerLine x
      obtain ⟨word, rest, hword⟩ := exists_lastWord (headerLine x.reverse).reverse
      rcases dropBytes_lastWordStart hword with ⟨hstart, -, hdrop⟩ | ⟨⟨c, hc, hwide⟩, -⟩
      · rw [List.reverse_reverse] at hdrop
        show Finds (x ++ y) (dropBytes (headerLine x.reverse)
          (lastWordStart isBlank (headerLine x.reverse).reverse) >>= _)
        rw [hdrop]
        -- the word starts inside of the line
        have hsplit : headerLine x.reverse = rest.reverse ++ word := by
          rw [← List.reverse_reverse (headerLine x.reverse), hword.split]
          simp
        have hboundary : (x ++ y).IsBoundary (size u + size rest) := by
          refine ⟨u ++ rest.reverse, word ++ v ++ y, ?_, ?_⟩
          · rw [hx, hsplit]
            simp
          · rw [size_append, size_reverse]
        dsimp only [ok_bind]
        split
        · exact forall_none
        · split
          · rintro n hn
            cases hn
            rw [hline]
            show (x ++ y).IsBoundary (size u + lastWordStart isBlank (headerLine x.reverse).reverse)
            rw [hstart]
            exact hboundary
          · exact forall_none
      · obtain ⟨rest, rfl⟩ : ∃ r, rest = c :: r := List.head?_eq_some_iff.mp hc
        exact absurd ⟨by simpa using hmark, word, c, rest, hword, hwide⟩ h

theorem blockHeader_of_headerLost {x y : Text} (h : HeaderLost x.reverse y) :
    ∃ b, blockHeader (x ++ y) (size x) = .error b := by
  obtain ⟨hmark, word, c, rest, hword, hwide⟩ := h
  rcases dropBytes_lastWordStart hword with ⟨-, hone, -⟩ | ⟨-, b, hdrop⟩
  · have := hone c rfl
    omega
  · rw [List.reverse_reverse] at hdrop
    refine ⟨b, ?_⟩
    unfold blockHeader
    rw [cutAt_append]
    show (if isHeaderMark (y.headD ' ') then _ else _) = _
    rw [if_neg (by rw [hmark]; nofun)]
    show (dropBytes (headerLine x.reverse)
      (lastWordStart isBlank (headerLine x.reverse).reverse) >>= _) = _
    rw [hdrop]
    rfl

/-- The search for the header of the block scalar with the content at `start` stumbles. -/
def HeaderLostAt (source : Text) (start : Nat) : Prop :=
  ∃ x y, source = x ++ y ∧ size x = start ∧ HeaderLost x.reverse y

/-- **The header of a block scalar is found at a boundary**, unless the search for it stumbles. -/
theorem yields_blockHeader (h : source.IsBoundary place) :
    Yields (fun _ => HeaderLostAt source place) (fun r => ∀ n, r = some n → source.IsBoundary n)
      (blockHeader source place) := by
  obtain ⟨x, y, rfl, rfl⟩ := h
  by_cases hlost : HeaderLost x.reverse y
  · obtain ⟨b, hb⟩ := blockHeader_of_headerLost hlost
    rw [hb]
    exact ⟨x, y, rfl, rfl, hlost⟩
  · exact (finds_blockHeader hlost).mono_error fun _ h => h.elim

theorem blockHeader_of_headerLostAt (h : HeaderLostAt source place) :
    ∃ b, blockHeader source place = .error b := by
  obtain ⟨x, y, rfl, rfl, hlost⟩ := h
  exact blockHeader_of_headerLost hlost

/-! ## The search for a dash -/

/-- The search for the `-` of an item stumbles: it goes back over anchors and tags to a word with a
blank of more than one byte in front of it. The text in front of the item is given from its end. -/
inductive DashLost : Text → Prop where
  | wide {before word rest : Text} {c : Char} (dash : (before.dropWhile isBlank).headD ' ' ≠ '-')
      (last : LastWord (before.dropWhile isBlank) word (c :: rest)) (long : 1 < c.utf8Size) :
      DashLost before
  | property {before word rest : Text} (dash : (before.dropWhile isBlank).headD ' ' ≠ '-')
      (last : LastWord (before.dropWhile isBlank) word rest)
      (mark : isPropertyMark (word.headD ' ') = true) (inner : DashLost rest) : DashLost before

/-- A round of the search. -/
theorem itemMarkerFrom_succ (before y : Text) (fuel : Nat) :
    itemMarkerFrom (before.reverse ++ y) (fuel + 1) (size before) =
      if (before.dropWhile isBlank).headD ' ' = '-' then
        .ok (some (size (before.dropWhile isBlank) - 1))
      else do
        let wordStart := lastWordStart isBlank (before.dropWhile isBlank)
        let word ← dropBytes (before.dropWhile isBlank).reverse wordStart
        if isPropertyMark (word.headD ' ') then
          itemMarkerFrom (before.reverse ++ y) fuel wordStart
        else return none := by
  rw [itemMarkerFrom, ← size_reverse before, cutAt_append, List.reverse_reverse]
  rfl

/-- The last word goes in front of what is behind the text. -/
theorem LastWord.append {before word rest : Text}
    (h : LastWord (before.dropWhile isBlank) word rest) (y : Text) :
    ∃ z, before.reverse ++ y = rest.reverse ++ z ∧
      (word ≠ [] → rest.length < before.length) := by
  refine ⟨word ++ ((before.takeWhile isBlank).reverse ++ y), ?_, fun hne => ?_⟩
  · have hbefore : before.takeWhile isBlank ++ (word.reverse ++ rest) = before := by
      rw [← h.split, List.takeWhile_append_dropWhile]
    calc before.reverse ++ y
        = (before.takeWhile isBlank ++ (word.reverse ++ rest)).reverse ++ y := by rw [hbefore]
      _ = rest.reverse ++ (word ++ ((before.takeWhile isBlank).reverse ++ y)) := by simp
  · have hlength := congrArg List.length h.split
    have hle := (List.dropWhile_suffix isBlank (l := before)).length_le
    have hword := List.length_pos_iff.mpr hne
    rw [List.length_append, List.length_reverse] at hlength
    omega

theorem ne_nil_of_isPropertyMark {word : Text} (h : isPropertyMark (word.headD ' ') = true) :
    word ≠ [] := by
  rintro rfl
  cases h

theorem finds_itemMarkerFrom {before : Text} (h : ¬ DashLost before) (y : Text) (fuel : Nat) :
    Finds (before.reverse ++ y) (itemMarkerFrom (before.reverse ++ y) fuel (size before)) := by
  induction fuel generalizing before y with
  | zero => exact forall_none
  | succ fuel ih =>
      rw [itemMarkerFrom_succ]
      split
      · next hdash =>
          rintro n ⟨⟩
          -- the dash takes one byte
          obtain ⟨rest, hrest⟩ : ∃ rest, before.dropWhile isBlank = '-' :: rest := by
            cases hhead : before.dropWhile isBlank with
            | nil =>
                rw [hhead] at hdash
                cases hdash
            | cons c rest =>
                rw [hhead] at hdash
                obtain rfl : c = '-' := hdash
                exact ⟨rest, rfl⟩
          have hone : size (before.dropWhile isBlank) - 1 = size rest.reverse := by
            rw [hrest, size_cons, size_reverse, show Char.utf8Size '-' = 1 from rfl]
            omega
          rw [hone]
          refine isBoundary_of_isPrefix (List.IsPrefix.trans ?_ (List.prefix_append _ _))
          rw [List.reverse_prefix]
          exact .trans ⟨['-'], hrest.symm⟩ (List.dropWhile_suffix _)
      · next hdash =>
          obtain ⟨word, rest, hword⟩ := exists_lastWord (before.dropWhile isBlank)
          rcases dropBytes_lastWordStart hword with ⟨hstart, -, hdrop⟩ | ⟨⟨c, hc, hwide⟩, -⟩
          · dsimp only
            rw [hdrop, hstart]
            show Finds _ (if isPropertyMark (word.headD ' ') then _ else _)
            split
            · next hmark =>
                obtain ⟨z, hz, -⟩ := hword.append y
                rw [hz]
                exact ih (fun hlost => h (.property hdash hword hmark hlost)) z
            · exact forall_none
          · obtain ⟨rest, rfl⟩ : ∃ r, rest = c :: r := List.head?_eq_some_iff.mp hc
            exact absurd (.wide hdash hword hwide) h

theorem itemMarkerFrom_of_dashLost {before : Text} (h : DashLost before) (y : Text) (fuel : Nat)
    (hfuel : before.length < fuel) :
    ∃ b, itemMarkerFrom (before.reverse ++ y) fuel (size before) = .error b := by
  induction h generalizing y fuel with
  | @wide before word rest c hdash hword hwide =>
      obtain ⟨fuel, rfl⟩ : ∃ k, fuel = k + 1 := ⟨fuel - 1, by omega⟩
      rw [itemMarkerFrom_succ, if_neg hdash]
      rcases dropBytes_lastWordStart hword with ⟨-, hone, -⟩ | ⟨-, b, hdrop⟩
      · have := hone c rfl
        omega
      · dsimp only
        rw [hdrop]
        exact ⟨b, rfl⟩
  | @property before word rest hdash hword hmark _ ih =>
      obtain ⟨fuel, rfl⟩ : ∃ k, fuel = k + 1 := ⟨fuel - 1, by omega⟩
      rw [itemMarkerFrom_succ, if_neg hdash]
      dsimp only
      rcases dropBytes_lastWordStart hword with ⟨hstart, -, hdrop⟩ | ⟨-, b, hdrop⟩
      · obtain ⟨z, hz, hlt⟩ := hword.append y
        have hshorter := hlt (ne_nil_of_isPropertyMark hmark)
        rw [hdrop, hstart, ok_bind, if_pos hmark, hz]
        exact ih z fuel (by omega)
      · rw [hdrop]
        exact ⟨b, rfl⟩

theorem itemMarker_of_dashLost {x : Text} (h : DashLost x.reverse) (y : Text) :
    ∃ b, itemMarker (x ++ y) (size x) = .error b := by
  have hfuel : x.reverse.length < (x ++ y).length + 1 := by
    rw [List.length_reverse, List.length_append]
    omega
  have hlost := itemMarkerFrom_of_dashLost h y ((x ++ y).length + 1) hfuel
  rwa [List.reverse_reverse, size_reverse] at hlost

/-- The search for the dash of the item at `place` stumbles. -/
def DashLostAt (source : Text) (place : Nat) : Prop :=
  ∃ x y, source = x ++ y ∧ size x = place ∧ DashLost x.reverse

/-- **The dash of an item is found at a boundary**, unless the search for it stumbles. -/
theorem yields_itemMarker (h : source.IsBoundary place) :
    Yields (fun _ => DashLostAt source place) (fun r => ∀ n, r = some n → source.IsBoundary n)
      (itemMarker source place) := by
  obtain ⟨x, y, rfl, rfl⟩ := h
  by_cases hlost : DashLost x.reverse
  · obtain ⟨b, hb⟩ := itemMarker_of_dashLost hlost y
    rw [hb]
    exact ⟨x, y, rfl, rfl, hlost⟩
  · have hfinds := finds_itemMarkerFrom hlost y ((x ++ y).length + 1)
    rw [List.reverse_reverse, size_reverse] at hfinds
    exact hfinds.mono_error fun _ h => h.elim

theorem itemMarker_of_dashLostAt (h : DashLostAt source place) :
    ∃ b, itemMarker source place = .error b := by
  obtain ⟨x, y, rfl, rfl, hlost⟩ := h
  exact itemMarker_of_dashLost hlost y

end Extent

end YamlEdit
