import YamlEdit.Proofs.Sheets
import YamlEdit.Value.Source.Stream

/-!
# Margins and plain lines in values

The scanner of values is another one than that of documents: it counts places in bytes, breaks lines
at three characters more, and cannot read them all. In a text without such characters
(`Text.IsLegible`) it steps over margins and reads plain lines all the same.

Main statements: `Scan.skipToToken_margin`, `Scan.scanPlain_stop` and `Scan.scanPlain_margin`.
-/

namespace YamlEdit

/-! ## Places in bytes -/

namespace Mark

/-- The mark behind a text, in bytes. -/
def acrossBytes (m : Mark) (t : Text) : Mark :=
  ⟨m.index + Text.size t, m.line + t.count '\n', Text.columnBehind m.column t⟩

@[simp] theorem acrossBytes_nil (m : Mark) : m.acrossBytes [] = m := rfl

theorem acrossBytes_append (m : Mark) (t u : Text) :
    m.acrossBytes (t ++ u) = (m.acrossBytes t).acrossBytes u := by
  simp [acrossBytes, Text.size_append, Text.columnBehind_append, Nat.add_assoc]

theorem acrossBytes_of_not_mem {t : Text} (h : '\n' ∉ t) (m : Mark) :
    m.acrossBytes t = ⟨m.index + Text.size t, m.line, m.column + t.length⟩ := by
  simp [acrossBytes, Text.columnBehind_of_not_mem h, List.count_eq_zero.mpr h]

end Mark

namespace Value.Source

/-- The characters that only the scanner of values takes for line breaks or white space. -/
def isForeign (c : Char) : Bool :=
  c == '\u0085' || c == '\u2028' || c == '\u2029' || c == '\uFEFF'

end Value.Source

namespace Text

/-- Whether all characters are read by both scanners alike. -/
def IsLegible (t : Text) : Prop :=
  ∀ c ∈ t, Value.Source.isTextChar c = true ∧ Value.Source.isForeign c = false

instance (t : Text) : Decidable t.IsLegible := List.decidableBAll _ t

theorem IsLegible.append_iff {t u : Text} : (t ++ u).IsLegible ↔ t.IsLegible ∧ u.IsLegible :=
  List.forall_mem_append

theorem IsLegible.of_spaces (n : Nat) : (spaces n).IsLegible := by
  intro c hc
  obtain rfl := List.eq_of_mem_replicate hc
  decide

theorem IsLegible.getD {t : Text} (h : t.IsLegible) (n : Nat) :
    Value.Source.isForeign (t.getD n '\x00') = false := by
  rw [List.getD_eq_getElem?_getD]
  cases hget : t[n]? with
  | none => rfl
  | some c => exact (h c (List.mem_of_getElem? hget)).2

theorem IsLegible.headD {t : Text} (h : t.IsLegible) :
    Value.Source.isForeign (t.headD '\x00') = false := by
  cases t with
  | nil => rfl
  | cons c t => exact h.getD 0

end Text

namespace Value.Source

section Characters

variable {c next : Char}

theorem isBreak_eq (h : isForeign c = false) : isBreak c = Token.isBreak c := by
  simp only [isForeign, Bool.or_eq_false_iff] at h
  simp [isBreak, Token.isBreak, h]

theorem isLineEnd_eq (h : isForeign c = false) : isLineEnd c = Token.isBreakOrEnd c := by
  rw [isLineEnd, isBreak_eq h]
  rfl

theorem isGap_eq (h : isForeign c = false) : isGap c = Token.isSpaceOrEnd c := by
  rw [isGap, isLineEnd_eq h]
  rfl

theorem isPlainChar_eq (hc : isForeign c = false) (hnext : isForeign next = false) :
    Scan.isPlainChar false c next = YamlEdit.Scan.isPlainChar false c next := by
  rw [Scan.isPlainChar, YamlEdit.Scan.isPlainChar, isGap_eq hc, isGap_eq hnext]
  cases Token.isSpaceOrEnd c <;> cases hcolon : c == ':' <;> cases Token.isSpaceOrEnd next <;>
    simp_all

end Characters

end Value.Source

/-- A margin is spaces, or there is a first line that it leaves. -/
theorem Token.Margin.exists_firstLine {g : Text} (h : Margin g) :
    ∃ k, g = Text.spaces k ∨ ∃ body u, g = Text.spaces k ++ (body ++ '\n' :: u) ∧ Margin u ∧
      (body = [] ∨ ∃ b, body = '#' :: b ∧ ∀ c ∈ b, isBreakOrEnd c = false) := by
  induction h with
  | nil => exact ⟨0, .inl rfl⟩
  | space _ ih =>
      obtain ⟨k, rfl | ⟨body, u, rfl, hu, hbody⟩⟩ := ih
      · exact ⟨k + 1, .inl rfl⟩
      · exact ⟨k + 1, .inr ⟨body, u, rfl, hu, hbody⟩⟩
  | @feed u hu _ => exact ⟨0, .inr ⟨[], u, rfl, hu, .inl rfl⟩⟩
  | @comment b u hb hrest _ =>
      cases hrest with
      | feed hu => exact ⟨0, .inr ⟨'#' :: b, u, rfl, hu, .inr ⟨b, rfl, hb⟩⟩⟩

namespace Value.Source

/-! ## Steps -/

/-- The scanner behind a text, in front of `v`. -/
def Scanner.ahead (s : Scanner) (a v : Text) : Scanner :=
  { s with
    rest := v
    mark := s.mark.acrossBytes a }

/-- The scanner behind a margin, in front of `v`. -/
def Scanner.reach (s : Scanner) (g v : Text) : Scanner :=
  { s.ahead g v with keyAllowed := s.keyAllowed || g.contains '\n' }

/-- Neither a mark of a document nor a comment comes next. -/
def Scanner.AtWord (s : Scanner) : Prop :=
  s.rest.headD '\x00' ≠ '#' ∧
    (s.mark.column = 0 → YamlEdit.Scan.isDocumentMarker '-' s.rest = false ∧
    YamlEdit.Scan.isDocumentMarker '.' s.rest = false)

namespace Scan

variable {β : Type} {s s' : Scanner} {a g v x : Text}

theorem bind_of_ok {α : Type} {r : Scan α} {y : α} (h : r s = .ok (y, s')) (f : α → Scan β) :
    (r >>= f) s = f y s' := by
  show Except.bind (r s) _ = _
  rw [h]
  rfl

theorem get_bind (f : Scanner → Scan β) : ((get : Scan Scanner) >>= f) s = f s s := rfl

theorem mark_bind (f : Mark → Scan β) : (mark >>= f) s = f s.mark s := rfl

theorem fuel_bind (f : Nat → Scan β) : (fuel >>= f) s = f s.bound s := rfl

theorem peek_bind (f : Char → Scan β) : (peek >>= f) s = f (s.rest.headD '\x00') s := rfl

theorem peekAt_bind (n : Nat) (f : Char → Scan β) :
    (peekAt n >>= f) s = f (s.rest.getD n '\x00') s := rfl

theorem setKeyAllowed_bind (allowed : Bool) (f : Unit → Scan β) :
    (setKeyAllowed allowed >>= f) s = f () { s with keyAllowed := allowed } := rfl

/-- Characters of one line are stepped over. -/
theorem skip_eq (hrest : s.rest = a ++ x) (hline : '\n' ∉ a) :
    skip a.length s = .ok ((), s.ahead a x) := by
  show Except.ok ((), { s with
    rest := s.rest.drop a.length
    mark := { s.mark with
      index := s.mark.index + Text.size (s.rest.take a.length)
      column := s.mark.column + a.length } }) = _
  rw [hrest, List.drop_left, List.take_left, Scanner.ahead, Mark.acrossBytes_of_not_mem hline]

/-- A part of the line is taken. -/
theorem takeLine_eq {p : Char → Bool} (hrest : s.rest = a ++ x)
    (htake : (a ++ x).takeWhile p = a) (hline : '\n' ∉ a) :
    takeLine p s = .ok (a, s.ahead a x) := by
  unfold takeLine
  rw [get_bind, hrest, htake]
  exact bind_of_ok (skip_eq hrest hline) _

theorem readBreak_feed (hrest : s.rest = '\n' :: v) :
    readBreak s = .ok (['\n'], s.ahead ['\n'] v) := by
  cases s
  cases hrest
  rfl

theorem skipComment_of_ne (h : s.rest.headD '\x00' ≠ '#') : skipComment s = .ok ((), s) := by
  unfold skipComment
  rw [peek_bind, if_neg h]
  rfl

theorem skipComment_of_comment {body : Text} (hbody : ∀ c ∈ body, isLineEnd c = false)
    (hrest : s.rest = '#' :: body ++ '\n' :: v) :
    skipComment s = .ok ((), s.ahead ('#' :: body) ('\n' :: v)) := by
  have hline : '\n' ∉ '#' :: body := by
    intro h
    rcases List.mem_cons.mp h with h | h
    · cases h
    · exact absurd (hbody _ h) (by decide)
  have htake : ('#' :: body ++ '\n' :: v).takeWhile (!isLineEnd ·) = '#' :: body := by
    refine YamlEdit.Scan.takeWhile_append_stop (fun c hc => ?_) fun c hc => ?_
    · rcases List.mem_cons.mp hc with rfl | hc
      · decide
      · simp [hbody c hc]
    · cases hc
      decide
  unfold skipComment
  rw [peek_bind, hrest, List.cons_append, List.headD_cons, if_pos rfl]
  exact bind_of_ok (takeLine_eq hrest htake hline) _

/-! ## Reading margins -/

/-- What is done behind the white space and the comment of a line. -/
def leaveLine (fuel : Nat) : Scan Unit := do
  if isBreak (← peek) then
    let _ ← readBreak
    setKeyAllowed true
    skipToToken fuel

/-- White space and a comment, and then the rest. -/
theorem skipToToken_of_line {fuel k : Nat} {body : Text} (hflow : s.flowLevel = 0)
    (hrest : s.rest = Text.spaces k ++ (body ++ x))
    (hbody : body = [] ∧ x.headD '\x00' ≠ '#' ∧ Token.isSpace (x.headD '\x00') = false ∨
      x.head? = some '\n' ∧ ∃ b, body = '#' :: b ∧ ∀ c ∈ b, isLineEnd c = false)
    (hmark : (body ++ x).headD '\x00' ≠ '\uFEFF') :
    skipToToken (fuel + 1) s = leaveLine fuel (s.ahead (Text.spaces k ++ body) x) := by
  have hstart : s.rest.headD '\x00' ≠ '\uFEFF' := by
    rw [hrest]
    cases k with
    | succ k => simp [Text.spaces, List.replicate_succ]
    | zero => exact hmark
  have hspace : ' ' ∉ (body ++ x).head? ∧ '\t' ∉ (body ++ x).head? := by
    rcases hbody with ⟨rfl, -, hspace⟩ | ⟨-, b, rfl, -⟩
    · cases x with
      | nil => simp
      | cons c x =>
          rw [List.headD_cons, Token.isSpace, Bool.or_eq_false_iff] at hspace
          simp only [beq_eq_false_iff_ne, ne_eq] at hspace
          simp [hspace]
    · simp
  have htake : ∀ tabs : Bool, (Text.spaces k ++ (body ++ x)).takeWhile
      (fun c => c == ' ' || (tabs && c == '\t')) = Text.spaces k := by
    intro tabs
    refine YamlEdit.Scan.takeWhile_append_stop (by simp [Text.spaces]) fun c hc => ?_
    have hne : c ≠ ' ' ∧ c ≠ '\t' :=
      ⟨fun h => hspace.1 (h ▸ hc), fun h => hspace.2 (h ▸ hc)⟩
    simp [hne]
  have hcomment : skipComment (s.ahead (Text.spaces k) (body ++ x)) =
      .ok ((), s.ahead (Text.spaces k ++ body) x) := by
    rcases hbody with ⟨rfl, hhash, -⟩ | ⟨hx, b, rfl, hb⟩
    · rw [List.append_nil]
      exact skipComment_of_ne hhash
    · obtain ⟨x, rfl⟩ := List.head?_eq_some_iff.mp hx
      rw [skipComment_of_comment hb rfl]
      simp [Scanner.ahead, Mark.acrossBytes_append]
  rw [skipToToken, mark_bind, peek_bind, if_neg (fun h => hstart h.2)]
  dsimp only
  rw [get_bind, bind_of_ok (takeLine_eq hrest (htake _) (by simp [Text.spaces])),
    bind_of_ok hcomment, peek_bind,
    leaveLine, peek_bind]
  simp only [if_pos hflow]

/-- **A margin is stepped over**, and what is behind it comes next. -/
theorem skipToToken_margin {fuel : Nat} (hg : Token.Margin g) (hlegible : (g ++ v).IsLegible)
    (hblank : Token.isSpaceOrBreak (v.headD '\x00') = false) (hhash : v.headD '\x00' ≠ '#')
    (hflow : s.flowLevel = 0) (hrest : s.rest = g ++ v) (hfuel : g.length < fuel) :
    skipToToken fuel s = .ok ((), s.reach g v) := by
  induction h : g.length using Nat.strongRecOn generalizing g s fuel with
  | _ n ih =>
  subst h
  obtain ⟨fuel, rfl⟩ := Nat.exists_eq_add_one.mpr (Nat.zero_lt_of_lt hfuel)
  have hforeign := (Text.IsLegible.append_iff.mp hlegible).2.headD
  obtain ⟨k, rfl | ⟨body, u, rfl, hu, hbody⟩⟩ := hg.exists_firstLine
  · -- the token is on this line
    rw [Token.isSpaceOrBreak, Bool.or_eq_false_iff] at hblank
    have hmark : v.headD '\x00' ≠ '\uFEFF' := by
      intro h
      rw [h] at hforeign
      cases hforeign
    have hend : isBreak (v.headD '\x00') = false := (isBreak_eq hforeign).trans hblank.2
    rw [skipToToken_of_line hflow hrest (.inl ⟨rfl, hhash, hblank.1⟩) hmark, leaveLine,
      peek_bind, List.append_nil, Scanner.ahead, if_neg (ne_true_of_eq_false hend)]
    simp [Scanner.reach, Scanner.ahead, Text.spaces]
    rfl
  · have hrest' : s.rest = Text.spaces k ++ (body ++ '\n' :: (u ++ v)) := by simpa using hrest
    have hbody' : body = [] ∧ ('\n' :: (u ++ v)).headD '\x00' ≠ '#' ∧
        Token.isSpace (('\n' :: (u ++ v)).headD '\x00') = false ∨
          ('\n' :: (u ++ v)).head? = some '\n' ∧
            ∃ b, body = '#' :: b ∧ ∀ c ∈ b, isLineEnd c = false := by
      rcases hbody with h | ⟨b, hb, hends⟩
      · exact .inl ⟨h, by simp, rfl⟩
      · refine .inr ⟨rfl, b, hb, fun c hc => ?_⟩
        rw [isLineEnd_eq (hlegible c (by simp [hb, hc])).2]
        exact hends c hc
    have hmark : (body ++ '\n' :: (u ++ v)).headD '\x00' ≠ '\uFEFF' := by
      rcases hbody with rfl | ⟨b, rfl, -⟩ <;> simp
    have hless : u.length < (Text.spaces k ++ (body ++ '\n' :: u)).length := by
      simp only [List.length_append, List.length_cons]
      omega
    rw [skipToToken_of_line hflow hrest' hbody' hmark, leaveLine, peek_bind]
    rw [if_pos (by rfl), bind_of_ok (readBreak_feed rfl)]
    have hlegible' : Text.IsLegible (u ++ v) := fun c hc => hlegible c (by
      rcases List.mem_append.mp hc with hc | hc <;> simp [hc])
    have hnext : skipToToken fuel
        { (s.ahead (Text.spaces k ++ body) ('\n' :: (u ++ v))).ahead ['\n']
        (u ++ v) with keyAllowed := true } = _ :=
      ih _ hless hu hlegible' hflow rfl (by omega) rfl
    rw [setKeyAllowed_bind, hnext]
    simp [Scanner.reach, Scanner.ahead, Mark.acrossBytes_append]
    exact (Mark.acrossBytes_append _ ['\n'] u).symm

/-! ## Reading plain lines -/

section PlainLine

variable {c : Char} {u w t : Text} {start stop : Mark} {column : Int} {gap : Gap} {back : Text}

theorem atDocumentMarker_bind (c : Char) (f : Bool → Scan β) : (atDocumentMarker c >>= f) s =
    f (s.mark.column == 0 && s.rest.take 3 == [c, c, c] && isGap (s.rest.getD 3 '\x00')) s := rfl

/-- Whether a legible scalar goes on. -/
theorem isPlainChar_of_legible (h : x.IsLegible) :
    isPlainChar false (x.headD '\x00') (x.getD 1 '\x00') =
      YamlEdit.Scan.isPlainChar false (x.headD '\x00') ((x.drop 1).headD '\x00') := by
  rw [isPlainChar_eq h.headD (h.getD 1)]
  cases x with
  | nil => rfl
  | cons c x => rw [getD_one_cons, List.drop_one, List.tail_cons]

theorem plainWord_of_not {fuel : Nat}
    (h : isPlainChar false (s.rest.headD '\x00') (s.rest.getD 1 '\x00') = false) :
    plainWord false start (fuel + 1) back s = .ok (back, s) := by
  rw [plainWord, peek_bind, peekAt_bind, if_neg (by simp), h]
  rfl

theorem plainWord_cons {fuel : Nat} (hrest : s.rest = c :: x) (hc : c ≠ '\n')
    (h : isPlainChar false c (x.headD '\x00') = true) :
    plainWord false start (fuel + 1) back s =
      plainWord false start fuel (c :: back) (s.ahead [c] x) := by
  rw [plainWord, peek_bind, peekAt_bind, hrest, getD_one_cons, List.headD_cons,
    if_neg (by simp), h]
  exact bind_of_ok (skip_eq (a := [c]) hrest (by simpa using hc.symm)) _

/-- A word is read up to what a plain scalar does not go on with. -/
theorem plainWord_of_staysPlain (start : Mark) (back : Text) {fuel : Nat}
    (hw : Token.staysPlain w = true) (hspace : ' ' ∉ w)
    (hx : YamlEdit.Scan.isPlainChar false (x.headD '\x00') ((x.drop 1).headD '\x00') = false)
    (hlegible : (w ++ x).IsLegible) (hrest : s.rest = w ++ x) (hfuel : w.length < fuel) :
    plainWord false start fuel back s = .ok (w.reverse ++ back, s.ahead w x) := by
  induction w generalizing s fuel back with
  | nil =>
      obtain ⟨fuel, rfl⟩ := Nat.exists_eq_add_one.mpr hfuel
      obtain rfl : s.rest = x := hrest
      exact plainWord_of_not ((isPlainChar_of_legible hlegible).trans hx)
  | cons c w ih =>
      obtain ⟨fuel, rfl⟩ := Nat.exists_eq_add_one.mpr (Nat.zero_lt_of_lt hfuel)
      have hne : c ≠ ' ' := fun h => hspace (h ▸ List.mem_cons_self)
      have hplain : YamlEdit.Scan.isPlainChar false c ((w ++ x).headD '\x00') = true := by
        rw [YamlEdit.Scan.staysPlain_cons, Bool.and_eq_true, beq_eq_false_iff_ne.mpr hne,
          Bool.false_or] at hw
        cases w with
        | nil => exact YamlEdit.Scan.isPlainChar_of_end hw.1
        | cons d w => exact hw.1
      have hfeed : c ≠ '\n' := by
        rintro rfl
        cases hplain
      have hread := isPlainChar_of_legible hlegible
      rw [List.cons_append, getD_one_cons, List.headD_cons, List.drop_one, List.tail_cons,
        hplain] at hread
      have hw' : Token.staysPlain w = true := by
        rw [YamlEdit.Scan.staysPlain_cons, Bool.and_eq_true] at hw
        exact hw.2
      rw [plainWord_cons hrest hfeed hread, ih _ hw' (fun h => hspace (List.mem_cons_of_mem c h))
        (fun d hd => hlegible d (List.mem_cons_of_mem c hd)) rfl (Nat.lt_of_succ_lt_succ hfuel)]
      simp [Scanner.ahead, ← Mark.acrossBytes_append]

/-- Spaces and line feeds behind a word. -/
theorem plainGap_blanks (gap : Gap) {p : Text} {fuel : Nat} (hp : ∀ c ∈ p, c = ' ' ∨ c = '\n')
    (hv : isBlank (v.headD '\x00') = false ∧ isBreak (v.headD '\x00') = false)
    (hrest : s.rest = p ++ v) (hfuel : p.length < fuel) :
    ∃ gap', plainGap start column fuel gap s = .ok (gap', s.ahead p v) ∧
      gap'.first.isSome = (gap.first.isSome || p.contains '\n') ∧
      ('\n' ∉ p → gap.first = none → gap' = { gap with blanks := gap.blanks ++ p }) := by
  induction p generalizing s fuel gap with
  | nil =>
      obtain ⟨fuel, rfl⟩ := Nat.exists_eq_add_one.mpr hfuel
      obtain rfl : s.rest = v := hrest
      refine ⟨gap, ?_, by simp, fun _ _ => by simp⟩
      rw [plainGap, peek_bind, if_neg (ne_true_of_eq_false hv.1), if_neg (ne_true_of_eq_false hv.2)]
      rfl
  | cons c p ih =>
      obtain ⟨fuel, rfl⟩ := Nat.exists_eq_add_one.mpr (Nat.zero_lt_of_lt hfuel)
      have hp' := fun d hd => hp d (List.mem_cons_of_mem c hd)
      rw [List.cons_append] at hrest
      have hhead : s.rest.headD '\x00' = c := by
        rw [hrest]
        rfl
      rcases hp c List.mem_cons_self with rfl | rfl
      · obtain ⟨gap', hrun, hfirst, hblanks⟩ := ih (s := s.ahead [' '] (p ++ v)) _ hp' rfl
          (Nat.lt_of_succ_lt_succ hfuel)
        refine ⟨gap', ?_, ?_, fun hfeed hnone => ?_⟩
        · rw [plainGap, peek_bind, hhead, if_pos (by decide), mark_bind,
            if_neg (fun h => absurd h.2.2 (by decide))]
          refine (bind_of_ok (skip_eq (a := [' ']) hrest (by decide)) _).trans (hrun.trans ?_)
          simp [Scanner.ahead, ← Mark.acrossBytes_append]
        · rw [hfirst]
          split <;> simp [*]
        · have := hblanks (fun h => hfeed (List.mem_cons_of_mem _ h)) (by simp [hnone])
          simpa [hnone] using this
      · obtain ⟨gap', hrun, hfirst, -⟩ :=
          ih (s := s.ahead ['\n'] (p ++ v)) _ hp' rfl (Nat.lt_of_succ_lt_succ hfuel)
        refine ⟨gap', ?_, ?_, fun hfeed => absurd List.mem_cons_self hfeed⟩
        · rw [plainGap, peek_bind, hhead, if_neg (by decide), if_pos (by decide),
            bind_of_ok (readBreak_feed hrest), hrun]
          simp [Scanner.ahead, ← Mark.acrossBytes_append]
        · rw [hfirst, Gap.addBreak]
          cases gap.first <;> simp

/-- What is done behind the words of a plain scalar. -/
def plainTail (start : Mark) (column : Int) (fuel : Nat) (gap : Gap) (back : Text) (stop : Mark) :
    Scan (Text × Mark × Bool) := do
  if isBlank (← peek) ∨ isBreak (← peek) then
    let gap ← plainGap start column (← Scan.fuel) gap
    if (← mark).column < column then
      return (back.reverse, stop, gap.first.isSome)
    plainWords start column fuel gap back stop
  else return (back.reverse, stop, gap.first.isSome)

/-- The first word of what is read. -/
theorem plainWords_first {fuel : Nat} (hw : Token.IsLineWord w) (hword : s.AtWord)
    (hx : YamlEdit.Scan.isPlainChar false (x.headD '\x00') ((x.drop 1).headD '\x00') = false)
    (hlegible : (w ++ x).IsLegible) (hrest : s.rest = w ++ x) (hflow : s.flowLevel = 0)
    (hbound : w.length < s.bound) :
    plainWords start column (fuel + 1) gap back stop s =
      plainTail start column fuel Gap.none (w.reverse ++ gap.fold.reverse ++ back)
        (s.ahead w x).mark (s.ahead w x) := by
  have hread := plainWord_of_staysPlain start [] hw.stays hw.space hx hlegible hrest hbound
  obtain ⟨hhash, hmarker⟩ := hword
  have hstop : ∀ c, (s.mark.column = 0 → YamlEdit.Scan.isDocumentMarker c s.rest = false) →
      (s.mark.column == 0 && s.rest.take 3 == [c, c, c] && isGap (s.rest.getD 3 '\x00')) =
        false := by
    intro c hc
    rw [Bool.and_assoc, isGap_eq ((hrest ▸ hlegible).getD 3)]
    cases hcolumn : s.mark.column == 0 with
    | false => rfl
    | true => exact hc (by simpa using hcolumn)
  have hlevel : ¬ 0 < s.flowLevel := by omega
  rw [plainWords, atDocumentMarker_bind, hstop '-' fun h => (hmarker h).1, atDocumentMarker_bind,
    hstop '.' fun h => (hmarker h).2, peek_bind, if_neg (by simpa using hhash), get_bind]
  dsimp only
  rw [fuel_bind, decide_eq_false hlevel, bind_of_ok hread]
  rw [if_neg (by simpa using hw.ne_nil)]
  rw [mark_bind]
  simp only [List.append_nil, pure_bind, Bool.not_false, true_and]
  rfl

/-- Spaces in front of a word. -/
theorem plainTail_spaces (start : Mark) (stop : Mark) (back : Text)
    (fuel : Nat) {n : Nat} {y : Text}
    (hblank : Token.isSpaceOrBreak (y.headD '\x00') = false)
    (hlegible : y.IsLegible) (hrest : s.rest = Text.spaces (n + 1) ++ y)
    (hcolumn : column ≤ s.mark.column) (hbound : n + 1 < s.bound) :
    plainTail start column fuel Gap.none back stop s =
      plainWords start column fuel ⟨Text.spaces (n + 1), .none, []⟩ back stop
        (s.ahead (Text.spaces (n + 1)) y) := by
  have hfeed : '\n' ∉ Text.spaces (n + 1) := by simp [Text.spaces]
  rw [Token.isSpaceOrBreak, Bool.or_eq_false_iff, ← isBreak_eq hlegible.headD] at hblank
  obtain ⟨gap, hgap, -, hspaces⟩ := plainGap_blanks Gap.none (p := Text.spaces (n + 1))
    (by simp [Text.spaces]) hblank hrest (by simpa [Text.spaces] using hbound)
  obtain rfl := hspaces hfeed rfl
  have hleft : ¬ ((s.ahead (Text.spaces (n + 1)) y).mark.column : Int) < column := by
    rw [Scanner.ahead, Mark.acrossBytes_of_not_mem hfeed]
    simp only
    omega
  rw [plainTail, peek_bind, peek_bind, hrest]
  rw [if_pos (.inl rfl), fuel_bind, bind_of_ok hgap, mark_bind, if_neg hleft]
  rfl

/-- **A plain line is read up to its end**, in front of what a plain scalar does not go on with. -/
theorem plainWords_line (fuel : Nat) (hu : Token.LineWords u) (hword : s.AtWord)
    (hx : YamlEdit.Scan.isPlainChar false (x.headD '\x00') ((x.drop 1).headD '\x00') = false)
    (hlegible : (u ++ x).IsLegible) (hrest : s.rest = u ++ x) (hflow : s.flowLevel = 0)
    (hcolumn : column ≤ s.mark.column + 1) (hbound : u.length < s.bound) (hfuel : u.length < fuel) :
    ∃ fuel', fuel ≤ fuel' + u.length ∧ plainWords start column fuel gap back stop s =
      plainTail start column fuel' Gap.none (u.reverse ++ gap.fold.reverse ++ back)
        (s.ahead u x).mark (s.ahead u x) := by
  obtain ⟨fuel, rfl⟩ := Nat.exists_eq_add_one.mpr (Nat.zero_lt_of_lt hfuel)
  induction hu generalizing s fuel gap back stop with
  | last hw =>
      exact ⟨fuel, Nat.add_le_add_left (List.length_pos_iff.mpr hw.ne_nil) fuel,
        plainWords_first hw hword hx hlegible hrest hflow hbound⟩
  | @more w y n hw hy ih =>
      have hpos := List.length_pos_iff.mpr hw.ne_nil
      have hlength : (w ++ (Text.spaces (n + 1) ++ y)).length = w.length + (n + 1 + y.length) := by
        simp [Text.spaces]
      rw [hlength] at hbound hfuel
      have hrest' : s.rest = w ++ (Text.spaces (n + 1) ++ (y ++ x)) := by simpa using hrest
      have hlegible' : Text.IsLegible (y ++ x) := fun c hc => hlegible c (by
        rcases List.mem_append.mp hc with hc | hc <;> simp [hc])
      have hhead := YamlEdit.Scan.headD_of_lineWords hy x
      have hfeed : '\n' ∉ w ++ Text.spaces (n + 1) := by
        simp [Text.spaces, YamlEdit.Scan.not_mem_of_staysPlain hw.stays]
      have hspaces : ('\n' : Char) ∉ w := fun h => hfeed (List.mem_append_left _ h)
      have hcolumn' : column ≤ (s.ahead w (Text.spaces (n + 1) ++ (y ++ x))).mark.column := by
        rw [Scanner.ahead, Mark.acrossBytes_of_not_mem hspaces]
        simp only
        omega
      have htail := fun fuel => plainTail_spaces start
        (s.ahead w (Text.spaces (n + 1) ++ (y ++ x))).mark
        (w.reverse ++ gap.fold.reverse ++ back) fuel
        (Token.not_isSpaceOrBreak_of hhead.1) hlegible'
        (s := s.ahead w (Text.spaces (n + 1) ++ (y ++ x))) rfl hcolumn'
        (show n + 1 < s.bound by omega)
      -- the words behind the spaces are on the same line
      have hnext :
          (s.ahead w (Text.spaces (n + 1) ++ (y ++ x))).ahead (Text.spaces (n + 1)) (y ++ x) =
          s.ahead (w ++ Text.spaces (n + 1)) (y ++ x) := by
        simp [Scanner.ahead, Mark.acrossBytes_append]
      have hplace : (s.ahead (w ++ Text.spaces (n + 1)) (y ++ x)).mark.column =
          s.mark.column + (w ++ Text.spaces (n + 1)).length := by
        rw [Scanner.ahead, Mark.acrossBytes_of_not_mem hfeed]
      rw [List.length_append] at hplace
      rw [hnext] at htail
      obtain ⟨fuel, rfl⟩ := Nat.exists_eq_add_one.mpr (show 0 < fuel by omega)
      obtain ⟨fuel', hle, hrun⟩ := ih (s := s.ahead (w ++ Text.spaces (n + 1)) (y ++ x))
        ⟨hhead.2, fun h => by omega⟩ hlegible' rfl hflow (by omega)
        (show y.length < s.bound by omega)
        fuel (by omega)
      refine ⟨fuel', by omega, ?_⟩
      rw [plainWords_first hw hword (by simp [Text.spaces, YamlEdit.Scan.isPlainChar,
        List.replicate_succ, Token.isSpaceOrEnd, Token.isSpace]) (by simpa using hlegible)
        hrest' hflow
        (by omega), htail, hrun]
      have hstate : (s.ahead (w ++ Text.spaces (n + 1)) (y ++ x)).ahead y x =
          s.ahead (w ++ (Text.spaces (n + 1) ++ y)) x := by
        simp [Scanner.ahead, Mark.acrossBytes_append]
      rw [hstate]
      simp [Gap.fold]

/-- Nothing follows where there is no white space. -/
theorem plainTail_end {fuel : Nat} (h : Token.isSpaceOrBreak (s.rest.headD '\x00') = false)
    (hlegible : s.rest.IsLegible) :
    plainTail start column fuel gap back stop s =
      .ok ((back.reverse, stop, gap.first.isSome), s) := by
  rw [Token.isSpaceOrBreak, Bool.or_eq_false_iff, ← isBreak_eq hlegible.headD] at h
  rw [plainTail, peek_bind, peek_bind, if_neg (fun h' => ?_)]
  · rfl
  · rcases h' with h' | h'
    · exact absurd h' (ne_true_of_eq_false h.1)
    · exact absurd h' (ne_true_of_eq_false h.2)

/-- Where the text or a comment comes next, no words are read. -/
theorem plainWords_stop {fuel : Nat} (h : s.rest = [] ∨ s.rest.head? = some '#')
    (hflow : s.flowLevel = 0) :
    plainWords start column (fuel + 1) gap back stop s =
      .ok ((back.reverse, stop, gap.first.isSome), s) := by
  rcases h with hend | hhash
  · have hread : ∀ fuel, plainWord false start fuel [] s = .ok ([], s) := by
      intro fuel
      cases fuel with
      | zero => rfl
      | succ fuel => exact plainWord_of_not (by rw [hend]; rfl)
    have hlevel : ¬ 0 < s.flowLevel := by omega
    rw [plainWords, atDocumentMarker_bind, atDocumentMarker_bind, peek_bind, hend, if_neg (by simp),
      get_bind]
    dsimp only
    rw [fuel_bind, decide_eq_false hlevel, bind_of_ok (hread _), if_pos List.isEmpty_nil,
      pure_bind, peek_bind, peek_bind, hend, if_neg (by decide)]
    rfl
  · rw [plainWords, atDocumentMarker_bind, atDocumentMarker_bind, peek_bind,
      if_pos (by simp [List.headD_eq_head?_getD, hhash])]
    rfl

/-- Of the margin behind a plain scalar the white space in front of the first comment is read, if
what comes next is further left or there is nothing more. -/
theorem plainTail_margin {fuel : Nat} (hg : Token.IsBreak g) (hlegible : (g ++ v).IsLegible)
    (hblank : Token.isSpaceOrBreak (v.headD '\x00') = false)
    (hleft : v = [] ∨ ((s.mark.acrossBytes g).column : Int) < column) (hrest : s.rest = g ++ v)
    (hbound : g.length < s.bound) (hflow : s.flowLevel = 0) :
    ∃ p q, g = p ++ q ∧ Token.Margin q ∧ plainTail start column (fuel + 1) Gap.none back stop s =
      .ok ((back.reverse, stop, p.contains '\n'), s.ahead p (q ++ v)) := by
  obtain ⟨p, q, rfl, hp, hq, hend⟩ := hg.margin.split
  refine ⟨p, q, rfl, hq, ?_⟩
  have hrest' : s.rest = p ++ (q ++ v) := by rw [hrest, List.append_assoc]
  have hstop : isBlank ((q ++ v).headD '\x00') = false ∧
      isBreak ((q ++ v).headD '\x00') = false := by
    rcases hend with rfl | hhash
    · rw [Token.isSpaceOrBreak, Bool.or_eq_false_iff,
        ← isBreak_eq (Text.IsLegible.append_iff.mp hlegible).2.headD] at hblank
      exact hblank
    · obtain ⟨q, rfl⟩ := List.head?_eq_some_iff.mp hhash
      exact ⟨rfl, rfl⟩
  have hfirst : isBlank (s.rest.headD '\x00') = true ∨ isBreak (s.rest.headD '\x00') = true := by
    have := hg.headD_append v
    rw [Token.isSpaceOrBreak, Bool.or_eq_true, ← isBreak_eq hlegible.headD, ← hrest] at this
    exact this
  rw [List.length_append] at hbound
  obtain ⟨gap, hgap, hsome, -⟩ :=
    plainGap_blanks Gap.none hp hstop hrest' (show p.length < s.bound by omega)
  have hsome : gap.first.isSome = p.contains '\n' := hsome
  rw [plainTail, peek_bind, peek_bind, if_pos hfirst, fuel_bind, bind_of_ok hgap, mark_bind]
  by_cases hcolumn : ((s.ahead p (q ++ v)).mark.column : Int) < column
  · rw [if_pos hcolumn, hsome]
    rfl
  · -- there is more to be read, which is no word
    have hno : q ++ v = [] ∨ (q ++ v).head? = some '#' := by
      rcases hend with rfl | hhash
      · rcases hleft with rfl | hleft
        · exact .inl rfl
        · rw [List.append_nil] at hleft
          exact absurd hleft hcolumn
      · rw [List.head?_append, hhash]
        exact .inr rfl
    rw [if_neg hcolumn, plainWords_stop (s := s.ahead p (q ++ v)) hno hflow, hsome]

/-- A plain scalar is its words. -/
theorem scanPlain_of_words {broken : Bool}
    (hwords : plainWords s.mark (s.indent + 1) s.bound Gap.none []
      s.mark s = .ok ((w, stop, broken), s')) :
    scanPlain s = .ok (⟨⟨s.mark, stop⟩, .scalar .plain w⟩,
      { s' with keyAllowed := s'.keyAllowed || broken }) := by
  rw [scanPlain, mark_bind, get_bind, fuel_bind, bind_of_ok hwords]
  cases broken with
  | true =>
      rw [Bool.or_true]
      rfl
  | false =>
      rw [Bool.or_false]
      rfl

section Scalar

variable (hw : Token.PlainLine w) (hrest : s.rest = w ++ x) (hlegible : (w ++ x).IsLegible)
  (hflow : s.flowLevel = 0) (hindent : s.indent ≤ s.mark.column)
  (hbound : (w ++ x).length < s.bound)

include hw hrest hlegible hflow hindent hbound

/-- The words of a plain line. -/
theorem exists_plainTail (hx : x.headD '\x00' ≠ '-' ∧ x.headD '\x00' ≠ '.')
    (hstop : YamlEdit.Scan.isPlainChar false (x.headD '\x00') ((x.drop 1).headD '\x00') = false) :
    ∃ fuel, plainWords s.mark (s.indent + 1) s.bound Gap.none [] s.mark s =
      plainTail s.mark (s.indent + 1) (fuel + 1) Gap.none w.reverse (s.ahead w x).mark
        (s.ahead w x) := by
  rw [List.length_append] at hbound
  have hword : s.AtWord := by
    rw [Scanner.AtWord, hrest]
    exact ⟨(hw.headD_append x).2, fun _ => (hw.noMark hx).2⟩
  obtain ⟨fuel, hle, hrun⟩ := plainWords_line s.bound hw.words hword hstop hlegible hrest hflow
    (show s.indent + 1 ≤ s.mark.column + 1 by omega) (by omega) (by omega)
  obtain ⟨fuel, rfl⟩ := Nat.exists_eq_add_one.mpr (show 0 < fuel by omega)
  refine ⟨fuel, hrun.trans ?_⟩
  simp [Gap.fold, Gap.none]

end Scalar

/-- A plain line in front of what is no white space. -/
theorem scanPlain_stop (hw : Token.PlainLine w)
    (hblank : Token.isSpaceOrBreak (x.headD '\x00') = false)
    (hstop : YamlEdit.Scan.isPlainChar false (x.headD '\x00') ((x.drop 1).headD '\x00') = false)
    (hmark : x.headD '\x00' ≠ '-' ∧ x.headD '\x00' ≠ '.')
    (hrest : s.rest = w ++ x) (hlegible : (w ++ x).IsLegible) (hflow : s.flowLevel = 0)
    (hindent : s.indent ≤ s.mark.column) (hbound : (w ++ x).length < s.bound) :
    ∃ token, token.item = .scalar .plain w ∧ scanPlain s = .ok (token, s.ahead w x) := by
  obtain ⟨fuel, hwords⟩ := exists_plainTail hw hrest hlegible hflow hindent hbound hmark hstop
  rw [plainTail_end hblank (Text.IsLegible.append_iff.mp hlegible).2,
    List.reverse_reverse] at hwords
  refine ⟨⟨⟨s.mark, (s.ahead w x).mark⟩, .scalar .plain w⟩, rfl,
    (scanPlain_of_words hwords).trans ?_⟩
  simp [Gap.none]

/-- **A plain line with a margin behind it**, in front of what stands further left. -/
theorem scanPlain_margin (hw : Token.PlainLine w) (hg : Token.IsBreak g)
    (hblank : Token.isSpaceOrBreak (v.headD '\x00') = false)
    (hleft : v = [] ∨ ((s.mark.acrossBytes (w ++ g)).column : Int) ≤ s.indent)
    (hrest : s.rest = w ++ (g ++ v)) (hlegible : (w ++ (g ++ v)).IsLegible)
    (hflow : s.flowLevel = 0)
    (hindent : s.indent ≤ s.mark.column) (hbound : (w ++ (g ++ v)).length < s.bound) :
    ∃ p q token, g = p ++ q ∧ Token.Margin q ∧ token.item = .scalar .plain w ∧
      scanPlain s = .ok (token, { s.ahead (w ++ p) (q ++ v) with
        keyAllowed := s.keyAllowed || p.contains '\n' }) := by
  have hstop : YamlEdit.Scan.isPlainChar false ((g ++ v).headD '\x00')
      (((g ++ v).drop 1).headD '\x00') = false := by
    rw [YamlEdit.Scan.isPlainChar, if_pos]
    rw [Token.isSpaceOrEnd_eq, hg.headD_append v, Bool.true_or]
  obtain ⟨fuel, hwords⟩ := exists_plainTail hw hrest hlegible hflow hindent hbound
    (hg.noMark v) hstop
  rw [List.length_append, List.length_append] at hbound
  have hlegible' := (Text.IsLegible.append_iff.mp hlegible).2
  obtain ⟨p, q, hpq, hq, htail⟩ := plainTail_margin (s := s.ahead w (g ++ v))
    hg hlegible' hblank
    (hleft.imp_right fun h => by
      rw [Scanner.ahead, ← Mark.acrossBytes_append]
      exact Int.lt_add_one_of_le h) rfl (show g.length < s.bound by omega) hflow
  rw [htail, List.reverse_reverse] at hwords
  refine ⟨p, q, ⟨⟨s.mark, (s.ahead w (g ++ v)).mark⟩, .scalar .plain w⟩, hpq, hq, rfl,
    (scanPlain_of_words hwords).trans ?_⟩
  simp [Scanner.ahead, Mark.acrossBytes_append]

end PlainLine

end Scan

end Value.Source

end YamlEdit
