import YamlEdit.Proofs.Layout
import YamlEdit.Proofs.PlainScalars

/-!
# Margins and plain lines

Between the tokens of a text that is laid out in lines there are spaces, line feeds and comments
(`Token.Margin`). The scanner steps across them, and `Mark.over` tells where it is then. A plain
scalar that lies on one line (`Token.PlainLine`) is read up to its last character, wherever it
stands, if a key ends there or a margin follows that leaves the block.

Main statements: `Scan.skipToToken_margin` and `Scan.plainWords_line`.
-/

namespace YamlEdit

theorem getD_one_cons (c : Char) (t : Text) : (c :: t).getD 1 '\x00' = t.headD '\x00' := by
  cases t <;> rfl

theorem getD_one_of_ne_end {w x : Text} (h : Token.isSpaceOrEnd (w.getD 1 '\x00') = false) :
    (w ++ x).getD 1 '\x00' = w.getD 1 '\x00' := by
  match w with
  | [] | [_] => cases h
  | _ :: _ :: _ => rfl

namespace Mark

/-- The mark behind a character. -/
def past (m : Mark) (c : Char) : Mark :=
  if c = '\n' then ⟨m.index + 1, m.line + 1, 0⟩ else ⟨m.index + 1, m.line, m.column + 1⟩

/-- The mark behind a text. -/
def across (m : Mark) (t : Text) : Mark := t.foldl past m

@[simp] theorem across_nil (m : Mark) : m.across [] = m := rfl

@[simp] theorem across_cons (m : Mark) (c : Char) (t : Text) :
    m.across (c :: t) = (m.past c).across t :=
  rfl

theorem across_append (m : Mark) (t u : Text) : m.across (t ++ u) = (m.across t).across u :=
  List.foldl_append

theorem index_across (m : Mark) (t : Text) : (m.across t).index = m.index + t.length := by
  induction t generalizing m with
  | nil => rfl
  | cons c t ih =>
      rw [across_cons, ih, List.length_cons, past]
      split <;> simp only <;> omega

/-- Behind characters of one line. -/
theorem across_of_not_mem {t : Text} (h : '\n' ∉ t) (m : Mark) :
    m.across t = ⟨m.index + t.length, m.line, m.column + t.length⟩ := by
  induction t generalizing m with
  | nil => rfl
  | cons c t ih =>
      have hc : c ≠ '\n' := fun hc => h (hc ▸ List.mem_cons_self)
      rw [across_cons, ih fun ht => h (List.mem_cons_of_mem c ht), past, if_neg hc,
        List.length_cons]
      exact congrArg₂ (Mark.mk · m.line ·) (Nat.add_right_comm _ _ _) (Nat.add_right_comm _ _ _)

theorem line_le_across (m : Mark) (t : Text) : m.line ≤ (m.across t).line := by
  induction t generalizing m with
  | nil => exact Nat.le_refl _
  | cons c t ih =>
      refine Nat.le_trans ?_ (ih (m.past c))
      rw [past]
      split <;> simp

/-- A line feed leaves the line. -/
theorem line_lt_across {t : Text} (h : '\n' ∈ t) (m : Mark) : m.line < (m.across t).line := by
  obtain ⟨u, v, rfl⟩ := List.append_of_mem h
  rw [across_append, across_cons]
  calc m.line ≤ (m.across u).line := line_le_across m u
    _ < ((m.across u).past '\n').line := Nat.lt_succ_self _
    _ ≤ _ := line_le_across _ v

end Mark

namespace Token

theorem isSpaceOrBreak_headD_append {u : Text} (h : isSpaceOrBreak (u.headD '\x00') = true)
    (v : Text) : isSpaceOrBreak ((u ++ v).headD '\x00') = true := by
  cases u with
  | nil => cases h
  | cons c u => exact h

theorem isSpaceOrEnd_headD_append {u : Text} (h : isSpaceOrBreak (u.headD '\x00') = true)
    (v : Text) : isSpaceOrEnd ((u ++ v).headD '\x00') = true := by
  rw [isSpaceOrEnd_eq, isSpaceOrBreak_headD_append h, Bool.true_or]

/-! ## Margins -/

/-- Spaces, line feeds and comments, which end with a line feed. -/
inductive Margin : Text → Prop where
  | nil : Margin []
  | space {u : Text} (rest : Margin u) : Margin (' ' :: u)
  | feed {u : Text} (rest : Margin u) : Margin ('\n' :: u)
  | comment {body u : Text} (hbody : ∀ c ∈ body, isBreakOrEnd c = false)
    (rest : Margin ('\n' :: u)) :
      Margin ('#' :: (body ++ '\n' :: u))

/-- Whether a text is a margin, perhaps one that starts in a comment. -/
def isMargin : (comment : Bool) → Text → Bool
  | comment, [] => !comment
  | true, c :: t => if c = '\n' then isMargin false t else !isBreakOrEnd c && isMargin true t
  | false, c :: t => if c = ' ' ∨ c = '\n' then isMargin false t else c == '#' && isMargin true t

theorem margin_iff (t : Text) : (isMargin false t = true ↔ Margin t) ∧
    (isMargin true t = true ↔ ∃ body u, t = body ++ '\n' :: u ∧
      (∀ c ∈ body, isBreakOrEnd c = false) ∧ Margin u) := by
  induction t with
  | nil => exact ⟨by simp [isMargin, Margin.nil], by simp [isMargin]⟩
  | cons c t ih =>
      constructor
      · rw [isMargin]
        split
        · next h =>
            rw [ih.1]
            rcases h with rfl | rfl
            · exact ⟨.space, fun h => by cases h; assumption⟩
            · exact ⟨.feed, fun h => by cases h; assumption⟩
        · next h =>
            rw [Bool.and_eq_true, beq_iff_eq, ih.2]
            constructor
            · rintro ⟨rfl, body, u, rfl, hbody, hu⟩
              exact .comment hbody (.feed hu)
            · intro hmargin
              cases hmargin with
              | space | feed => simp at h
              | comment hbody hrest =>
                  cases hrest with
                  | feed hu => exact ⟨rfl, _, _, rfl, hbody, hu⟩
      · rw [isMargin]
        split
        · next h =>
            subst h
            rw [ih.1]
            constructor
            · exact fun h => ⟨[], t, rfl, nofun, h⟩
            · rintro ⟨body, u, heq, hbody, hu⟩
              cases body with
              | nil => cases heq; exact hu
              | cons d body =>
                  cases heq
                  exact absurd (hbody _ List.mem_cons_self) (by decide)
        · next h =>
            rw [Bool.and_eq_true, Bool.not_eq_true', ih.2]
            constructor
            · rintro ⟨hc, body, u, rfl, hbody, hu⟩
              exact ⟨c :: body, u, rfl, List.forall_mem_cons.mpr ⟨hc, hbody⟩, hu⟩
            · rintro ⟨body, u, heq, hbody, hu⟩
              cases body with
              | nil => cases heq; exact absurd rfl h
              | cons d body =>
                  cases heq
                  exact ⟨hbody _ List.mem_cons_self, body, u, rfl,
                    fun c hc => hbody c (List.mem_cons_of_mem _ hc), hu⟩

instance (t : Text) : Decidable (Margin t) := decidable_of_iff _ (margin_iff t).1

namespace Margin

variable {g g' : Text}

theorem append (h : Margin g) (h' : Margin g') : Margin (g ++ g') := by
  induction h with
  | nil => exact h'
  | space _ ih => exact .space ih
  | feed _ ih => exact .feed ih
  | comment hbody _ ih =>
      rw [List.cons_append, List.append_assoc]
      exact .comment hbody ih

theorem of_spaces (n : Nat) : Margin (Text.spaces n) := by
  induction n with
  | zero => exact .nil
  | succ n ih => exact .space ih

/-- Spaces and line feeds are a margin. -/
theorem of_blank {p : Text} (h : ∀ c ∈ p, c = ' ' ∨ c = '\n') : Margin p := by
  induction p with
  | nil => exact .nil
  | cons c p ih =>
      have hp := ih fun d hd => h d (List.mem_cons_of_mem c hd)
      rcases h c List.mem_cons_self with rfl | rfl
      · exact .space hp
      · exact .feed hp

/-- White space at the start of a margin is no tab. -/
theorem headD_ne_tab (h : Margin g) (hfirst : isSpaceOrBreak (g.headD '\x00') = true) (v : Text) :
    (g ++ v).headD '\x00' ≠ '\t' := by
  cases h with
  | nil => cases hfirst
  | space _ | feed _ => simp
  | comment _ _ => cases hfirst

/-- A margin up to its first comment. -/
theorem split (h : Margin g) : ∃ p q, g = p ++ q ∧ (∀ c ∈ p, c = ' ' ∨ c = '\n') ∧ Margin q ∧
    (q = [] ∨ q.head? = some '#') := by
  induction h with
  | nil => exact ⟨[], [], rfl, nofun, .nil, .inl rfl⟩
  | space _ ih =>
      obtain ⟨p, q, rfl, hp, hq, hhead⟩ := ih
      refine ⟨' ' :: p, q, rfl, ?_, hq, hhead⟩
      simpa using hp
  | feed _ ih =>
      obtain ⟨p, q, rfl, hp, hq, hhead⟩ := ih
      refine ⟨'\n' :: p, q, rfl, ?_, hq, hhead⟩
      simpa using hp
  | comment hbody hrest _ => exact ⟨[], _, rfl, nofun, .comment hbody hrest, .inr rfl⟩

end Margin

/-! ## Plain lines -/

/-- Whether every character but the spaces is one that a plain scalar goes on with. -/
def staysPlain : Text → Bool
  | [] => true
  | c :: t => (c == ' ' || Scan.isPlainChar false c (t.headD '\x00')) && staysPlain t

/-- A plain scalar on one line: it starts like nothing else, no key ends and no comment starts in
it, and it does not end with white space. -/
structure PlainLine (u : Text) : Prop where
  starts : StartsScalar u .plain
  block : u.headD '\x00' ≠ '|' ∧ u.headD '\x00' ≠ '>'
  stays : staysPlain u = true
  last : u.getLast?.any (!Text.isBlank ·) = true
  comment : hasComment true u = false
  marker : Scan.isDocumentMarker '-' u = false ∧ Scan.isDocumentMarker '.' u = false

instance (t : Text) : Decidable (StartsScalar t .plain) :=
  inferInstanceAs (Decidable (isSpaceOrBreak (t.headD '\x00') = false ∧
    isReserved (t.headD '\x00') = false ∧
      (Extent.isIndicator (t.headD '\x00') = true → isSpaceOrEnd (t.getD 1 '\x00') = false)))

instance (u : Text) : Decidable (PlainLine u) :=
  decidable_of_iff (StartsScalar u .plain ∧ (u.headD '\x00' ≠ '|' ∧ u.headD '\x00' ≠ '>') ∧
      staysPlain u = true ∧ u.getLast?.any (!Text.isBlank ·) = true ∧ hasComment true u = false ∧
      Scan.isDocumentMarker '-' u = false ∧ Scan.isDocumentMarker '.' u = false)
    ⟨fun ⟨h₁, h₂, h₃, h₄, h₅, h₆⟩ => ⟨h₁, h₂, h₃, h₄, h₅, h₆⟩,
      fun ⟨h₁, h₂, h₃, h₄, h₅, h₆⟩ => ⟨h₁, h₂, h₃, h₄, h₅, h₆⟩⟩

/-- A word of a plain scalar on one line. -/
structure IsLineWord (w : Text) : Prop where
  ne_nil : w ≠ []
  hash : w.headD '\x00' ≠ '#'
  space : ' ' ∉ w
  stays : staysPlain w = true

/-- Words with spaces between them. -/
inductive LineWords : Text → Prop where
  | last {w : Text} (hw : IsLineWord w) : LineWords w
  | more {w y : Text} {n : Nat} (hw : IsLineWord w) (rest : LineWords y) :
      LineWords (w ++ (Text.spaces (n + 1) ++ y))

end Token

namespace Scanner

/-- The scanner behind a margin, in front of `v`. -/
def reach (s : Scanner) (g v : Text) : Scanner :=
  { s with
    rest := v
    mark := s.mark.across g
    leading := s.leading || g.contains '\n'
    keyAllowed := s.keyAllowed || s.flowLevel == 0 && g.contains '\n' }

/-- The scanner behind spaces and line feeds, in front of `v`. -/
def through (s : Scanner) (p v : Text) : Scanner :=
  { s with
    rest := v
    mark := s.mark.across p
    leading := s.leading || p.contains '\n' }

end Scanner

namespace Scan

open Token

variable {s : Scanner} {g v : Text}

/-! ## Reading margins -/

theorem skipToToken_space {fuel : Nat} (hrest : s.rest = ' ' :: v) :
    skipToToken (fuel + 1) s = skipToToken fuel (s.step v) := by
  rw [skipToToken, get_bind, peek_bind, hrest, List.headD_cons,
    if_neg (fun h => absurd h.1 (by decide)), if_pos (by decide), skipSpace_bind hrest]

theorem skipToToken_feed {fuel : Nat} (hrest : s.rest = '\n' :: v) :
    skipToToken (fuel + 1) s =
      skipToToken fuel
        { s.newLine 1 v with keyAllowed := s.keyAllowed || s.flowLevel == 0 } := by
  rw [skipToToken, get_bind, peek_bind, hrest, List.headD_cons,
    if_neg (fun h => absurd h.1 (by decide)), if_neg (by decide), if_pos (by decide),
    bind_of_ok (skipBreak_line hrest (by decide) (fun h => absurd h (by decide)))]
  cases hlevel : s.flowLevel == 0 with
  | true =>
      rw [if_pos (by simpa using hlevel), Bool.or_true]
      rfl
  | false =>
      rw [if_neg (by simpa using hlevel), Bool.or_false]
      rfl

theorem takeWhile_append_stop {α : Type} {p : α → Bool} {u v : List α} (hu : ∀ c ∈ u, p c = true)
    (hv : ∀ c ∈ v.head?, p c = false) : (u ++ v).takeWhile p = u := by
  rw [List.takeWhile_append_of_pos (by simpa using hu)]
  cases v with
  | nil => simp
  | cons c v => simp [hv c rfl]

/-- A part of the line is taken. -/
theorem takeLine_eq {p : Char → Bool} {a x : Text} (hrest : s.rest = a ++ x)
    (htake : (a ++ x).takeWhile p = a) (hline : '\n' ∉ a) :
    takeLine p s = .ok (a, { s with rest := x, mark := s.mark.across a }) := by
  show Except.ok (s.rest.takeWhile p, { s with
    rest := s.rest.drop (s.rest.takeWhile p).length
    mark := { s.mark with
      index := s.mark.index + (s.rest.takeWhile p).length
      column := s.mark.column + (s.rest.takeWhile p).length } }) = _
  rw [hrest, htake, List.drop_left, Mark.across_of_not_mem hline]

theorem skipToToken_comment {fuel : Nat} {body : Text} (hbody : ∀ c ∈ body, isBreakOrEnd c = false)
    (hrest : s.rest = '#' :: (body ++ '\n' :: v)) :
    skipToToken (fuel + 1) s =
      skipToToken fuel { s with rest := '\n' :: v, mark := s.mark.across ('#' :: body) } := by
  have htaken : ('#' :: body ++ '\n' :: v).takeWhile (!isBreakOrEnd ·) = '#' :: body := by
    refine takeWhile_append_stop (fun c hc => ?_) fun c hc => ?_
    · rcases List.mem_cons.mp hc with rfl | hc
      · decide
      · simp [hbody c hc]
    · cases hc
      decide
  have hline : '\n' ∉ '#' :: body := by
    intro h
    rcases List.mem_cons.mp h with h | h
    · cases h
    · exact absurd (hbody _ h) (by decide)
  have hskip : skipComment s =
      .ok ((), { s with rest := '\n' :: v, mark := s.mark.across ('#' :: body) }) := by
    show (takeLine (!isBreakOrEnd ·) >>= fun _ => pure ()) s = _
    rw [bind_of_ok (takeLine_eq hrest htaken hline)]
    rfl
  have hhash : s.rest.headD '\x00' = '#' := by rw [hrest]; rfl
  rw [skipToToken, get_bind, peek_bind, hhash, if_neg (fun h => absurd h.1 (by decide)),
    if_neg (by decide), if_neg (by decide), if_pos rfl, bind_of_ok hskip]

/-- **A margin is stepped over**, and what is behind it comes next. -/
theorem skipToToken_margin {fuel : Nat} (hg : Margin g)
    (hblank : isSpaceOrBreak (v.headD '\x00') = false) (hhash : v.headD '\x00' ≠ '#')
    (hrest : s.rest = g ++ v) (hfuel : g.length < fuel) :
    skipToToken fuel s = .ok ((), s.reach g v) := by
  induction hg generalizing s fuel with
  | nil =>
      obtain ⟨fuel, rfl⟩ := Nat.exists_eq_add_one.mpr (Nat.zero_lt_of_lt hfuel)
      obtain rfl : s.rest = v := hrest
      rw [isSpaceOrBreak, Bool.or_eq_false_iff] at hblank
      have htab : s.rest.headD '\x00' ≠ '\t' := by
        intro h
        rw [h] at hblank
        exact absurd hblank.1 (by decide)
      rw [skipToToken, get_bind, peek_bind, if_neg (fun h => htab h.1),
        if_neg (ne_true_of_eq_false hblank.1), if_neg (ne_true_of_eq_false hblank.2), if_neg hhash]
      simp [Scanner.reach]
      rfl
  | @space u _ ih =>
      obtain ⟨fuel, rfl⟩ := Nat.exists_eq_add_one.mpr (Nat.zero_lt_of_lt hfuel)
      rw [List.cons_append] at hrest
      rw [skipToToken_space hrest, ih (s := s.step (u ++ v)) rfl (Nat.lt_of_succ_lt_succ hfuel)]
      simp [Scanner.reach, Scanner.step, Mark.past]
  | @feed u _ ih =>
      obtain ⟨fuel, rfl⟩ := Nat.exists_eq_add_one.mpr (Nat.zero_lt_of_lt hfuel)
      rw [List.cons_append] at hrest
      rw [skipToToken_feed hrest,
        ih (s := { s.newLine 1 (u ++ v) with keyAllowed := s.keyAllowed || s.flowLevel == 0 }) rfl
          (Nat.lt_of_succ_lt_succ hfuel)]
      have hallowed : ∀ a b c : Bool, (a || (b || b && c)) = (a || b) := by decide
      simp [Scanner.reach, Scanner.newLine, Mark.past, Bool.or_assoc, hallowed]
  | @comment body u hbody _ ih =>
      obtain ⟨fuel, rfl⟩ := Nat.exists_eq_add_one.mpr (Nat.zero_lt_of_lt hfuel)
      have hrest' : s.rest = '#' :: (body ++ '\n' :: (u ++ v)) := by simpa using hrest
      have hlength : ('\n' :: u).length < fuel := by
        simp only [List.length_cons, List.length_append] at hfuel ⊢
        omega
      have hline : '\n' ∉ body := fun h => absurd (hbody _ h) (by decide)
      rw [skipToToken_comment hbody hrest',
        ih (s := { s with rest := '\n' :: (u ++ v), mark := s.mark.across ('#' :: body) }) rfl
          hlength]
      simp [Scanner.reach, Mark.across_append]

/-! ## Reading plain lines -/

/-- What starts a plain scalar outside brackets. -/
theorem fetchByStart_plain {s : Scanner} {c next : Char} (hflow : s.flowLevel = 0)
    (hreserved : isReserved c = false)
    (hindicator : Extent.isIndicator c = true → isSpaceOrEnd next = false) (hbar : c ≠ '|')
    (hangle : c ≠ '>') : fetchByStart c next s = fetchPlain s := by
  simp only [isReserved, isFlow, Bool.or_eq_false_iff, beq_eq_false_iff_ne] at hreserved
  obtain ⟨⟨⟨⟨⟨⟨⟨⟨⟨⟨⟨⟨hcomma, hopen⟩, hclose⟩, hbrace⟩, hend⟩, hstar⟩, hand⟩, htag⟩, hsingle⟩,
    hdouble⟩, hdirective⟩, hat⟩, hgrave⟩ := hreserved
  have hfree : ∀ d, c = d → Extent.isIndicator d = true → ¬ isSpaceOrEnd next = true := by
    rintro d rfl hd
    exact ne_true_of_eq_false (hindicator hd)
  have hblock : ¬ (!(s.flowLevel == 0)) = true := by rw [hflow]; decide
  unfold fetchByStart
  rw [get_bind, if_neg hopen, if_neg hbrace, if_neg hclose, if_neg hend, if_neg hcomma,
    if_neg (fun h => hfree '-' h.1 rfl h.2), if_neg (fun h => hfree '?' h.1 rfl h.2),
    if_neg (fun h => hfree ':' h.1 rfl h.2), if_neg (fun h => hblock h.2.1), if_neg hstar,
    if_neg hand, if_neg htag, if_neg (fun h => hbar h.1), if_neg (fun h => hangle h.1),
    if_neg hsingle, if_neg hdouble, if_neg (fun h => h.elim hdirective fun h => h.elim hat hgrave)]

section PlainLine

variable {c d : Char} {u w x t : Text}

/-- What a plain scalar goes on with at the end of the text it goes on with anywhere. -/
theorem isPlainChar_of_end (h : isPlainChar false c '\x00' = true) :
    isPlainChar false c d = true := by
  unfold isPlainChar at h ⊢
  split at h
  · cases h
  · next hc =>
      split at h
      · cases h
      · next hcolon =>
          have hne : c ≠ ':' := fun hc => hcolon ⟨hc, .inl rfl⟩
          rw [if_neg hc, if_neg (fun h => hne h.1)]
          exact h

theorem staysPlain_cons (c : Char) (t : Text) : staysPlain (c :: t) =
    ((c == ' ' || isPlainChar false c (t.headD '\x00')) && staysPlain t) := rfl

/-- A space parts what stays plain. -/
theorem staysPlain_append (h : staysPlain (w ++ ' ' :: t) = true) :
    staysPlain w = true ∧ staysPlain t = true := by
  induction w with
  | nil =>
      rw [List.nil_append, staysPlain_cons, Bool.and_eq_true] at h
      exact ⟨rfl, h.2⟩
  | cons c w ih =>
      rw [List.cons_append, staysPlain_cons, Bool.and_eq_true] at h
      obtain ⟨hw, ht⟩ := ih h.2
      refine ⟨?_, ht⟩
      rw [staysPlain_cons, hw, Bool.and_true]
      cases w with
      | nil => exact h.1
      | cons d w => exact h.1

theorem staysPlain_of_spaces (n : Nat) (h : staysPlain (Text.spaces n ++ t) = true) :
    staysPlain t = true := by
  induction n with
  | zero => exact h
  | succ n ih =>
      rw [Text.spaces, List.replicate_succ, List.cons_append, staysPlain_cons,
        Bool.and_eq_true] at h
      exact ih h.2

/-- A word is read up to what a plain scalar does not go on with. -/
theorem plainWord_of_staysPlain (hw : staysPlain w = true) (hspace : ' ' ∉ w)
    (hx : isPlainChar false (x.headD '\x00') ((x.drop 1).headD '\x00') = false) :
    plainWord false (w ++ x) = w := by
  induction w with
  | nil =>
      cases x with
      | nil => rfl
      | cons c x =>
          have hx : isPlainChar false c (x.headD '\x00') = false := hx
          rw [List.nil_append, plainWord, if_neg (ne_true_of_eq_false hx)]
  | cons c w ih =>
      rw [staysPlain_cons, Bool.and_eq_true] at hw
      have hc : (c == ' ') = false := by
        rw [beq_eq_false_iff_ne]
        rintro rfl
        exact hspace List.mem_cons_self
      rw [hc, Bool.false_or] at hw
      have hplain : isPlainChar false c ((w ++ x).headD '\x00') = true := by
        cases w with
        | nil => exact isPlainChar_of_end hw.1
        | cons d w => exact hw.1
      rw [List.cons_append, plainWord, if_pos hplain,
        ih hw.2 fun h => hspace (List.mem_cons_of_mem c h)]

/-- Spaces between two words. -/
theorem plainGap_spaces (start : Mark) (column : Int) {fuel : Nat} (n : Nat) (gap : Gap)
    (hblank : isSpaceOrBreak (v.headD '\x00') = false) (hrest : s.rest = Text.spaces n ++ v)
    (hleading : s.leading = false) (hfuel : n < fuel) :
    plainGap start column fuel gap s =
      .ok ({ gap with blanks := gap.blanks ++ Text.spaces n }, s.through (Text.spaces n) v) := by
  induction n generalizing s fuel gap with
  | zero =>
      obtain ⟨fuel, rfl⟩ := Nat.exists_eq_add_one.mpr hfuel
      obtain rfl : s.rest = v := hrest
      rw [isSpaceOrBreak, Bool.or_eq_false_iff] at hblank
      rw [plainGap, peek_bind, if_neg (ne_true_of_eq_false hblank.1),
        if_neg (ne_true_of_eq_false hblank.2)]
      simp [Scanner.through, Text.spaces]
      rfl
  | succ n ih =>
      obtain ⟨fuel, rfl⟩ := Nat.exists_eq_add_one.mpr (Nat.zero_lt_of_lt hfuel)
      have hrest' : s.rest = ' ' :: (Text.spaces n ++ v) := hrest
      rw [plainGap, peek_bind, hrest', List.headD_cons, if_pos (by decide), get_bind, hleading,
        if_pos (by decide), skipSpace_bind hrest',
        ih (s := s.step (Text.spaces n ++ v)) _ rfl hleading (Nat.lt_of_succ_lt_succ hfuel)]
      simp [Scanner.through, Scanner.step, Mark.past, Text.spaces, List.replicate_succ]

/-- The white space of a margin, in front of what is no white space. -/
theorem plainGap_blanks {start : Mark} {column : Int} {fuel : Nat} {p : Text} {gap : Gap}
    (hp : ∀ c ∈ p, c = ' ' ∨ c = '\n') (hblank : isSpaceOrBreak (v.headD '\x00') = false)
    (hrest : s.rest = p ++ v) (hfuel : p.length < fuel) :
    ∃ gap', plainGap start column fuel gap s = .ok (gap', s.through p v) := by
  induction p generalizing s fuel gap with
  | nil =>
      obtain ⟨fuel, rfl⟩ := Nat.exists_eq_add_one.mpr hfuel
      obtain rfl : s.rest = v := hrest
      rw [isSpaceOrBreak, Bool.or_eq_false_iff] at hblank
      refine ⟨gap, ?_⟩
      rw [plainGap, peek_bind, if_neg (ne_true_of_eq_false hblank.1),
        if_neg (ne_true_of_eq_false hblank.2)]
      simp [Scanner.through]
      rfl
  | cons c p ih =>
      obtain ⟨fuel, rfl⟩ := Nat.exists_eq_add_one.mpr (Nat.zero_lt_of_lt hfuel)
      rw [List.cons_append] at hrest
      have hp' := fun d hd => hp d (List.mem_cons_of_mem c hd)
      have hfuel' : p.length < fuel := Nat.lt_of_succ_lt_succ hfuel
      rcases hp c List.mem_cons_self with rfl | rfl
      · -- a space, which counts only behind a word
        have hstep := fun gap : Gap => @ih (s.step (p ++ v)) fuel gap hp' rfl hfuel'
        have hthrough : (s.step (p ++ v)).through p v = s.through (' ' :: p) v := by
          simp [Scanner.through, Scanner.step, Mark.past]
        rw [hthrough] at hstep
        have hspace : isSpace ((' ' :: (p ++ v)).headD '\x00') = true := rfl
        rw [plainGap, peek_bind, hrest, if_pos hspace, get_bind]
        split
        · rw [skipSpace_bind hrest]
          exact hstep _
        · rw [mark_bind, if_neg (fun h => absurd h.2 (by simp)), skipSpace_bind hrest]
          exact hstep _
      · obtain ⟨gap', hgap⟩ := ih (s := s.newLine 1 (p ++ v)) hp' rfl
          hfuel'
        have hbreak : isBreak (s.rest.headD '\x00') = true := by
          rw [hrest]
          rfl
        refine ⟨gap', ?_⟩
        rw [plainGap_newLine hbreak,
          bind_of_ok (skipBreak_line hrest (by decide) (fun h => absurd h (by decide))), hgap]
        simp [Scanner.through, Scanner.newLine, Mark.past]

/-- The first word of a line, and the spaces behind it. -/
theorem exists_firstWord (u : Text) : ∃ (w : Text) (n : Nat) (x : Text),
    u = w ++ (Text.spaces n ++ x) ∧ ' ' ∉ w ∧ x.headD '\x00' ≠ ' ' ∧ (n = 0 → x = []) := by
  induction u with
  | nil => exact ⟨[], 0, [], rfl, nofun, by decide, fun _ => rfl⟩
  | cons c u ih =>
      obtain ⟨w, n, x, rfl, hw, hx, hn⟩ := ih
      by_cases hc : c = ' '
      · subst hc
        cases w with
        | nil => exact ⟨[], n + 1, x, rfl, nofun, hx, nofun⟩
        | cons d w =>
            refine ⟨[], 1, _, rfl, nofun, fun hd => hw ?_, nofun⟩
            rw [show d = ' ' from hd]
            exact List.mem_cons_self
      · refine ⟨c :: w, n, x, rfl, fun h => ?_, hx, hn⟩
        rcases List.mem_cons.mp h with h | h
        · exact hc h.symm
        · exact hw h

/-- What comes first of a plain line is no white space. -/
theorem not_blank_of_staysPlain (h : staysPlain (c :: t) = true) (hc : c ≠ ' ') :
    isSpaceOrEnd c = false := by
  rw [staysPlain_cons, Bool.and_eq_true, beq_eq_false_iff_ne.mpr hc, Bool.false_or] at h
  have := h.1
  unfold isPlainChar at this
  split at this
  · cases this
  · next hend => simpa using hend

theorem not_mem_of_staysPlain (h : staysPlain u = true) : '\n' ∉ u := by
  induction u with
  | nil => exact List.not_mem_nil
  | cons c u ih =>
      have hrest := (Bool.and_eq_true_iff.mp (staysPlain_cons c u ▸ h)).2
      intro hmem
      rcases List.mem_cons.mp hmem with rfl | hmem
      · have := not_blank_of_staysPlain h (by decide)
        cases this
      · exact ih hrest hmem

/-- A mark of a document does not arise from what stands behind a line that is none. -/
theorem isDocumentMarker_append {e : Char} (hw : isDocumentMarker e w = false)
    (hx : x.headD '\x00' ≠ e) : isDocumentMarker e (w ++ x) = false := by
  have hshort : ∀ {u : Text}, u.length < 3 → isDocumentMarker e (u ++ x) = false := by
    intro u hu
    have : (u ++ x).take 3 ≠ [e, e, e] := by
      intro h
      refine hx ?_
      have hget : (u ++ x)[u.length]? = some e := by
        have := congrArg (·[u.length]?) h
        simp only [List.getElem?_take, hu, if_true] at this
        rw [this]
        match u.length, hu with
        | 0, _ | 1, _ | 2, _ => rfl
      rw [List.getElem?_append_right (Nat.le_refl _), Nat.sub_self] at hget
      cases x with
      | nil => cases hget
      | cons c x => exact Option.some.inj hget
    rw [isDocumentMarker, beq_eq_false_iff_ne.mpr this, Bool.false_and]
  match w, hw with
  | [], _ | [_], _ | [_, _], _ => exact hshort (by simp)
  | [a, b, c], hw =>
      have hne : ([a, b, c] == [e, e, e]) = false := by
        simpa [isDocumentMarker, isSpaceOrEnd, isBreakOrEnd, isEnd] using hw
      show (([a, b, c] == [e, e, e]) && _) = false
      rw [hne, Bool.false_and]
  | a :: b :: c :: d :: w, hw => exact hw

/-- A line without a comment is made of words. -/
theorem words_of_line (hne : u ≠ []) (hstays : staysPlain u = true) (hhead : u.headD '\x00' ≠ ' ')
    (hlast : u.getLast? ≠ some ' ') (hcomment : hasComment true u = false) : LineWords u := by
  induction h : u.length using Nat.strongRecOn generalizing u with
  | _ k ih =>
  subst h
  obtain ⟨w, n, y, rfl, hspace, hy, hn⟩ := exists_firstWord u
  have hw : w ≠ [] := by
    rintro rfl
    cases n with
    | zero => exact hne (by simp [hn rfl, Text.spaces])
    | succ n => exact hhead rfl
  have hhash : w.headD '\x00' ≠ '#' := by
    cases w with
    | nil => exact absurd rfl hw
    | cons c w =>
        intro h
        obtain rfl : c = '#' := h
        exact absurd hcomment (by simp [hasComment])
  cases n with
  | zero =>
      -- the line is one word
      obtain rfl := hn rfl
      simp only [Text.spaces, List.replicate_zero, List.append_nil] at hstays ⊢
      exact .last ⟨hw, hhash, hspace, hstays⟩
  | succ n =>
      have hyne : y ≠ [] := by
        rintro rfl
        refine hlast ?_
        rw [List.append_nil, List.getLast?_append_of_ne_nil _ (by simp [Text.spaces])]
        simp [Text.spaces, List.getLast?_replicate]
      obtain ⟨hstaysw, hstaysy⟩ := staysPlain_append
        (show staysPlain (w ++ ' ' :: (Text.spaces n ++ y)) = true from hstays)
      have hcommenty : hasComment true y = false := by
        have hgap : Text.spaces (n + 1) ≠ [] := by simp [Text.spaces]
        obtain ⟨c, hc⟩ := Option.ne_none_iff_exists'.mp (mt List.getLast?_eq_none_iff.mp hw)
        exact hasComment_of_blank hgap (by simp [Text.spaces, isSpaceOrBreak, isSpace])
          (hasComment_append hc hcomment)
      refine .more ⟨hw, hhash, hspace, hstaysw⟩ (ih y.length ?_ hyne
        (staysPlain_of_spaces n hstaysy) hy ?_ hcommenty rfl)
      · rw [List.length_append, List.length_append]
        have := List.length_pos_iff.mpr hw
        omega
      · rwa [← List.append_assoc, List.getLast?_append_of_ne_nil _ hyne] at hlast

theorem headD_of_isLineWord (hw : IsLineWord w) (x : Text) :
    isSpaceOrEnd ((w ++ x).headD '\x00') = false ∧ (w ++ x).headD '\x00' ≠ '#' := by
  obtain ⟨hne, hhash, hspace, hstays⟩ := hw
  cases w with
  | nil => exact absurd rfl hne
  | cons c w =>
      exact ⟨not_blank_of_staysPlain hstays fun h => hspace (h ▸ List.mem_cons_self), hhash⟩

theorem headD_of_lineWords (hu : LineWords u) (x : Text) :
    isSpaceOrEnd ((u ++ x).headD '\x00') = false ∧ (u ++ x).headD '\x00' ≠ '#' := by
  cases hu with
  | last hw => exact headD_of_isLineWord hw x
  | more hw _ =>
      rw [List.append_assoc]
      exact headD_of_isLineWord hw _

/-- The first word of what is read. -/
theorem plainWords_first {start stop : Mark} {column : Int} {fuel : Nat} {gap : Gap} {back : Text}
    (hw : IsLineWord w)
    (hx : isPlainChar false (x.headD '\x00') ((x.drop 1).headD '\x00') = false)
    (hmarker : s.leading = true →
      isDocumentMarker '-' s.rest = false ∧ isDocumentMarker '.' s.rest = false)
    (hrest : s.rest = w ++ x) (hflow : s.flowLevel = 0) :
    plainWords start column (fuel + 1) gap back stop s =
      plainTail start column fuel false Gap.none (w.reverse ++ gap.fold.reverse ++ back)
        (s.behind w.length).mark (s.behind w.length) := by
  have hlevel : ¬ 0 < s.flowLevel := by omega
  have hhead : s.rest.headD '\x00' ≠ '#' := by
    rw [hrest]
    exact (headD_of_isLineWord hw x).2
  have hstop : (s.leading && (isDocumentMarker '-' s.rest || isDocumentMarker '.' s.rest)) =
      false := by
    cases hleading : s.leading with
    | false => rfl
    | true =>
        obtain ⟨hdash, hdot⟩ := hmarker hleading
        rw [hdash, hdot]
        rfl
  rw [plainWords_succ, hstop, decide_eq_false hhead, if_neg (by decide),
    if_neg (fun h => hlevel h.1), decide_eq_false hlevel]
  dsimp only
  rw [hrest, plainWord_of_staysPlain hw.stays hw.space hx, if_neg (by simpa using hw.ne_nil)]

/-- **A plain line is read up to its end**, in front of what a plain scalar does not go on with. -/
theorem plainWords_line {start stop : Mark} {column : Int} (fuel : Nat) {gap : Gap} {back : Text}
    (hu : LineWords u)
    (hmarker : s.leading = true →
      isDocumentMarker '-' s.rest = false ∧ isDocumentMarker '.' s.rest = false)
    (hx : isPlainChar false (x.headD '\x00') ((x.drop 1).headD '\x00') = false)
    (hrest : s.rest = u ++ x) (hflow : s.flowLevel = 0) (hcolumn : column ≤ s.mark.column + 1)
    (hbound : u.length < s.bound) (hfuel : u.length < fuel) :
    ∃ fuel', fuel ≤ fuel' + u.length ∧ plainWords start column fuel gap back stop s =
      plainTail start column fuel' false Gap.none (u.reverse ++ gap.fold.reverse ++ back)
        (s.behind u.length).mark (s.behind u.length) := by
  obtain ⟨fuel, rfl⟩ := Nat.exists_eq_add_one.mpr (Nat.zero_lt_of_lt hfuel)
  induction hu generalizing s fuel gap back stop with
  | last hw =>
      exact ⟨fuel, Nat.add_le_add_left (List.length_pos_iff.mpr hw.ne_nil) fuel,
        plainWords_first hw hx hmarker hrest hflow⟩
  | @more w y n hw hy ih =>
      have hpos := List.length_pos_iff.mpr hw.ne_nil
      have hlength : (w ++ (Text.spaces (n + 1) ++ y)).length = w.length + (n + 1 + y.length) := by
        simp [Text.spaces]
      rw [hlength] at hbound hfuel
      have hrest' : s.rest = w ++ (Text.spaces (n + 1) ++ (y ++ x)) := by simpa using hrest
      have hbehind : (s.behind w.length).rest = Text.spaces (n + 1) ++ (y ++ x) := by
        show s.rest.drop w.length = _
        rw [hrest', List.drop_left]
      have hspaces : '\n' ∉ Text.spaces (n + 1) := by simp [Text.spaces]
      have hgap := plainGap_spaces start column (n + 1) Gap.none
        (not_isSpaceOrBreak_of (headD_of_lineWords hy x).1) hbehind rfl
        (show n + 1 < (s.behind w.length).bound by show n + 1 < s.bound; omega)
      have hcolumn' : column ≤
          ((s.behind w.length).through (Text.spaces (n + 1)) (y ++ x)).mark.column := by
        rw [Scanner.through, Mark.across_of_not_mem hspaces]
        simp only [Scanner.behind]
        omega
      obtain ⟨fuel, rfl⟩ := Nat.exists_eq_add_one.mpr (show 0 < fuel by omega)
      obtain ⟨fuel', hle, hrun⟩ :=
        ih (s := (s.behind w.length).through (Text.spaces (n + 1)) (y ++ x))
          (fun h => absurd h (by simp [Scanner.through, Scanner.behind, hspaces])) rfl hflow
          (by omega)
        (show y.length < s.bound by omega) fuel (by omega)
      refine ⟨fuel', by omega, ?_⟩
      rw [plainWords_first hw (by simp [Text.spaces, isPlainChar, List.replicate_succ, isSpaceOrEnd,
        isSpace]) hmarker hrest' hflow, plainTail, peek_bind, hbehind]
      rw [if_pos (by rfl), fuel_bind, bind_of_ok hgap, mark_bind, if_neg (fun h => by omega), hrun]
      have hstate : ((s.behind w.length).through (Text.spaces (n + 1)) (y ++ x)).behind y.length =
          s.behind (w ++ (Text.spaces (n + 1) ++ y)).length := by
        have hdrop : s.rest.drop (w ++ (Text.spaces (n + 1) ++ y)).length = x := by
          rw [hrest, List.drop_left]
        simp only [Scanner.behind, Scanner.through, Mark.across_of_not_mem hspaces, List.drop_left,
          hdrop]
        simp only [List.length_append, Nat.add_assoc]
      have htext : y.reverse ++ (Text.spaces (n + 1)).reverse ++
          (w.reverse ++ gap.fold.reverse ++ back) =
            (w ++ (Text.spaces (n + 1) ++ y)).reverse ++ gap.fold.reverse ++ back := by
        simp
      rw [hstate, ← htext]
      rfl

/-- Nothing follows where there is no white space. -/
theorem plainTail_end {start stop : Mark} {column : Int} {fuel : Nat} {gap : Gap} {back : Text}
    (h : isSpaceOrBreak (s.rest.headD '\x00') = false) :
    plainTail start column fuel false gap back stop s = .ok ((back.reverse, stop), s) := by
  unfold plainTail
  rw [peek_bind, if_neg (ne_true_of_eq_false h)]
  rfl

/-- Of the margin behind a plain scalar the white space in front of the first comment is read, if
what comes next is further left or there is nothing more. -/
theorem plainTail_margin {start stop : Mark} {column : Int} {fuel : Nat} {gap : Gap} {back : Text}
    (hg : Margin g) (hfirst : isSpaceOrBreak (g.headD '\x00') = true)
    (hblank : isSpaceOrBreak (v.headD '\x00') = false)
    (hleft : v = [] ∨ ((s.mark.across g).column : Int) < column) (hrest : s.rest = g ++ v)
    (hbound : g.length < s.bound) (hfuel : 0 < fuel) (hflow : s.flowLevel = 0) :
    ∃ p q, g = p ++ q ∧ Margin q ∧ plainTail start column fuel false gap back stop s =
      .ok ((back.reverse, stop), s.through p (q ++ v)) := by
  obtain ⟨p, q, rfl, hp, hq, hend⟩ := hg.split
  obtain ⟨fuel, rfl⟩ := Nat.exists_eq_add_one.mpr hfuel
  have hrest' : s.rest = p ++ (q ++ v) := by rw [hrest, List.append_assoc]
  have hstop : isSpaceOrBreak ((q ++ v).headD '\x00') = false := by
    rcases hend with rfl | hhash
    · exact hblank
    · cases q with
      | nil => cases hhash
      | cons c q =>
          obtain rfl : c = '#' := by simpa using hhash
          rfl
  have hspace : isSpaceOrBreak (s.rest.headD '\x00') = true := by
    cases p with
    | nil =>
        rw [hrest']
        cases q with
        | nil => exact absurd hfirst (by decide)
        | cons c q => exact absurd hstop (ne_false_of_eq_true hfirst)
    | cons c p => rwa [hrest']
  refine ⟨p, q, rfl, hq, ?_⟩
  rw [List.length_append] at hbound
  obtain ⟨gap', hgap⟩ := plainGap_blanks hp hstop
    hrest' (show p.length < s.bound by omega)
  rw [plainTail, peek_bind, if_pos hspace, fuel_bind, bind_of_ok hgap, mark_bind]
  by_cases hcolumn : (((s.through p (q ++ v)).mark.column : Nat) : Int) < column
  · rw [if_pos ⟨rfl, hcolumn⟩]
    rfl
  · -- there is more to be read, which is no word
    rw [if_neg (fun h => hcolumn h.2), plainWords_succ]
    rcases hend with rfl | hhash
    · rcases hleft with rfl | hleft
      · have hlevel : decide (0 < s.flowLevel) = false := by simp [hflow]
        rw [if_neg (by simp [Scanner.through, isDocumentMarker]),
          if_neg (by simp [Scanner.through, hflow])]
        dsimp only
        rw [if_pos (by simp [Scanner.through, plainWord]), show
          (s.through p ([] ++ [])).flowLevel = s.flowLevel from rfl, hlevel]
        exact plainTail_end hblank
      · rw [List.append_nil] at hleft
        exact absurd hleft hcolumn
    · cases q with
      | nil => cases hhash
      | cons c q =>
          obtain rfl : c = '#' := by simpa using hhash
          rw [if_pos (by simp [Scanner.through])]

/-- A plain scalar is its words. -/
theorem scanPlain_of_words {s₁ s₂ : Scanner} {w : Text} {stop : Mark}
    (hunroll : unrollProvisional s = .ok ((), s₁)) (hflow : s₁.flowLevel = 0)
    (hwords : plainWords s₁.mark (s₁.indent + 1) s₁.bound Gap.none [] s₁.mark s₁ =
      .ok ((w, stop), s₂)) (hne : w ≠ []) :
    scanPlain s = .ok (⟨⟨s₁.mark, stop⟩, .scalar .plain w⟩,
      { s₂ with keyAllowed := s₂.keyAllowed || s₂.leading }) := by
  have hempty : ¬ w.isEmpty = true := by simpa using hne
  rw [scanPlain, bind_of_ok hunroll, get_bind, mark_bind, get_bind,
    if_neg (fun h => absurd h.1 (by omega))]
  dsimp only
  rw [fuel_bind, bind_of_ok hwords, get_bind]
  cases hleading : s₂.leading with
  | true =>
      rw [if_pos rfl, if_neg hempty, Bool.or_true]
      refine congrArg (fun leading => Except.ok (_, { s₂ with keyAllowed := true, leading })) ?_
      exact hleading
  | false =>
      rw [if_neg (by decide), if_neg hempty, Bool.or_false, ← hleading]
      rfl

end PlainLine

end Scan

namespace Token

theorem PlainLine.ne_nil {w : Text} (h : PlainLine w) : w ≠ [] := by
  rintro rfl
  exact absurd h.last (by decide)

theorem PlainLine.words {w : Text} (h : PlainLine w) : LineWords w := by
  refine Scan.words_of_line h.ne_nil h.stays (fun hhead => ?_) (fun hlast => ?_) h.comment
  · have := h.starts.1
    rw [hhead] at this
    cases this
  · have := h.last
    rw [hlast] at this
    cases this

/-- What a plain line starts with is the start of a token. -/
theorem PlainLine.headD_append {w : Text} (h : PlainLine w) (v : Text) :
    isSpaceOrEnd ((w ++ v).headD '\x00') = false ∧ (w ++ v).headD '\x00' ≠ '#' :=
  Scan.headD_of_lineWords h.words v

/-- A plain line starts like no other token, whatever is behind it. -/
theorem PlainLine.starts_append {w : Text} (h : PlainLine w) (v : Text) :
    isReserved ((w ++ v).headD '\x00') = false ∧
      (Extent.isIndicator ((w ++ v).headD '\x00') = true →
        isSpaceOrEnd ((w ++ v).getD 1 '\x00') = false) ∧
      (w ++ v).headD '\x00' ≠ '|' ∧ (w ++ v).headD '\x00' ≠ '>' := by
  have hhead : (w ++ v).headD '\x00' = w.headD '\x00' := by
    cases w with
    | nil => exact absurd rfl h.ne_nil
    | cons c w => rfl
  obtain ⟨-, hreserved, hindicator⟩ := h.starts
  rw [hhead]
  refine ⟨hreserved, fun hc => ?_, h.block⟩
  rw [getD_one_of_ne_end (hindicator hc)]
  exact hindicator hc

theorem PlainLine.isFlow_headD {w : Text} (h : PlainLine w) (v : Text) :
    isFlow ((w ++ v).headD '\x00') = false := by
  have hreserved := (h.starts_append v).1
  simp only [isReserved, Bool.or_eq_false_iff] at hreserved
  exact hreserved.1.1.1.1.1.1.1.1

/-- A margin that ends a line, behind a scalar. -/
structure IsBreak (b : Text) : Prop where
  margin : Margin b
  first : isSpaceOrBreak (b.headD '\x00') = true
  feed : '\n' ∈ b

instance (t : Text) : Decidable (IsBreak t) :=
  decidable_of_iff (Margin t ∧ isSpaceOrBreak (t.headD '\x00') = true ∧ '\n' ∈ t)
    ⟨fun ⟨h₁, h₂, h₃⟩ => ⟨h₁, h₂, h₃⟩, fun ⟨h₁, h₂, h₃⟩ => ⟨h₁, h₂, h₃⟩⟩

/-- A margin behind a scalar starts with white space. -/
theorem IsBreak.headD_append {b : Text} (hb : IsBreak b) (v : Text) :
    isSpaceOrBreak ((b ++ v).headD '\x00') = true :=
  isSpaceOrBreak_headD_append hb.first v

theorem IsBreak.noMark {b : Text} (hb : IsBreak b) (v : Text) :
    (b ++ v).headD '\x00' ≠ '-' ∧ (b ++ v).headD '\x00' ≠ '.' := by
  have := hb.headD_append v
  constructor <;> intro h <;> rw [h] at this <;> cases this

/-- No line of a document's own starts with a plain line. -/
theorem PlainLine.noMark {w x : Text} (h : PlainLine w)
    (hx : x.headD '\x00' ≠ '-' ∧ x.headD '\x00' ≠ '.') :
    (w ++ x).headD '\x00' ≠ '%' ∧ Scan.isDocumentMarker '-' (w ++ x) = false ∧
      Scan.isDocumentMarker '.' (w ++ x) = false := by
  refine ⟨?_, Scan.isDocumentMarker_append h.marker.1 hx.1,
    Scan.isDocumentMarker_append h.marker.2 hx.2⟩
  have hreserved := h.starts.2.1
  cases w with
  | nil => exact absurd rfl h.ne_nil
  | cons c w =>
      rintro (rfl : c = '%')
      cases hreserved

end Token

end YamlEdit
