import YamlEdit.Proofs.NamedPaths
import YamlEdit.Proofs.PathReading

/-!
# Steps that are printed and read again

The steps of a path are displayed, put together with dots and read again. A string in a filter is
displayed in single quotes with a backslash in front of each quote in it, and nothing in front of a
backslash. What is read in single quotes is displayed as it was written (`Quotes.eq_escapeQuotes`), but
a string that was written another way may hold a backslash that takes the next quote along
(`Segment.Quotable`). Besides, a key that was cut in two by its filter may leave a quote open.

Main statement: `Selector.parse_display_iff`, these are the only things that can go wrong.
-/

namespace YamlEdit

namespace Text

variable {t : Text}

/-- A text that neither starts nor ends with a blank. -/
theorem trim_eq_self (hfirst : ∀ c ∈ t.head?, isBlank c = false)
    (hlast : ∀ c ∈ t.getLast?, isBlank c = false) : t.trim = t := by
  have hdrop : ∀ {u : Text}, (∀ c ∈ u.head?, isBlank c = false) → u.dropWhile isBlank = u := by
    intro u hu
    exact (takeWhile_dropWhile_iff.mpr ⟨(List.nil_append u).symm, by simp, hu⟩).2
  rw [trim, trimStart, hdrop hfirst, trimEnd, hdrop (by rwa [List.head?_reverse]),
    List.reverse_reverse]

/-- What has been trimmed is not trimmed any more. -/
theorem trim_trim (t : Text) : t.trim.trim = t.trim := by
  refine trim_eq_self (fun c hc => ?_) fun c hc => ?_
  · obtain ⟨rest, hrest⟩ := List.head?_eq_some_iff.mp hc
    obtain ⟨blanks, hend, -⟩ := trimEnd_append_blanks t.trimStart
    have hstart : t.trimStart = c :: (rest ++ blanks) := by
      rw [hend, show t.trimStart.trimEnd = c :: rest from hrest]
      rfl
    have hnot := List.head?_dropWhile_not isBlank t
    rwa [show t.dropWhile isBlank = _ from hstart] at hnot
  · exact not_isBlank_of_trimEnd c hc

/-- A text is its trimmed form with blanks around it. -/
theorem exists_trim (t : Text) :
    ∃ front back : Text, t = front ++ t.trim ++ back ∧ (∀ c ∈ front, isBlank c = true) ∧
      ∀ c ∈ back, isBlank c = true := by
  obtain ⟨blanks, hend, hblank⟩ := trimEnd_append_blanks t.trimStart
  refine ⟨t.takeWhile isBlank, blanks, ?_, List.all_eq_true.mp List.all_takeWhile,
    List.all_eq_true.mp hblank⟩
  rw [List.append_assoc, trim, ← hend]
  exact List.takeWhile_append_dropWhile.symm

end Text

namespace Segment

/-- Whether a string is the same when it is put in single quotes: counted from the left in pairs, no
backslash stands in front of a quote or at the end. -/
inductive Quotable : Text → Prop where
  | nil : Quotable []
  | plain {c : Char} {t : Text} (other : c ≠ '\\') (rest : Quotable t) : Quotable (c :: t)
  | pair {c : Char} {t : Text} (other : c ≠ '\'') (rest : Quotable t) : Quotable ('\\' :: c :: t)

theorem quotable_cons_iff {c : Char} {t : Text} (hc : c ≠ '\\') :
    Quotable (c :: t) ↔ Quotable t := by
  constructor
  · rintro (_ | ⟨_, h⟩ | _)
    · exact h
    · exact absurd rfl hc
  · exact .plain hc

theorem quotable_pair_iff {c : Char} {t : Text} :
    Quotable ('\\' :: c :: t) ↔ c ≠ '\'' ∧ Quotable t := by
  constructor
  · rintro (_ | ⟨hslash, -⟩ | ⟨hc, h⟩)
    · exact absurd rfl hslash
    · exact ⟨hc, h⟩
  · exact fun h => .pair h.1 h.2

instance : DecidablePred Quotable := decide
where
  decide : (t : Text) → Decidable (Quotable t)
    | [] => isTrue .nil
    | [c] => decidable_of_iff (c ≠ '\\') ⟨fun h => .plain h .nil, by
        rintro (_ | ⟨h, -⟩)
        exact h⟩
    | c :: d :: t =>
      if h : c = '\\' then
        let _ := decide t
        decidable_of_iff (d ≠ '\'' ∧ Quotable t) (by rw [h, quotable_pair_iff])
      else
        let _ := decide (d :: t)
        decidable_of_iff (Quotable (d :: t)) (quotable_cons_iff h).symm

theorem escapeQuotes_cons (c : Char) (t : Text) :
    escapeQuotes (c :: t) = (if c = '\'' then ['\\', '\''] else [c]) ++ escapeQuotes t :=
  List.flatMap_cons

/-- What stands between the brackets of a filter with a string. -/
def stringBody (key t : Text) : Text := key ++ '=' :: '\'' :: (escapeQuotes t ++ ['\''])

theorem display_string (key t : Text) :
    (filter key (.string t)).display = '[' :: (stringBody key t ++ [']']) := by
  simp [display, stringBody]

end Segment

namespace Selector

open Segment (escapeQuotes escapeQuotes_cons Quotable stringBody display_string)

/-! ## Strings in single quotes -/

section Strings

variable {s t key : Text} {p : Char → Prop} {quote : Char}

/-- **A string in single quotes** is displayed as it was written. -/
theorem Quotes.eq_escapeQuotes (h : Quotes '\'' s t) :
    s = escapeQuotes t ++ ['\''] ∧ Quotable t := by
  induction h with
  | close => exact ⟨rfl, .nil⟩
  | plain hother hslash _ ih =>
      refine ⟨?_, .plain hslash ih.2⟩
      rw [escapeQuotes_cons, if_neg hother, ih.1]
      rfl
  | escaped _ ih =>
      refine ⟨?_, .plain (by decide) ih.2⟩
      rw [escapeQuotes_cons, if_pos rfl, ih.1]
      rfl
  | backslash hother _ ih =>
      refine ⟨?_, .pair hother ih.2⟩
      rw [escapeQuotes_cons, escapeQuotes_cons, if_neg (by decide), if_neg hother, ih.1]
      rfl

/-- What can be put in single quotes is read back. -/
theorem quotes_escapeQuotes (h : Quotable t) : Quotes '\'' (escapeQuotes t ++ ['\'']) t := by
  induction h with
  | nil => exact .close
  | @plain c t hother _ ih =>
      rw [escapeQuotes_cons]
      by_cases hc : c = '\''
      · subst hc
        exact .escaped ih
      · rw [if_neg hc]
        exact .plain hc hother ih
  | pair hother _ ih =>
      rw [escapeQuotes_cons, escapeQuotes_cons, if_neg (by decide), if_neg hother]
      exact .backslash hother ih

/-- A string ends with its quote. -/
theorem Quotes.exists_init (h : Quotes quote s t) : ∃ init, s = init ++ [quote] := by
  induction h with
  | close => exact ⟨[], rfl⟩
  | @plain c _ _ _ _ _ ih =>
      obtain ⟨init, rfl⟩ := ih
      exact ⟨c :: init, rfl⟩
  | escaped _ ih =>
      obtain ⟨init, rfl⟩ := ih
      exact ⟨'\\' :: quote :: init, rfl⟩
  | @backslash c _ _ _ _ ih =>
      obtain ⟨init, rfl⟩ := ih
      exact ⟨'\\' :: c :: init, rfl⟩

end Strings

/-! ## Whole strings -/

section Outside

variable {p : Char → Prop} {x y t : Text}

theorem outside_of_forall (h : ∀ c ∈ t, p c ∧ ¬ IsQuote c) : Outside p t := by
  induction t with
  | nil => exact .nil
  | cons c t ih =>
      obtain ⟨hp, hc⟩ := h c List.mem_cons_self
      exact .plain hp hc (ih fun d hd => h d (List.mem_cons_of_mem c hd))

theorem Outside.append (hx : Outside p x) (hy : Outside p y) : Outside p (x ++ y) := by
  induction hx with
  | nil => exact hy
  | plain hp hc _ ih => exact .plain hp hc ih
  | quoted hquote hstring _ ih =>
      rw [List.cons_append, List.append_assoc]
      exact .quoted hquote hstring ih

/-- Nothing is left open in front of a text without quotes. -/
theorem Outside.of_append (h : Outside p (x ++ y)) (hy : ∀ c ∈ y, ¬ IsQuote c) : Outside p x := by
  generalize ht : x ++ y = t at h
  induction h generalizing x with
  | nil =>
      obtain ⟨rfl, -⟩ := List.append_eq_nil_iff.mp ht
      exact .nil
  | plain hp hc _ ih =>
      cases x with
      | nil => exact .nil
      | cons d x =>
          obtain ⟨rfl, rfl⟩ := List.cons.inj ht
          exact .plain hp hc (ih rfl)
  | @quoted quote s value t hquote hstring _ ih =>
      cases x with
      | nil => exact .nil
      | cons d x =>
          obtain ⟨rfl, htail⟩ := List.cons.inj ht
          obtain ⟨init, rfl⟩ := hstring.exists_init
          rcases List.append_eq_append_iff.mp htail with ⟨z, hz, rfl⟩ | ⟨z, rfl, rfl⟩
          · -- the string would end in the text without quotes
            cases z with
            | nil =>
                rw [List.append_nil] at hz
                rw [← hz, ← List.append_nil (init ++ [d])]
                exact .quoted hquote hstring .nil
            | cons c z =>
                have hmem : d ∈ c :: z := by
                  have hlast := congrArg List.getLast? hz
                  rw [List.getLast?_concat, List.getLast?_append_of_ne_nil _ (List.cons_ne_nil c z)]
                    at hlast
                  exact List.mem_of_getLast? hlast.symm
                exact absurd hquote (hy d (List.mem_append_left t hmem))
          · exact .quoted hquote hstring (ih rfl)

theorem not_isQuote_of_isBlank {c : Char} (h : Text.isBlank c = true) : ¬ IsQuote c := by
  rintro (rfl | rfl) <;> cases h

/-- No string starts in a text without quotes, so none goes on behind it. -/
theorem Outside.of_unquoted (h : Outside p (x ++ y)) (hx : ∀ c ∈ x, ¬ IsQuote c) : Outside p y := by
  induction x with
  | nil => exact h
  | cons c x ih =>
      rw [List.cons_append] at h
      generalize x ++ y = t at *
      cases h with
      | plain _ _ hrest => exact ih hrest fun d hd => hx d (List.mem_cons_of_mem c hd)
      | quoted hquote => exact absurd hquote (hx c List.mem_cons_self)

/-- Blanks around a text do not matter. -/
theorem Outside.trim (h : Outside p t) : Outside p t.trim := by
  obtain ⟨front, back, ht, hfront, hback⟩ := t.exists_trim
  rw [ht] at h
  exact (h.of_append fun c hc => not_isQuote_of_isBlank (hback c hc)).of_unquoted fun c hc =>
    not_isQuote_of_isBlank (hfront c hc)

end Outside

/-! ## Steps that have been read -/

/-- What a step is like that has been read: a key is a word, a number has 64 bits, and the key of a
filter is a trimmed text without a sign of equality. No quote is left open in the key unless the
value is a text. -/
def IsRead : Segment → Prop
  | .key name => (Segment.key name).IsPlain
  | .index i => (Segment.index i).IsPlain
  | .filter key value => key ≠ [] ∧ key.trim = key ∧ '=' ∉ key ∧
      match value with
      | .integer n => n < Nat.pow 2 63 ∧ Outside (· ≠ ']') key
      | .boolean _ => Outside (· ≠ ']') key
      | .string _ => True

/-- What is read for a filter of which the body is known. -/
theorem isRead_of_divides {body key : Text} {value : FilterValue} (hbody : Outside (· ≠ ']') body)
    (h : Divides FirstOfAll body key value) : IsRead (.filter key value) := by
  obtain ⟨rfl, hleft, rfl, hsome, hvalue⟩ := h
  rename_i left right
  -- without quotes on the right side none is left open on the left
  have hclosed : (∀ c ∈ right.trim, ¬ IsQuote c) → Outside (· ≠ ']') left.trim := by
    intro hright
    refine (hbody.of_append fun c hc => ?_).trim
    rcases List.mem_cons.mp hc with rfl | hc
    · simp [IsQuote]
    · intro hquote
      have hblank : Text.isBlank c = false := by
        cases h : Text.isBlank c
        · rfl
        · exact absurd hquote (not_isQuote_of_isBlank h)
      exact hright c ((Text.mem_trim_of_not_isBlank hblank).mpr hc) hquote
  refine ⟨hsome, left.trim_trim, ?_, ?_⟩
  · rwa [Text.mem_trim_of_not_isBlank (by decide)]
  · generalize right.trim = r at hvalue hclosed
    cases hvalue with
    | integer hne hdigits hsmall =>
        exact ⟨hsmall, hclosed fun c hc => isDigit_ne_quote (hdigits c hc)⟩
    | string | raw => trivial
    | true | false =>
        refine hclosed ?_
        rintro c hc (rfl | rfl)
        all_goals exact absurd hc (by decide)

/-- **The steps of a path** have been read. -/
theorem isRead_of_spells {path : Text} {segments : List Segment}
    (h : Spells FirstOfAll path segments) : ∀ segment ∈ segments, IsRead segment := by
  obtain ⟨pieces, steps, hsplits, hall, rfl⟩ := h
  induction hsplits generalizing steps with
  | nil =>
      cases hall
      nofun
  | @cons t rest piece pieces hbegins _ ih =>
      cases hall with
      | @cons _ step _ steps hmeans hall =>
          obtain ⟨-, hwhole, -⟩ := begins_iff.mp hbegins
          have hrest := ih steps hall
          cases hmeans with
          | separator => exact hrest
          | index hsmall => exact List.forall_mem_cons.mpr ⟨hsmall, hrest⟩
          | key => exact List.forall_mem_cons.mpr ⟨⟨hwhole.1, hwhole.2.2, hwhole.2.1⟩, hrest⟩
          | filter hdivides =>
              exact List.forall_mem_cons.mpr ⟨isRead_of_divides hwhole hdivides, hrest⟩

/-! ## Reading what is displayed -/

/-- Whether a step is displayed in a way that can be read again: a string in a filter is the same in
single quotes, and no bracket but the last one closes the filter. -/
def PrintsBack : Segment → Prop
  | .filter key (.string t) => Quotable t ∧ Outside (· ≠ ']') (stringBody key t)
  | _ => True

section PrintsBack

variable {division : Division} {segment : Segment} {segments : List Segment} {key t rest : Text}
  {value : FilterValue} {piece : Piece}

/-- A key without open quotes leaves none open in front of a string. -/
theorem outside_stringBody (hkey : Outside (· ≠ ']') key) (h : Quotable t) :
    Outside (· ≠ ']') (stringBody key t) :=
  hkey.append (.plain (by decide) (by simp [IsQuote])
    (by simpa using Outside.quoted (.inl rfl) (quotes_escapeQuotes h) .nil))

/-- A filter that is closed by the last bracket is one piece. -/
theorem isDisplayed_filter {right : Text}
    (hdisplay : (Segment.filter key value).display = '[' :: (key ++ '=' :: right ++ [']']))
    (hclosed : Outside (· ≠ ']') (key ++ '=' :: right)) (hsome : key ≠ []) (htrim : key.trim = key)
    (hequals : '=' ∉ key) (hvalue : Denotes right.trim value) :
    IsDisplayed FirstOfAll (.filter key value) := by
  intro rest _
  exact ⟨_, .filter (by rw [hdisplay]; simp) hclosed,
    .filter ⟨rfl, hequals, htrim.symm, hsome, hvalue⟩⟩

/-- The same for a value that is displayed as a word. -/
theorem isDisplayed_word
    (hdisplay : (Segment.filter key value).display = '[' :: (key ++ '=' :: value.text ++ [']']))
    (hkey : Outside (· ≠ ']') key) (hsome : key ≠ []) (htrim : key.trim = key) (hequals : '=' ∉ key)
    (hword : ∀ c ∈ value.text, (c ≠ ']' ∧ ¬ IsQuote c) ∧ Text.isBlank c = false)
    (hvalue : Denotes value.text value) : IsDisplayed FirstOfAll (.filter key value) := by
  refine isDisplayed_filter hdisplay ?_ hsome htrim hequals ?_
  · exact hkey.append (.plain (by decide) (by simp [IsQuote])
      (outside_of_forall fun c hc => (hword c hc).1))
  · rwa [Text.trim_eq_self (fun c hc => (hword c (List.mem_of_head? hc)).2)
      fun c hc => (hword c (List.mem_of_getLast? hc)).2]

theorem trim_quoted (u : Text) : Text.trim ('\'' :: (u ++ ['\''])) = '\'' :: (u ++ ['\'']) := by
  refine Text.trim_eq_self ?_ fun c hc => ?_
  · rintro _ ⟨⟩
    rfl
  · rw [← List.cons_append, List.getLast?_concat] at hc
    cases hc
    rfl

/-- **A step that has been read** is one piece when it is displayed, if it prints back. -/
theorem isDisplayed_of_printsBack (hread : IsRead segment) (h : PrintsBack segment) :
    IsDisplayed FirstOfAll segment := by
  cases segment with
  | key | index => exact isDisplayed_of_isPlain _ hread
  | filter key value =>
      obtain ⟨hsome, htrim, hequals, hvalue⟩ := hread
      cases value with
      | string t =>
          refine isDisplayed_filter (by simp [Segment.display]) h.2 hsome htrim hequals ?_
          rw [trim_quoted]
          exact .string (.inl rfl) (quotes_escapeQuotes h.1)
      | integer n =>
          refine isDisplayed_word (by simp [Segment.display]) hvalue.2 hsome htrim hequals ?_ ?_
          · intro c hc
            have hdigit := Text.isDigit_of_mem_ofNat hc
            exact ⟨⟨(by rintro rfl; cases hdigit), isDigit_ne_quote hdigit⟩,
              Text.isBlank_of_isDigit hdigit⟩
          · have hdenotes := Denotes.integer (Text.ofNat_ne_nil n)
              (fun c => Text.isDigit_of_mem_ofNat) (by rw [Text.ofDigitChars_ofNat]; exact hvalue.1)
            rwa [Text.ofDigitChars_ofNat] at hdenotes
      | boolean b =>
          have hword : (FilterValue.boolean b).text.all (fun c =>
              c != ']' && c != '\'' && c != '"' && !Text.isBlank c) = true := by
            cases b <;> rfl
          refine isDisplayed_word (by simp [Segment.display]) hvalue hsome htrim hequals ?_ ?_
          · simpa [List.all_eq_true, IsQuote, and_assoc] using hword
          cases b
          · exact .false
          · exact .true

/-- What is read behind a quote is a string, without blanks in front of it. -/
theorem exists_string_of_denotes {r : Text} (h : Denotes (Text.trim ('\'' :: r)) (.string t)) :
    Quotable t ∧ ∃ back, r = escapeQuotes t ++ '\'' :: back ∧
      ∀ c ∈ back, Text.isBlank c = true := by
  obtain ⟨front, back, htext, hfront, hback⟩ := Text.exists_trim ('\'' :: r)
  generalize Text.trim ('\'' :: r) = w at htext h
  obtain rfl : front = [] := by
    cases front with
    | nil => rfl
    | cons c front =>
        obtain ⟨rfl, -⟩ := List.cons.inj htext
        cases hfront _ List.mem_cons_self
  cases w with
  | nil =>
      have hblank := hback '\'' (by rw [← show '\'' :: r = back from htext]; simp)
      cases hblank
  | cons c w =>
      obtain ⟨rfl, rfl⟩ := List.cons.inj htext
      cases h with
      | string _ hwhole =>
          obtain ⟨rfl, hquotable⟩ := hwhole.eq_escapeQuotes
          exact ⟨hquotable, back, by simp, hback⟩
      | raw hstart => exact absurd (.inl rfl) (hstart _ rfl).2

/-- A string that is read back from its display prints back. -/
theorem printsBack_of_begins {u : Text} (hequals : '=' ∉ key)
    (hbegins : Begins ((Segment.filter key (.string t)).display ++ rest) piece u)
    (hmeans : Means FirstOfAll piece (some (.filter key (.string t)))) :
    PrintsBack (.filter key (.string t)) := by
  cases hmeans with
  | @filter body _ _ hdivides =>
      obtain ⟨htext, hclosed, -⟩ := begins_iff.mp hbegins
      obtain ⟨rfl, hleft, -, -, hvalue⟩ := hdivides
      rename_i left right
      -- the first sign of equality is the one behind the key
      have hsplit : key ++ '=' :: ('\'' :: (escapeQuotes t ++ '\'' :: ']' :: rest)) =
          left ++ '=' :: (right ++ ']' :: u) := by
        simpa [display_string, stringBody, Piece.text] using htext
      obtain ⟨-, hkey, hbehind⟩ := Text.takeWhile_ne_iff.mp ⟨rfl, hequals⟩
      obtain ⟨-, hkey', hbehind'⟩ := Text.takeWhile_ne_iff.mp ⟨hsplit, hleft⟩
      obtain rfl : key = left := hkey.symm.trans hkey'
      have hright := hbehind'.symm.trans hbehind
      cases right with
      | nil => cases hright
      | cons c r =>
          obtain ⟨rfl, hright⟩ := List.cons.inj hright
          obtain ⟨hquotable, back, rfl, hback⟩ := exists_string_of_denotes hvalue
          cases back with
          | nil => exact ⟨hquotable, hclosed⟩
          | cons c back =>
              -- only blanks could stand in front of the bracket
              obtain ⟨rfl, -⟩ : c = ']' ∧ back ++ ']' :: u = rest := by simpa using hright
              cases hback _ List.mem_cons_self

/-- A dot in front is no step. -/
theorem Spells.of_dot (h : Spells division ('.' :: t) segments) : Spells division t segments := by
  obtain ⟨pieces, steps, hsplits, hall, rfl⟩ := h
  cases hsplits with
  | cons hbegins hsplits =>
      obtain ⟨rfl, rfl⟩ := hbegins.unique (.separator rfl)
      cases hall with
      | cons hmeans hall =>
          cases hmeans
          exact ⟨_, _, hsplits, hall, rfl⟩

/-- Without a dot in front the first piece is the first step. -/
theorem Spells.uncons (h : Spells division t (segment :: segments))
    (hdot : ∀ c ∈ t.head?, c ≠ '.') :
    ∃ piece rest, Begins t piece rest ∧ Means division piece (some segment) ∧
      Spells division rest segments := by
  obtain ⟨pieces, steps, hsplits, hall, heq⟩ := h
  cases hsplits with
  | nil =>
      cases hall
      cases heq
  | @cons _ rest piece pieces hbegins hsplits =>
      cases hall with
      | @cons _ step _ steps hmeans hall =>
          cases step with
          | none =>
              cases hmeans
              cases hbegins with
              | separator htext => exact absurd rfl (hdot '.' (by rw [htext]; rfl))
          | some first =>
              obtain ⟨rfl, rfl⟩ := List.cons.inj heq
              exact ⟨piece, rest, hbegins, hmeans, pieces, steps, hsplits, hall, rfl⟩

/-- No step that has been read is displayed with a dot in front. -/
theorem head_display_ne_dot (hread : IsRead segment) :
    ∀ c ∈ (segment.display ++ rest).head?, c ≠ '.' := by
  cases segment with
  | key name =>
      obtain ⟨hsome, hword, -⟩ := hread
      obtain ⟨d, ds, rfl⟩ := List.exists_cons_of_ne_nil hsome
      rintro c ⟨⟩
      exact (hword d List.mem_cons_self).1
  | index i =>
      obtain ⟨d, ds, hdigits⟩ := List.exists_cons_of_ne_nil (Text.ofNat_ne_nil i)
      have hdigit : Text.isDigit d = true :=
        Text.isDigit_of_mem_ofNat (n := i) (by rw [hdigits]; exact List.mem_cons_self)
      rw [Segment.display, hdigits]
      rintro c ⟨⟩ rfl
      cases hdigit
  | filter key value =>
      cases value <;> (rintro c ⟨⟩; decide)

/-- **Steps that have been read** are read from their display if and only if each of them prints
back. -/
theorem spells_pathOf_iff (hread : ∀ segment ∈ segments, IsRead segment) :
    Spells FirstOfAll (pathOf segments) segments ↔ ∀ segment ∈ segments, PrintsBack segment := by
  refine ⟨fun h => ?_, fun h => spells_pathOf fun s hs =>
    isDisplayed_of_printsBack (hread s hs) (h s hs)⟩
  induction segments with
  | nil => nofun
  | cons segment others ih =>
      obtain ⟨hfirst, hothers⟩ := List.forall_mem_cons.mp hread
      -- behind the first step stands a dot, or nothing
      obtain ⟨rest, hpath, hrest, hgoesOn⟩ : ∃ rest, pathOf (segment :: others) =
          segment.display ++ rest ∧ (∀ c ∈ rest.head?, c = '.') ∧
          (Spells FirstOfAll rest others → Spells FirstOfAll (pathOf others) others) := by
        cases others with
        | nil => exact ⟨[], by simp [pathOf], nofun, id⟩
        | cons next others =>
            exact ⟨'.' :: pathOf (next :: others), rfl, by rintro _ ⟨⟩; rfl, Spells.of_dot⟩
      rw [hpath] at h
      obtain ⟨piece, rest', hbegins, hmeans, hspells⟩ := h.uncons (head_display_ne_dot hfirst)
      have hprints : PrintsBack segment := by
        cases segment with
        | key | index => trivial
        | filter key value =>
            cases value with
            | string t => exact printsBack_of_begins hfirst.2.2.1 hbegins hmeans
            | integer | boolean => trivial
      obtain ⟨piece', hbegins', -⟩ := isDisplayed_of_printsBack hfirst hprints rest hrest
      obtain ⟨-, rfl⟩ := hbegins.unique hbegins'
      exact List.forall_mem_cons.mpr ⟨hprints, ih hothers (hgoesOn hspells)⟩

end PrintsBack

/-- **Which paths can be printed.** The steps of a path, displayed with dots between them, are read as
the same steps if and only if each string in a filter is the same in single quotes and no quote that
its key has left open lets a bracket close the filter too early, or none close it. If no key leaves a
quote open, only the strings count. -/
theorem parse_display_iff {path : Text} {segments : List Segment}
    (h : parse path = .ok ⟨path, segments⟩) :
    (parse (pathOf segments) = .ok ⟨pathOf segments, segments⟩ ↔
      ∀ key t, .filter key (.string t) ∈ segments →
        Quotable t ∧ Outside (· ≠ ']') (stringBody key t)) ∧
    ((∀ key t, .filter key (.string t) ∈ segments → Outside (· ≠ ']') key) →
      (parse (pathOf segments) = .ok ⟨pathOf segments, segments⟩ ↔
        ∀ key t, .filter key (.string t) ∈ segments → Quotable t)) := by
  have hiff : parse (pathOf segments) = .ok ⟨pathOf segments, segments⟩ ↔
      ∀ key t, .filter key (.string t) ∈ segments →
        Quotable t ∧ Outside (· ≠ ']') (stringBody key t) := by
    rw [parse_eq_ok_iff, spells_pathOf_iff (isRead_of_spells (parse_eq_ok_iff.mp h))]
    constructor
    · intro hprints key t hmem
      exact hprints _ hmem
    · intro hstrings segment hmem
      cases segment with
      | key | index => trivial
      | filter key value =>
          cases value with
          | string t => exact hstrings key t hmem
          | integer | boolean => trivial
  refine ⟨hiff, fun hkeys => hiff.trans ⟨fun hall key t hmem => (hall key t hmem).1, ?_⟩⟩
  exact fun hall key t hmem =>
    ⟨hall key t hmem, outside_stringBody (hkeys key t hmem) (hall key t hmem)⟩

/-- A string in double quotes that holds single quotes, a backslash, a bracket and a blank is read
again from its display, as are the steps around it. -/
theorem parse_display_iff_quotes :
    parse "a[k=\"it's [1\\]\"].3".toList =
        .ok ⟨"a[k=\"it's [1\\]\"].3".toList,
          [.key ['a'], .filter ['k'] (.string "it's [1\\]".toList), .index 3]⟩ ∧
      parse "a.[k='it\\'s [1\\]'].3".toList =
        .ok ⟨"a.[k='it\\'s [1\\]'].3".toList,
          [.key ['a'], .filter ['k'] (.string "it's [1\\]".toList), .index 3]⟩ := by
  have hp : parse "a[k=\"it's [1\\]\"].3".toList =
      .ok ⟨"a[k=\"it's [1\\]\"].3".toList,
        [.key ['a'], .filter ['k'] (.string "it's [1\\]".toList), .index 3]⟩ := by
    decide +kernel
  refine ⟨hp, ((parse_display_iff hp).2 ?_).mpr ?_⟩
  · intro key t hmem
    obtain ⟨rfl, rfl⟩ : key = ['k'] ∧ t = "it's [1\\]".toList := by simpa using hmem
    exact .plain (by decide) (by simp [IsQuote]) .nil
  · intro key t hmem
    obtain ⟨rfl, rfl⟩ : key = ['k'] ∧ t = "it's [1\\]".toList := by simpa using hmem
    decide

/-- **A backslash at the end of a string** takes the closing quote along: the filter that is displayed
for it is not closed. -/
theorem parse_display_of_backslash :
    parse "[k=a\\]".toList = .ok ⟨"[k=a\\]".toList, [.filter ['k'] (.string "a\\".toList)]⟩ ∧
      pathOf [.filter ['k'] (.string "a\\".toList)] = "[k='a\\']".toList ∧
      parse "[k='a\\']".toList = .error ⟨0, .unterminatedFilter⟩ := by
  refine ⟨?_, ?_, ?_⟩ <;> decide +kernel

end Selector

end YamlEdit
