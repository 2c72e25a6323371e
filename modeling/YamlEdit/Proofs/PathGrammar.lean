import Mathlib.Data.List.Forall2
import YamlEdit.Proofs.Inversion
import YamlEdit.Proofs.Numerals
import YamlEdit.Proofs.WrittenNames
import YamlEdit.Selector.Parse

/-!
# The grammar of paths

A path is cut into pieces by longest match (`Selector.Splits`): separators, runs of digits, words,
and filters that end at the first `]` outside quotes. A piece stands for at most one step
(`Selector.Means`). A filter is divided at a sign of equality, and there are two ways to choose it:
the first one of all, and the first one outside quotes.

Main statement: `Selector.parse_eq_ok_iff_spells`. The reader accepts what is spelled with the first
sign of all, and nothing else. That is what is spelled with the first one outside quotes unless a
filter has an earlier one inside quotes.
-/

namespace YamlEdit

namespace Text

/-- A text of which a sign is the first one of its kind. -/
theorem takeWhile_ne_iff {sign : Char} {t left right : Text} :
    t = left ++ sign :: right ∧ sign ∉ left ↔
      sign ∈ t ∧ t.takeWhile (· ≠ sign) = left ∧ (t.dropWhile (· ≠ sign)).drop 1 = right := by
  constructor
  · rintro ⟨rfl, hleft⟩
    have hne : ∀ c ∈ left, decide (c ≠ sign) = true := fun c hc => by
      simpa using fun h : c = sign => hleft (h ▸ hc)
    obtain ⟨htake, hdrop⟩ := takeWhile_dropWhile_iff (p := (· ≠ sign)).mpr
      ⟨(rfl : left ++ sign :: right = _), hne, by simp⟩
    exact ⟨by simp, htake, by rw [hdrop]; rfl⟩
  · rintro ⟨hmem, rfl, rfl⟩
    obtain ⟨hsplit, hleft, hright⟩ := takeWhile_dropWhile_iff.mp ⟨rfl, rfl⟩
    refine ⟨?_, fun h => by simpa using hleft sign h⟩
    cases hdrop : t.dropWhile (· ≠ sign) with
    | nil =>
        rw [hdrop, List.append_nil] at hsplit
        rw [hsplit] at hmem
        simpa using hleft sign hmem
    | cons c right =>
        rw [hdrop] at hsplit hright
        obtain rfl : c = sign := by simpa using hright c rfl
        exact hsplit

/-- A run that is not empty starts with the first character. -/
theorem takeWhile_cons_iff {p : Char → Bool} {c : Char} {cs run rest : Text} :
    (run ≠ [] ∧ (c :: cs).takeWhile p = run ∧ (c :: cs).dropWhile p = rest) ↔
      p c = true ∧ run = c :: cs.takeWhile p ∧ rest = cs.dropWhile p := by
  by_cases hc : p c = true
  · rw [List.takeWhile_cons_of_pos hc, List.dropWhile_cons_of_pos hc]
    constructor
    · rintro ⟨-, rfl, rfl⟩
      exact ⟨hc, rfl, rfl⟩
    · rintro ⟨-, rfl, rfl⟩
      exact ⟨List.cons_ne_nil _ _, rfl, rfl⟩
  · rw [List.takeWhile_cons_of_neg hc]
    constructor
    · rintro ⟨hsome, rfl, -⟩
      exact absurd rfl hsome
    · exact fun h => absurd h.1 hc

theorem mem_dropWhile_of_not {p : Char → Bool} {c : Char} {t : Text} (hc : p c = false) :
    c ∈ t.dropWhile p ↔ c ∈ t := by
  refine ⟨fun h => (List.dropWhile_suffix p).subset h, fun h => ?_⟩
  rw [← List.takeWhile_append_dropWhile (p := p) (l := t)] at h
  rcases List.mem_append.mp h with h | h
  · cases hc.symm.trans (List.all_eq_true.mp List.all_takeWhile c h)
  · exact h

/-- Only blanks are trimmed. -/
theorem mem_trim_of_not_isBlank {c : Char} {t : Text} (hc : isBlank c = false) :
    c ∈ t.trim ↔ c ∈ t := by
  rw [trim, trimEnd, trimStart, List.mem_reverse, mem_dropWhile_of_not hc, List.mem_reverse,
    mem_dropWhile_of_not hc]

end Text

namespace Selector

/-! ## Strings in quotes -/

/-- The two quotes. -/
def IsQuote (c : Char) : Prop := c = '\'' ∨ c = '"'

/-- The rest of a string behind its opening quote, up to the closing one, and the value of the
string. A backslash escapes the quote only; in front of another character it stands for itself. -/
inductive Quotes (quote : Char) : Text → Text → Prop where
  | close : Quotes quote [quote] []
  | plain {c : Char} {t value : Text} (other : c ≠ quote) (plain : c ≠ '\\')
      (rest : Quotes quote t value) : Quotes quote (c :: t) (c :: value)
  | escaped {t value : Text} (rest : Quotes quote t value) :
      Quotes quote ('\\' :: quote :: t) (quote :: value)
  | backslash {c : Char} {t value : Text} (other : c ≠ quote) (rest : Quotes quote t value) :
      Quotes quote ('\\' :: c :: t) ('\\' :: c :: value)

/-- A text of characters that are `p` and of whole strings in quotes, which may hold any
character. -/
inductive Outside (p : Char → Prop) : Text → Prop where
  | nil : Outside p []
  | plain {c : Char} {t : Text} (is : p c) (unquoted : ¬ IsQuote c) (rest : Outside p t) :
      Outside p (c :: t)
  | quoted {quote : Char} {s value t : Text} (is : IsQuote quote) (string : Quotes quote s value)
      (rest : Outside p t) : Outside p (quote :: (s ++ t))

theorem IsQuote.ne_backslash {c : Char} (h : IsQuote c) : c ≠ '\\' := by
  rcases h with rfl | rfl <;> decide

theorem IsQuote.ne_bracket {c : Char} (h : IsQuote c) : c ≠ ']' := by
  rcases h with rfl | rfl <;> decide

section Quotes

variable {quote : Char} {t s value rest : Text}

theorem readQuoted_cons {c : Char} (h : c ≠ '\\') :
    readQuoted quote (c :: t) = if c = quote then some ([], t)
      else (readQuoted quote t).map fun (value, rest) => (c :: value, rest) := by
  cases t <;> simp only [readQuoted, if_neg h]

/-- **A string is read up to its closing quote.** -/
theorem readQuoted_eq_some_iff (hquote : IsQuote quote) :
    readQuoted quote t = some (value, rest) ↔ ∃ s, t = s ++ rest ∧ Quotes quote s value := by
  constructor
  · intro h
    fun_induction readQuoted quote t generalizing value with
    | case1 => cases h
    | case2 => cases h
    | case3 c cs ih =>
        obtain ⟨⟨value', _⟩, hread, heq⟩ := Option.map_eq_some_iff.mp h
        cases heq
        obtain ⟨s, rfl, hs⟩ := ih hread
        refine ⟨'\\' :: c :: s, rfl, ?_⟩
        split
        · next hc =>
            subst hc
            exact .escaped hs
        · next hc => exact .backslash hc hs
    | case4 cs hslash =>
        cases h
        exact ⟨[quote], rfl, .close⟩
    | case5 c cs hslash hother ih =>
        obtain ⟨⟨value', _⟩, hread, heq⟩ := Option.map_eq_some_iff.mp h
        cases heq
        obtain ⟨s, rfl, hs⟩ := ih hread
        exact ⟨c :: s, rfl, .plain hother hslash hs⟩
  · rintro ⟨s, rfl, hs⟩
    induction hs with
    | close =>
        rw [List.cons_append, readQuoted_cons hquote.ne_backslash, if_pos rfl]
        rfl
    | plain hother hslash _ ih =>
        rw [List.cons_append, readQuoted_cons hslash, if_neg hother, ih]
        rfl
    | escaped _ ih => simp [readQuoted, ih]
    | backslash hother _ ih => simp [readQuoted, hother, ih]

/-- There is one way only to read a string off a text. -/
theorem Quotes.unique {s' value' t' : Text} (hquote : IsQuote quote) (h : Quotes quote s value)
    (h' : Quotes quote s' value') (heq : s ++ t = s' ++ t') : s = s' ∧ t = t' := by
  have hread : readQuoted quote (s ++ t) = some (value, t) :=
    (readQuoted_eq_some_iff hquote).mpr ⟨s, rfl, h⟩
  have hread' : readQuoted quote (s' ++ t') = some (value', t') :=
    (readQuoted_eq_some_iff hquote).mpr ⟨s', rfl, h'⟩
  rw [heq] at hread
  cases hread.symm.trans hread'
  exact ⟨List.append_cancel_right heq, rfl⟩

end Quotes

/-- There is one way only to find a sign outside quotes that is the first of its kind. -/
theorem Outside.unique {p : Char → Prop} {sign : Char} {left left' right right' : Text}
    (hsign : ¬ p sign) (hunquoted : ¬ IsQuote sign) (h : Outside p left) (h' : Outside p left')
    (heq : left ++ sign :: right = left' ++ sign :: right') : left = left' := by
  induction h generalizing left' with
  | nil =>
      cases h' with
      | nil => rfl
      | plain hp _ _ =>
          cases heq
          exact absurd hp hsign
      | quoted hquote _ _ =>
          cases heq
          exact absurd hquote hunquoted
  | @plain c t hp hc _ ih =>
      cases h' with
      | nil =>
          cases heq
          exact absurd hp hsign
      | plain hp' _ hrest' =>
          obtain ⟨rfl, htail⟩ := List.cons.inj heq
          rw [ih hrest' htail]
      | quoted hquote _ _ =>
          obtain ⟨rfl, -⟩ := List.cons.inj heq
          exact absurd hquote hc
  | @quoted quote s value t hquote hstring _ ih =>
      cases h' with
      | nil =>
          cases heq
          exact absurd hquote hunquoted
      | plain _ hc _ =>
          obtain ⟨rfl, -⟩ := List.cons.inj heq
          exact absurd hquote hc
      | quoted hquote' hstring' hrest' =>
          obtain ⟨rfl, htail⟩ := List.cons.inj heq
          replace htail : s ++ t ++ sign :: right = _ ++ _ ++ sign :: right' := htail
          rw [List.append_assoc, List.append_assoc] at htail
          obtain ⟨rfl, hbehind⟩ := hstring.unique hquote hstring' htail
          rw [ih hrest' hbehind]

/-! ## Filters -/

/-- What stands in a filter behind a place, in front of its closing bracket. -/
def Fills : OpenQuote → Text → Prop
  | none, t => Outside (· ≠ ']') t
  | some quote, t => ∃ s value u, t = s ++ u ∧ Quotes quote s value ∧ Outside (· ≠ ']') u

theorem closeFilter_cons {quote c : Char} {t : Text} (h : c ≠ '\\') :
    closeFilter (some quote) (c :: t) =
      (closeFilter (if c = quote then none else some quote) t).map
        fun (body, rest) => (c :: body, rest) := by
  cases t <;> simp only [closeFilter, if_neg h]

/-- The search for the bracket goes on behind a string. -/
theorem closeFilter_string {quote : Char} {s value t : Text} (hquote : IsQuote quote)
    (h : Quotes quote s value) :
    closeFilter (some quote) (s ++ t) =
      (closeFilter none t).map fun (body, rest) => (s ++ body, rest) := by
  induction h with
  | close =>
      rw [List.cons_append, closeFilter_cons hquote.ne_backslash, if_pos rfl]
      rfl
  | plain hother hslash _ ih =>
      rw [List.cons_append, closeFilter_cons hslash, if_neg hother, ih, Option.map_map]
      rfl
  | escaped _ ih => simp [closeFilter, ih, Function.comp_def]
  | backslash _ _ ih => simp [closeFilter, ih, Function.comp_def]

/-- What is in front of the bracket that is found: the rest of a string, if the search starts in
one, and then nothing but whole strings and characters that are no bracket. -/
theorem fills_of_closeFilter {q : OpenQuote} {t body rest : Text} (hq : ∀ c ∈ q, IsQuote c)
    (h : closeFilter q t = some (body, rest)) : t = body ++ ']' :: rest ∧ Fills q body := by
  fun_induction closeFilter q t generalizing body with
  | case1 => cases h
  | case2 => cases h
  | case3 quote c cs ih =>
      -- a backslash takes the next character with it
      obtain ⟨⟨body', _⟩, hclose, heq⟩ := Option.map_eq_some_iff.mp h
      cases heq
      obtain ⟨rfl, s, value, u, rfl, hs, hu⟩ := ih hq hclose
      refine ⟨rfl, '\\' :: c :: s, ?_⟩
      by_cases hc : c = quote
      · subst hc
        exact ⟨c :: value, u, rfl, .escaped hs, hu⟩
      · exact ⟨'\\' :: c :: value, u, rfl, .backslash hc hs, hu⟩
  | case4 quote c cs hslash ih =>
      obtain ⟨⟨body', _⟩, hclose, heq⟩ := Option.map_eq_some_iff.mp h
      cases heq
      by_cases hc : c = quote
      · rw [if_pos hc] at ih hclose
        obtain ⟨rfl, hu⟩ := ih forall_none hclose
        exact ⟨rfl, [quote], [], body', by rw [hc]; rfl, .close, hu⟩
      · rw [if_neg hc] at ih hclose
        obtain ⟨rfl, s, value, u, rfl, hs, hu⟩ := ih hq hclose
        exact ⟨rfl, c :: s, c :: value, u, rfl, .plain hc hslash hs, hu⟩
  | case5 cs =>
      cases h
      exact ⟨rfl, .nil⟩
  | case6 c cs hbracket ih =>
      obtain ⟨⟨body', _⟩, hclose, heq⟩ := Option.map_eq_some_iff.mp h
      cases heq
      by_cases hc : c = '\'' ∨ c = '"'
      · rw [if_pos hc] at ih hclose
        obtain ⟨rfl, s, value, u, rfl, hs, hu⟩ := ih (by rintro _ ⟨⟩; exact hc) hclose
        exact ⟨rfl, .quoted hc hs hu⟩
      · rw [if_neg hc] at ih hclose
        obtain ⟨rfl, hu⟩ := ih forall_none hclose
        exact ⟨rfl, .plain hbracket hc hu⟩

/-- **A filter ends at the first bracket outside quotes.** -/
theorem closeFilter_eq_some_iff {t body rest : Text} :
    closeFilter none t = some (body, rest) ↔
      t = body ++ ']' :: rest ∧ Outside (· ≠ ']') body := by
  refine ⟨fills_of_closeFilter forall_none, ?_⟩
  rintro ⟨rfl, hbody⟩
  induction hbody with
  | nil => simp [closeFilter]
  | plain hbracket hc _ ih =>
      simp only [IsQuote] at hc
      simp [closeFilter, hbracket, hc, ih]
  | @quoted quote s value t hquote hstring _ ih =>
      have hstring := closeFilter_string (t := t ++ ']' :: rest) hquote hstring
      rw [ih] at hstring
      have hquote' := hquote
      simp only [IsQuote] at hquote'
      simp [closeFilter, hquote.ne_bracket, hquote', hstring]

/-- What the right side of a filter stands for, blanks around it being gone. -/
inductive Denotes : Text → FilterValue → Prop where
  | integer {t : Text} (some : t ≠ []) (digits : ∀ c ∈ t, Text.isDigit c = true)
      (small : Nat.ofDigitChars 10 t 0 < Nat.pow 2 63) :
      Denotes t (.integer (Nat.ofDigitChars 10 t 0))
  | string {quote : Char} {s value : Text} (is : IsQuote quote) (whole : Quotes quote s value) :
      Denotes (quote :: s) (.string value)
  | true : Denotes "true".toList (.boolean Bool.true)
  | false : Denotes "false".toList (.boolean Bool.false)
  | raw {t : Text} (start : ∀ c ∈ t.head?, Text.isDigit c = Bool.false ∧ ¬ IsQuote c)
      (notTrue : t ≠ "true".toList) (notFalse : t ≠ "false".toList) (plain : '=' ∉ t) :
      Denotes t (.string t)

theorem isDigit_ne_quote {c : Char} (h : Text.isDigit c = true) : ¬ IsQuote c := by
  rintro (rfl | rfl) <;> cases h

theorem le_maxInteger_iff {n : Nat} : n ≤ maxInteger ↔ n < Nat.pow 2 63 :=
  Nat.le_sub_one_iff_lt (by decide)

/-- What the reader takes the right side for, by how it starts. -/
theorem denotes_of_filterValue {start : Nat} {t : Text} {value : FilterValue}
    (h : filterValue start t = .ok value) : Denotes t value := by
  unfold filterValue at h
  split at h
  · cases h
    exact .raw forall_none (by decide) (by decide) List.not_mem_nil
  next c cs =>
  split at h
  · split at h
    · next hall =>
        cases h
        rw [Text.toNatDigits_eq] at hall ⊢
        exact .integer (List.cons_ne_nil c cs) (List.all_eq_true.mp hall.1)
          (le_maxInteger_iff.mp hall.2)
    · cases h
  next hdigit =>
  split at h
  · next hquote =>
      split at h
      · cases h
      · next value' hread =>
          cases h
          obtain ⟨s, hs, hwhole⟩ := (readQuoted_eq_some_iff hquote).mp hread
          rw [List.append_nil] at hs
          exact .string hquote (hs ▸ hwhole)
      · cases h
  next hquote =>
  split at h
  · next htrue =>
      cases h
      exact htrue ▸ .true
  next htrue =>
  split at h
  · next hfalse =>
      cases h
      exact hfalse ▸ .false
  next hfalse =>
  split at h
  · cases h
  · next hplain =>
      cases h
      refine .raw ?_ htrue hfalse (by simpa using hplain)
      rintro _ ⟨⟩
      exact ⟨by simpa using hdigit, hquote⟩

/-- **The value of a filter** is an integer, a string in quotes, a truth value or a text, by how it
starts. -/
theorem filterValue_eq_ok_iff {start : Nat} {t : Text} {value : FilterValue} :
    filterValue start t = .ok value ↔ Denotes t value := by
  refine ⟨denotes_of_filterValue, fun h => ?_⟩
  cases h with
  | @integer t hsome hdigits hsmall =>
      obtain ⟨c, cs, rfl⟩ := List.exists_cons_of_ne_nil hsome
      unfold filterValue
      dsimp only
      rw [if_pos (hdigits c List.mem_cons_self), if_pos, Text.toNatDigits_eq]
      rw [Text.toNatDigits_eq]
      exact ⟨List.all_eq_true.mpr hdigits, le_maxInteger_iff.mpr hsmall⟩
  | @string quote s value hquote hwhole =>
      have hread := (readQuoted_eq_some_iff hquote).mpr ⟨s, (List.append_nil s).symm, hwhole⟩
      unfold filterValue
      dsimp only
      rw [if_neg fun hdigit => isDigit_ne_quote hdigit hquote,
        if_pos (show quote = '\'' ∨ quote = '"' from hquote), hread]
  | true => rfl
  | false => rfl
  | raw hstart htrue hfalse hplain =>
      cases t with
      | nil => rfl
      | cons c cs =>
          obtain ⟨hdigit, hquote⟩ := hstart c rfl
          unfold filterValue
          dsimp only
          rw [if_neg (by rw [hdigit]; exact Bool.false_ne_true),
            if_neg (show ¬ (c = '\'' ∨ c = '"') from hquote), if_neg htrue, if_neg hfalse,
            if_neg (by simpa using hplain)]

/-- Where a filter may be divided: a property of what is in front of the sign. -/
abbrev Division := Text → Prop

/-- At the first sign of equality. -/
def FirstOfAll : Division := fun left => '=' ∉ left

/-- At the first sign of equality outside quotes. -/
def FirstOutside : Division := Outside (· ≠ '=')

/-- The key and the value of a filter that is divided at a sign of equality. -/
inductive Divides (division : Division) (body key : Text) (value : FilterValue) : Prop where
  | intro {left right : Text} (split : body = left ++ '=' :: right) (divided : division left)
      (left : key = left.trim) (some : key ≠ []) (right : Denotes right.trim value)

/-- **The body of a filter** is divided at the first sign of equality. -/
theorem filterBody_eq_ok_iff {start : Nat} {body : Text} {segment : Segment} :
    filterBody start body = .ok segment ↔
      ∃ key value, segment = .filter key value ∧ Divides FirstOfAll body key value := by
  constructor
  · intro h
    unfold filterBody at h
    split at h
    · next hmem =>
        obtain ⟨hbody, hleft⟩ := Text.takeWhile_ne_iff.mpr ⟨by simpa using hmem, rfl, rfl⟩
        dsimp only at h
        split at h
        · cases h
        · next hkey =>
            obtain ⟨value, hvalue, rfl⟩ := map_eq_ok.mp h
            exact ⟨_, value, rfl, .intro hbody hleft rfl (by simpa using hkey)
              (filterValue_eq_ok_iff.mp hvalue)⟩
    · cases h
  · rintro ⟨key, value, rfl, hdivides⟩
    obtain ⟨rfl, hdivided, rfl, hsome, hdenoted⟩ := hdivides
    obtain ⟨hmem, hleft, hright⟩ := Text.takeWhile_ne_iff.mp ⟨rfl, hdivided⟩
    unfold filterBody
    rw [if_pos (by simp)]
    dsimp only
    rw [hleft, hright, if_neg (by simpa using hsome), filterValue_eq_ok_iff.mpr hdenoted]
    rfl

/-! ## Pieces -/

/-- A part of a path. -/
inductive Piece where
  | separator
  | digits (run : Text)
  | word (run : Text)
  | filter (body : Text)

/-- The piece that a text begins with, and the rest of the text. Runs are as long as possible, and a
filter ends at the first bracket outside quotes. -/
inductive Begins (t : Text) : Piece → Text → Prop where
  | separator {rest : Text} (text : t = '.' :: rest) : Begins t .separator rest
  | digits {run rest : Text} (text : t = run ++ rest) (some : run ≠ [])
      (all : ∀ c ∈ run, Text.isDigit c = true)
      (longest : ∀ c ∈ rest.head?, Text.isDigit c = false) : Begins t (.digits run) rest
  | word {run rest : Text} (text : t = run ++ rest) (some : run ≠ [])
      (start : ∀ c ∈ run.head?, Text.isDigit c = false) (all : ∀ c ∈ run, c ≠ '.' ∧ c ≠ '[')
      (longest : ∀ c ∈ rest.head?, c = '.' ∨ c = '[') : Begins t (.word run) rest
  | filter {body rest : Text} (text : t = '[' :: (body ++ ']' :: rest))
      (closed : Outside (· ≠ ']') body) : Begins t (.filter body) rest

/-- The pieces of a path. -/
inductive Splits : Text → List Piece → Prop where
  | nil : Splits [] []
  | cons {t rest : Text} {piece : Piece} {pieces : List Piece} (first : Begins t piece rest)
      (others : Splits rest pieces) : Splits t (piece :: pieces)

/-- The step that a piece stands for; a separator stands for none. -/
inductive Means (division : Division) : Piece → Option Segment → Prop where
  | separator : Means division .separator none
  | index {run : Text} (small : Nat.ofDigitChars 10 run 0 < UInt64.size) :
      Means division (.digits run) (some (.index (Nat.ofDigitChars 10 run 0)))
  | key {run : Text} : Means division (.word run) (some (.key run))
  | filter {body key : Text} {value : FilterValue} (divided : Divides division body key value) :
      Means division (.filter body) (some (.filter key value))

/-- A path that spells steps: each of its pieces stands for one or for none. -/
def Spells (division : Division) (path : Text) (segments : List Segment) : Prop :=
  ∃ pieces steps, Splits path pieces ∧ List.Forall₂ (Means division) pieces steps ∧
    segments = steps.reduceOption

theorem isKeyChar_iff {c : Char} : isKeyChar c = true ↔ c ≠ '.' ∧ c ≠ '[' := by
  simp [isKeyChar]

theorem isKeyChar_eq_false_iff {c : Char} : isKeyChar c = false ↔ c = '.' ∨ c = '[' := by
  rw [← Bool.not_eq_true, isKeyChar_iff, Decidable.not_and_iff_not_or_not, not_not, not_not]

/-- A text that starts with a digit starts with a run of digits. -/
theorem begins_digits_iff {c : Char} {cs run rest : Text} :
    Begins (c :: cs) (.digits run) rest ↔ Text.isDigit c = true ∧
      run = c :: cs.takeWhile Text.isDigit ∧ rest = cs.dropWhile Text.isDigit := by
  rw [← Text.takeWhile_cons_iff, Text.takeWhile_dropWhile_iff]
  constructor
  · intro h
    cases h with
    | digits htext hsome hall hlongest => exact ⟨hsome, htext, hall, hlongest⟩
  · rintro ⟨hsome, htext, hall, hlongest⟩
    exact .digits htext hsome hall hlongest

/-- A text that starts with no digit, dot or bracket starts with a word. -/
theorem begins_word_iff {c : Char} {cs run rest : Text} :
    Begins (c :: cs) (.word run) rest ↔ (Text.isDigit c = false ∧ c ≠ '.' ∧ c ≠ '[') ∧
      run = c :: cs.takeWhile isKeyChar ∧ rest = cs.dropWhile isKeyChar := by
  constructor
  · intro h
    cases h with
    | word htext hsome hstart hall hlongest =>
        have hsplit := Text.takeWhile_dropWhile_iff.mpr ⟨htext, fun d hd =>
          isKeyChar_iff.mpr (hall d hd), fun d hd => isKeyChar_eq_false_iff.mpr (hlongest d hd)⟩
        obtain ⟨hkey, hrun, hrest⟩ := Text.takeWhile_cons_iff.mp ⟨hsome, hsplit⟩
        exact ⟨⟨hstart c (by rw [hrun]; rfl), isKeyChar_iff.mp hkey⟩, hrun, hrest⟩
  · rintro ⟨⟨hdigit, hkey⟩, hrun⟩
    obtain ⟨hsome, hsplit⟩ := Text.takeWhile_cons_iff.mpr ⟨isKeyChar_iff.mpr hkey, hrun⟩
    obtain ⟨htext, hall, hlongest⟩ := Text.takeWhile_dropWhile_iff.mp hsplit
    refine .word htext hsome ?_ (fun d hd => isKeyChar_iff.mp (hall d hd))
      fun d hd => isKeyChar_eq_false_iff.mp (hlongest d hd)
    rw [hrun.1]
    rintro _ ⟨⟩
    exact hdigit

theorem le_maxIndex_iff {n : Nat} : n ≤ maxIndex ↔ n < UInt64.size :=
  Nat.le_sub_one_iff_lt (by decide)

/-- What a step of the reader takes off is a piece that stands for what it gives. -/
theorem begins_of_nextSegment {offset : Nat} {c : Char} {cs rest : Text} {step : Option Segment}
    (h : nextSegment offset c cs = .ok (step, rest)) :
    ∃ piece, Begins (c :: cs) piece rest ∧ Means FirstOfAll piece step := by
  unfold nextSegment at h
  split at h
  · next hdot =>
      cases h
      exact ⟨.separator, .separator (by rw [hdot]), .separator⟩
  next hdot =>
  split at h
  · next hbracket =>
      split at h
      · cases h
      · next body rest' hclose =>
          obtain ⟨rfl, hclosed⟩ := closeFilter_eq_some_iff.mp hclose
          obtain ⟨segment, hsegment, heq⟩ := map_eq_ok.mp h
          cases heq
          obtain ⟨key, value, rfl, hdivides⟩ := filterBody_eq_ok_iff.mp hsegment
          exact ⟨.filter body, .filter (by rw [hbracket]) hclosed, .filter hdivides⟩
  next hbracket =>
  split at h
  · next hdigit =>
      dsimp only at h
      split at h
      · next hsmall =>
          cases h
          rw [Text.toNatDigits_eq] at hsmall ⊢
          exact ⟨_, begins_digits_iff.mpr ⟨hdigit, rfl, rfl⟩, .index (le_maxIndex_iff.mp hsmall)⟩
      · cases h
  · next hdigit =>
      cases h
      exact ⟨_, begins_word_iff.mpr ⟨⟨by simpa using hdigit, hdot, hbracket⟩, rfl, rfl⟩, .key⟩

/-- **A step of the reader** takes one piece and gives what it stands for. -/
theorem nextSegment_eq_ok_iff {offset : Nat} {c : Char} {cs rest : Text} {step : Option Segment} :
    nextSegment offset c cs = .ok (step, rest) ↔
      ∃ piece, Begins (c :: cs) piece rest ∧ Means FirstOfAll piece step := by
  refine ⟨begins_of_nextSegment, ?_⟩
  rintro ⟨piece, hbegins, hmeans⟩
  unfold nextSegment
  cases hmeans with
  | separator =>
      cases hbegins with
      | separator htext =>
          cases htext
          rfl
  | @index run hsmall =>
      obtain ⟨hdigit, rfl, rfl⟩ := begins_digits_iff.mp hbegins
      rw [if_neg (by rintro rfl; cases hdigit), if_neg (by rintro rfl; cases hdigit),
        if_pos hdigit]
      dsimp only
      rw [Text.toNatDigits_eq, if_pos (le_maxIndex_iff.mpr hsmall)]
  | @key run =>
      obtain ⟨⟨hdigit, hdot, hbracket⟩, rfl, rfl⟩ := begins_word_iff.mp hbegins
      rw [if_neg hdot, if_neg hbracket, if_neg (by rw [hdigit]; exact Bool.false_ne_true)]
  | filter hdivides =>
      cases hbegins with
      | filter htext hclosed =>
          cases htext
          rw [if_neg (by decide), if_pos rfl, closeFilter_eq_some_iff.mpr ⟨rfl, hclosed⟩]
          dsimp only
          rw [filterBody_eq_ok_iff.mpr ⟨_, _, rfl, hdivides⟩]
          rfl

/-! ## Paths -/

theorem Begins.length_lt {t rest : Text} {piece : Piece} (h : Begins t piece rest) :
    rest.length < t.length := by
  cases h with
  | separator htext =>
      rw [htext]
      exact Nat.lt_succ_self _
  | digits htext hsome =>
      have := List.length_pos_iff.mpr hsome
      rw [htext, List.length_append]
      omega
  | word htext hsome =>
      have := List.length_pos_iff.mpr hsome
      rw [htext, List.length_append]
      omega
  | filter htext =>
      simp only [htext, List.length_cons, List.length_append]
      omega

/-- One reading of a path at an offset. -/
theorem segmentsFrom_cons {offset : Nat} {c : Char} {cs : Text} {segments : List Segment} :
    segmentsFrom offset (c :: cs) = .ok segments ↔
      ∃ step rest others, nextSegment offset c cs = .ok (step, rest) ∧
        segmentsFrom (offset + (Text.size (c :: cs) - Text.size rest)) rest = .ok others ∧
        segments = step.toList ++ others := by
  rw [segmentsFrom]
  constructor
  · intro h
    split at h
    · cases h
    · next step rest hnext =>
        obtain ⟨others, hothers, rfl⟩ := map_eq_ok.mp h
        exact ⟨step, rest, others, hnext, hothers, rfl⟩
  · rintro ⟨step, rest, others, hnext, hothers, rfl⟩
    split
    · next hfails => cases hnext.symm.trans hfails
    · next hnext' =>
        cases hnext.symm.trans hnext'
        exact map_eq_ok.mpr ⟨others, hothers, rfl⟩

/-- **A path is read as what its pieces stand for.** -/
theorem segmentsFrom_eq_ok_iff {offset : Nat} {t : Text} {segments : List Segment} :
    segmentsFrom offset t = .ok segments ↔ Spells FirstOfAll t segments := by
  constructor
  · intro h
    induction offset, t using segmentsFrom.induct generalizing segments with
    | case1 =>
        rw [segmentsFrom] at h
        cases h
        exact ⟨[], [], .nil, .nil, rfl⟩
    | case2 offset c cs e hfails =>
        obtain ⟨_, _, _, hnext, -⟩ := segmentsFrom_cons.mp h
        cases hfails.symm.trans hnext
    | case3 offset c cs step rest hnext next =>
        rename_i ih
        obtain ⟨_, _, others, hnext', hothers, rfl⟩ := segmentsFrom_cons.mp h
        cases hnext.symm.trans hnext'
        obtain ⟨piece, hbegins, hmeans⟩ := nextSegment_eq_ok_iff.mp hnext
        obtain ⟨pieces, steps, hsplits, hall, rfl⟩ := ih hothers
        refine ⟨piece :: pieces, step :: steps, .cons hbegins hsplits, .cons hmeans hall, ?_⟩
        cases step <;> rfl
  · rintro ⟨pieces, steps, hsplits, hall, rfl⟩
    induction hsplits generalizing offset steps with
    | nil =>
        cases hall
        rw [segmentsFrom]
        rfl
    | @cons t rest piece pieces hbegins _ ih =>
        obtain ⟨c, cs, rfl⟩ : ∃ c cs, t = c :: cs :=
          List.exists_cons_of_length_pos (Nat.zero_lt_of_lt hbegins.length_lt)
        cases hall with
        | @cons _ step _ steps hmeans hall =>
            refine segmentsFrom_cons.mpr ⟨step, rest, steps.reduceOption,
              nextSegment_eq_ok_iff.mpr ⟨piece, hbegins, hmeans⟩, ih steps hall, ?_⟩
            cases step <;> rfl

theorem parse_eq_ok_iff {path : Text} {segments : List Segment} :
    parse path = .ok ⟨path, segments⟩ ↔ Spells FirstOfAll path segments := by
  rw [← @segmentsFrom_eq_ok_iff 0]
  refine (map_eq_ok (x := segmentsFrom 0 path)).trans ?_
  constructor
  · rintro ⟨_, h, heq⟩
    cases heq
    exact h
  · exact fun h => ⟨_, h, rfl⟩

/-! ## The two ways to divide a filter -/

/-- The characters that a piece can start with. No character starts pieces of two kinds. -/
def Piece.StartsWith (c : Char) : Piece → Prop
  | .separator => c = '.'
  | .digits _ => Text.isDigit c = true
  | .word _ => Text.isDigit c = false ∧ c ≠ '.' ∧ c ≠ '['
  | .filter _ => c = '['

theorem Begins.startsWith {t rest : Text} {piece : Piece} (h : Begins t piece rest) :
    ∃ c ∈ t.head?, piece.StartsWith c := by
  cases h with
  | separator htext => exact ⟨'.', by rw [htext]; rfl, rfl⟩
  | digits htext hsome hall =>
      obtain ⟨c, run, rfl⟩ := List.exists_cons_of_ne_nil hsome
      exact ⟨c, by rw [htext]; rfl, hall c List.mem_cons_self⟩
  | word htext hsome hstart hall =>
      obtain ⟨c, run, rfl⟩ := List.exists_cons_of_ne_nil hsome
      exact ⟨c, by rw [htext]; rfl, hstart c rfl, hall c List.mem_cons_self⟩
  | filter htext => exact ⟨'[', by rw [htext]; rfl, rfl⟩

/-- There is one way only to take a piece off a text. -/
theorem Begins.unique {t rest rest' : Text} {piece piece' : Piece} (h : Begins t piece rest)
    (h' : Begins t piece' rest') : piece = piece' ∧ rest = rest' := by
  obtain ⟨c, hhead, hc⟩ := h.startsWith
  obtain ⟨_, hhead', hc'⟩ := h'.startsWith
  obtain rfl : c = _ := Option.mem_unique hhead hhead'
  obtain ⟨cs, rfl⟩ := List.head?_eq_some_iff.mp hhead
  cases piece with
  | separator =>
      cases piece' with
      | separator =>
          cases h with | separator htext =>
          cases h' with | separator htext' =>
          exact ⟨rfl, (List.cons.inj (htext.symm.trans htext')).2⟩
      | digits =>
          obtain rfl : c = '.' := hc
          cases hc'
      | word => exact absurd hc hc'.2.1
      | filter => cases hc.symm.trans hc'
  | digits run =>
      cases piece' with
      | separator =>
          obtain rfl : c = '.' := hc'
          cases hc
      | digits run' =>
          obtain ⟨-, rfl, rfl⟩ := begins_digits_iff.mp h
          obtain ⟨-, rfl, rfl⟩ := begins_digits_iff.mp h'
          exact ⟨rfl, rfl⟩
      | word => cases hc.symm.trans hc'.1
      | filter =>
          obtain rfl : c = '[' := hc'
          cases hc
  | word run =>
      cases piece' with
      | separator => exact absurd hc' hc.2.1
      | digits => cases hc'.symm.trans hc.1
      | word run' =>
          obtain ⟨-, rfl, rfl⟩ := begins_word_iff.mp h
          obtain ⟨-, rfl, rfl⟩ := begins_word_iff.mp h'
          exact ⟨rfl, rfl⟩
      | filter => exact absurd hc' hc.2.2
  | filter body =>
      cases piece' with
      | separator => cases hc.symm.trans hc'
      | digits =>
          obtain rfl : c = '[' := hc
          cases hc'
      | word => exact absurd hc hc'.2.2
      | filter body' =>
          cases h with | filter htext hclosed =>
          cases h' with | filter htext' hclosed' =>
          have heq := (List.cons.inj (htext.symm.trans htext')).2
          obtain rfl := Outside.unique (by simp) (by simp [IsQuote]) hclosed hclosed' heq
          exact ⟨rfl, (List.cons.inj (List.append_cancel_left heq)).2⟩

theorem Splits.unique {t : Text} {pieces pieces' : List Piece} (h : Splits t pieces)
    (h' : Splits t pieces') : pieces = pieces' := by
  induction h generalizing pieces' with
  | nil =>
      cases h' with
      | nil => rfl
      | cons hbegins _ => exact absurd hbegins.length_lt (Nat.not_lt_zero _)
  | cons hbegins _ ih =>
      cases h' with
      | nil => exact absurd hbegins.length_lt (Nat.not_lt_zero _)
      | cons hbegins' hsplits' =>
          obtain ⟨rfl, rfl⟩ := hbegins.unique hbegins'
          rw [ih hsplits']

/-- A filter whose first sign of equality is outside quotes. -/
def EqualsOutside (body : Text) : Prop :=
  ∀ left right, body = left ++ '=' :: right → FirstOfAll left → FirstOutside left

theorem divides_iff_of_equalsOutside {body key : Text} {value : FilterValue}
    (h : EqualsOutside body) :
    Divides FirstOfAll body key value ↔ Divides FirstOutside body key value := by
  constructor
  · rintro ⟨hbody, hleft, hkey, hsome, hvalue⟩
    exact ⟨hbody, h _ _ hbody hleft, hkey, hsome, hvalue⟩
  · rintro ⟨hbody, hleft, hkey, hsome, hvalue⟩
    refine ⟨hbody, ?_, hkey, hsome, hvalue⟩
    -- the first sign of all is outside quotes too, so it is the same one
    obtain ⟨hfirst, hnot⟩ := Text.takeWhile_ne_iff.mpr
      ⟨show '=' ∈ body by rw [hbody]; simp, rfl, rfl⟩
    have heq := Outside.unique (by simp) (by simp [IsQuote]) hleft (h _ _ hfirst hnot)
      (hbody.symm.trans hfirst)
    rwa [FirstOfAll, heq]

theorem means_iff_of_equalsOutside {piece : Piece} {step : Option Segment}
    (h : ∀ body, piece = .filter body → EqualsOutside body) :
    Means FirstOfAll piece step ↔ Means FirstOutside piece step := by
  constructor
  · rintro ⟨⟩
    · exact .separator
    · exact .index ‹_›
    · exact .key
    · exact .filter ((divides_iff_of_equalsOutside (h _ rfl)).mp ‹_›)
  · rintro ⟨⟩
    · exact .separator
    · exact .index ‹_›
    · exact .key
    · exact .filter ((divides_iff_of_equalsOutside (h _ rfl)).mpr ‹_›)

/-- Two divisions that find the same key divide at the same sign. -/
theorem equalsOutside_of_divides {body key : Text} {value value' : FilterValue}
    (h : Divides FirstOfAll body key value) (h' : Divides FirstOutside body key value') :
    EqualsOutside body := by
  obtain ⟨hbody, hleft, hkey, -, -⟩ := h
  obtain ⟨hbody', hleft', hkey', -, -⟩ := h'
  rename_i left right left' right'
  -- a sign that is left in front of the later one would be part of the key
  have hnot : '=' ∉ left' := by
    rw [← Text.mem_trim_of_not_isBlank (by decide), ← hkey', hkey,
      Text.mem_trim_of_not_isBlank (by decide)]
    exact hleft
  intro first behind hfirst hfirst'
  obtain ⟨-, hsame, -⟩ := Text.takeWhile_ne_iff.mp ⟨hbody', hnot⟩
  obtain ⟨-, hsame', -⟩ := Text.takeWhile_ne_iff.mp ⟨hfirst, hfirst'⟩
  rwa [← hsame', hsame]

/-- A piece that stands for the same step both ways has its sign of equality outside quotes. -/
theorem equalsOutside_of_means {body : Text} {step : Option Segment}
    (h : Means FirstOfAll (.filter body) step) (h' : Means FirstOutside (.filter body) step) :
    EqualsOutside body := by
  cases h with
  | filter hdivides =>
      cases h' with
      | filter hdivides' => exact equalsOutside_of_divides hdivides hdivides'

/-- Pieces that stand for the same steps do so one by one. -/
theorem steps_unique {division division' : Division} {pieces : List Piece}
    {steps steps' : List (Option Segment)} (h : List.Forall₂ (Means division) pieces steps)
    (h' : List.Forall₂ (Means division') pieces steps')
    (heq : steps.reduceOption = steps'.reduceOption) : steps = steps' := by
  induction h generalizing steps' with
  | nil =>
      cases h'
      rfl
  | @cons piece step pieces steps hmeans _ ih =>
      cases h' with
      | @cons _ step' _ steps' hmeans' hall' =>
          cases hmeans with
          | separator =>
              cases hmeans'
              rw [ih hall' heq]
          | index | key | filter =>
              cases hmeans'
              obtain ⟨hsame, heq⟩ := List.cons.inj heq
              rw [hsame, ih hall' heq]

theorem spells_iff_of_equalsOutside {path : Text} {segments : List Segment}
    (h : ∀ pieces body, Splits path pieces → .filter body ∈ pieces → EqualsOutside body) :
    Spells FirstOfAll path segments ↔ Spells FirstOutside path segments := by
  have hmeans : ∀ {pieces}, Splits path pieces → ∀ piece ∈ pieces, ∀ step,
      Means FirstOfAll piece step ↔ Means FirstOutside piece step := fun hsplits piece hp step =>
    means_iff_of_equalsOutside fun body hbody => h _ body hsplits (hbody ▸ hp)
  constructor
  · rintro ⟨pieces, steps, hsplits, hall, rfl⟩
    refine ⟨pieces, steps, hsplits, ?_, rfl⟩
    exact ((List.forall₂_and_left _ _).mpr ⟨hmeans hsplits, hall⟩).imp
      fun _ step ⟨hiff, hmeans⟩ => (hiff step).mp hmeans
  · rintro ⟨pieces, steps, hsplits, hall, rfl⟩
    refine ⟨pieces, steps, hsplits, ?_, rfl⟩
    exact ((List.forall₂_and_left _ _).mpr ⟨hmeans hsplits, hall⟩).imp
      fun _ step ⟨hiff, hmeans⟩ => (hiff step).mpr hmeans

/-- Only filters with the first sign outside quotes are read the same both ways. -/
theorem equalsOutside_of_spells {path : Text} {segments : List Segment}
    (h : Spells FirstOfAll path segments) (h' : Spells FirstOutside path segments) :
    ∀ pieces body, Splits path pieces → .filter body ∈ pieces → EqualsOutside body := by
  obtain ⟨pieces, steps, hsplits, hall, rfl⟩ := h
  obtain ⟨pieces', steps', hsplits', hall', heq⟩ := h'
  obtain rfl := hsplits.unique hsplits'
  obtain rfl := steps_unique hall hall' heq
  intro pieces' body hpieces' hbody
  obtain rfl := hsplits.unique hpieces'
  obtain ⟨n, hn⟩ := List.mem_iff_get.mp hbody
  have hn' : (n : Nat) < steps.length := hall.length_eq ▸ n.isLt
  have hmeans := (List.forall₂_iff_get.mp hall).2 n n.isLt hn'
  have hmeans' := (List.forall₂_iff_get.mp hall').2 n n.isLt hn'
  rw [show pieces.get ⟨n, n.isLt⟩ = .filter body from hn] at hmeans hmeans'
  exact equalsOutside_of_means hmeans hmeans'

/-- **The paths that are read** are those that spell steps, each filter being divided at its first
sign of equality; other paths are refused. They are the same as those whose filters are divided at
the first sign outside quotes, with the same steps, unless a filter has an earlier sign inside
quotes; and then they still are if both ways refuse the path. -/
theorem parse_eq_ok_iff_spells (path : Text) :
    (∀ segments, parse path = .ok ⟨path, segments⟩ ↔ Spells FirstOfAll path segments) ∧
      ((∃ e, parse path = .error e) ↔ ¬ ∃ segments, Spells FirstOfAll path segments) ∧
      ((∀ segments, parse path = .ok ⟨path, segments⟩ ↔ Spells FirstOutside path segments) ↔
        (∀ pieces body, Splits path pieces → .filter body ∈ pieces → EqualsOutside body) ∨
          (∃ e, parse path = .error e) ∧ ¬ ∃ segments, Spells FirstOutside path segments) := by
  have hread : ∀ segments, parse path = .ok ⟨path, segments⟩ ↔ Spells FirstOfAll path segments :=
    fun segments => parse_eq_ok_iff
  have hfails : (∃ e, parse path = .error e) ↔ ¬ ∃ segments, Spells FirstOfAll path segments := by
    simp only [← hread]
    cases hparse : parse path with
    | error e =>
        refine ⟨fun _ => ?_, fun _ => ⟨e, rfl⟩⟩
        rintro ⟨_, h⟩
        cases h
    | ok selector =>
        obtain ⟨segments, -, rfl⟩ := map_eq_ok (x := segmentsFrom 0 path) |>.mp hparse
        refine ⟨?_, fun h => absurd ⟨segments, rfl⟩ h⟩
        rintro ⟨_, h⟩
        cases h
  refine ⟨hread, hfails, ?_⟩
  simp only [hread, hfails]
  constructor
  · intro hsame
    by_cases hspelled : ∃ segments, Spells FirstOfAll path segments
    · obtain ⟨segments, h⟩ := hspelled
      exact .inl (equalsOutside_of_spells h ((hsame segments).mp h))
    · exact .inr ⟨hspelled, fun ⟨segments, h⟩ => hspelled ⟨segments, (hsame segments).mpr h⟩⟩
  · rintro (hequals | ⟨hnot, hnot'⟩) segments
    · exact spells_iff_of_equalsOutside hequals
    · exact ⟨fun h => absurd ⟨segments, h⟩ hnot, fun h => absurd ⟨segments, h⟩ hnot'⟩

/-- **A key in quotes is cut in two.** The first sign of equality outside quotes divides
`'a=b'=c` into the key `'a=b'` and the value `c`, and the reader refuses the path. -/
theorem parse_cuts_key_in_quotes :
    Spells FirstOutside "['a=b'=c]".toList
        [.filter "'a=b'".toList (.string "c".toList)] ∧
      parse "['a=b'=c]".toList = .error ⟨6, .unexpectedEquals⟩ := by
  have hstring : Quotes '\'' "a=b'".toList "a=b".toList :=
    .plain (by decide) (by decide) (.plain (by decide) (by decide)
      (.plain (by decide) (by decide) .close))
  have hkey : ∀ {p : Char → Prop} {t : Text}, Outside p t → Outside p ("'a=b'".toList ++ t) :=
    fun h => .quoted (.inl rfl) hstring h
  have hequals : ¬ IsQuote '=' := by simp [IsQuote]
  have hc : ¬ IsQuote 'c' := by simp [IsQuote]
  have hbody : Outside (· ≠ ']') "'a=b'=c".toList :=
    hkey (t := ['=', 'c']) (.plain (by decide) hequals (.plain (by decide) hc .nil))
  have hvalue : Denotes "c".toList (.string "c".toList) :=
    .raw (fun c h => by cases h; exact ⟨rfl, hc⟩) (by decide) (by decide) (by decide)
  have hdivides : Divides FirstOutside "'a=b'=c".toList "'a=b'".toList (.string "c".toList) :=
    .intro (show "'a=b'=c".toList = "'a=b'".toList ++ '=' :: "c".toList from rfl) (hkey .nil)
      (by decide) (by decide) hvalue
  exact ⟨⟨_, _, .cons (.filter rfl hbody) .nil, .cons (.filter hdivides) .nil, rfl⟩,
    by decide +kernel⟩

end Selector

end YamlEdit
