import YamlEdit.Proofs.ValueMargins

/-!
# Tokens of values

Outside of brackets the scanner of values keeps the columns of the collections that are open. Behind
a margin it closes those that are deeper than what comes next (`Scan.exists_fetch`), and what comes
next is a scalar, a dash, or a key with its `:`.

A round of scanning hands out tokens before it fetches the next one. That makes no difference to the
tokens in the end, and `Goes.of_fetch` follows the scanner from one fetched token to the next.
-/

namespace YamlEdit.Value.Source

/-! ## Columns that are open -/

/-- The innermost column; outside of all there is none. -/
def indentOf : List Nat → Int
  | [] => -1
  | c :: _ => c

/-- The columns as the scanner keeps them. -/
def outerOf : List Nat → List Int
  | [] => []
  | _ :: columns => indentOf columns :: outerOf columns

/-- Whether a column is further right than another one. -/
def isBeyond (column : Int) (c : Nat) : Bool := column < c

theorem length_outerOf (columns : List Nat) : (outerOf columns).length = columns.length := by
  induction columns with
  | nil => rfl
  | cons c columns ih => exact congrArg (· + 1) ih

/-- How a collection at a column is entered: its column is deeper than those of `base`, or it is
there already, below `count` deeper ones. -/
inductive Enters : (inside : Bool) → (column : Nat) → (base columns : List Nat) → (count : Nat) →
    Prop where
  | opens {column : Nat} {base : List Nat} (hbase : indentOf base < column) :
      Enters false column base base 0
  | goesOn {column : Nat} {base up : List Nat} (hup : ∀ c ∈ up, column < c) :
      Enters true column base (up ++ column :: base) up.length

/-- The columns at the start of an entry. -/
def entered (inside : Bool) (column : Nat) (base : List Nat) : List Nat :=
  if inside then column :: base else base

namespace Enters

variable {inside : Bool} {column count : Nat} {base columns : List Nat}

theorem takeWhile_eq (h : Enters inside column base columns count) :
    (columns.takeWhile (isBeyond column)).length = count := by
  cases h with
  | opens hbase =>
      cases base with
      | nil => rfl
      | cons c base =>
          have hc : ¬ column < c := by
            rw [indentOf] at hbase
            omega
          simp [isBeyond, hc]
  | goesOn hup =>
      rw [YamlEdit.Scan.takeWhile_append_stop (by simpa [isBeyond] using hup)
        (by simp [isBeyond])]

theorem dropWhile_eq (h : Enters inside column base columns count) :
    (columns.dropWhile (isBeyond column)) = entered inside column base := by
  cases h with
  | opens hbase =>
      cases base with
      | nil => rfl
      | cons c base =>
          have hc : ¬ column < c := by
            rw [indentOf] at hbase
            omega
          simp [isBeyond, hc, entered]
  | goesOn hup =>
      rw [List.dropWhile_append_of_pos (by simpa [isBeyond] using hup)]
      simp [isBeyond, entered]

theorem indent_le (h : Enters inside column base columns count) :
    indentOf (entered inside column base) ≤ column := by
  cases h with
  | opens hbase => exact Int.le_of_lt hbase
  | goesOn _ => exact Int.le_refl _

theorem length_le (h : Enters inside column base columns count) :
    (entered inside column base).length + count ≤ columns.length := by
  cases h with
  | opens _ => exact Nat.le_refl _
  | @goesOn _ _ up _ =>
      rw [entered, if_pos rfl, List.length_append, List.length_cons]
      omega

end Enters

namespace Scanner

/-- The scanner outside of brackets, with the columns that are open. -/
structure IsOutside (columns : List Nat) (s : Scanner) : Prop where
  flow : s.flowLevel = 0
  indent : s.indent = indentOf columns
  outer : s.outer = outerOf columns
  illegal : s.illegal = none

/-- Steps that leave the columns alone stay outside of brackets. -/
theorem IsOutside.of_eq {columns : List Nat} {s s' : Scanner} (h : s.IsOutside columns)
    (hflow : s'.flowLevel = s.flowLevel) (hindent : s'.indent = s.indent)
    (houter : s'.outer = s.outer) (hillegal : s'.illegal = s.illegal) : s'.IsOutside columns :=
  ⟨hflow.trans h.flow, hindent.trans h.indent, houter.trans h.outer, hillegal.trans h.illegal⟩

/-- The scanner with the columns beyond `column` closed. -/
def closed (column : Int) (columns : List Nat) (s : Scanner) : Scanner :=
  let left := columns.dropWhile (isBeyond column)
  { s with
    indent := indentOf left
    outer := outerOf left
    queue := s.queue ++ List.replicate (columns.takeWhile (isBeyond column)).length
      ⟨Span.empty s.mark, .blockEnd⟩ }

/-- The scanner with its pending key, which may be given up. -/
def aged (key : PendingKey) (s : Scanner) : Scanner :=
  { s with keys := [if Scan.isStale s key then { key with possible := false } else key] }

/-- The scanner that has come over a margin, with its pending key and the columns that are still
open there. -/
def arrived (g v : Text) (key : PendingKey) (columns : List Nat) (s : Scanner) : Scanner :=
  ((s.reach g v).aged key).closed (s.reach g v).mark.column columns

end Scanner

/-- What is not deeper than a column stays open there. -/
theorem Scanner.closed_eq {column : Int} {columns : List Nat} {s : Scanner}
    (hs : s.IsOutside columns) (h : indentOf columns ≤ column) : s.closed column columns = s := by
  have hstay : columns.takeWhile (isBeyond column) = [] ∧
      columns.dropWhile (isBeyond column) = columns := by
    cases columns with
    | nil => exact ⟨rfl, rfl⟩
    | cons c columns =>
        have hc : isBeyond column c = false := by simpa [isBeyond, indentOf] using h
        simp [hc]
  rw [closed, hstay.1, hstay.2, ← hs.indent, ← hs.outer]
  simp

namespace Scan

variable {s : Scanner} {g v : Text} {key : PendingKey} {columns : List Nat}

theorem unrollIndent_outside (hs : s.IsOutside columns) (column : Int) :
    unrollIndent column s = .ok ((), s.closed column columns) := by
  have hclose : ∀ {columns : List Nat} {s : Scanner}, s.indent = indentOf columns →
      s.outer = outerOf columns →
        unrollIndent.closeBeyond column (outerOf columns) s = s.closed column columns := by
    intro columns
    induction columns with
    | nil =>
        intro s hindent houter
        rw [outerOf, unrollIndent.closeBeyond]
        simp [Scanner.closed, ← hindent, ← houter]
    | cons c columns ih =>
        intro s hindent houter
        rw [outerOf, unrollIndent.closeBeyond, hindent, indentOf]
        by_cases hc : column < c
        · rw [if_pos hc, ih rfl rfl]
          simp [Scanner.closed, isBeyond, hc, List.replicate_succ]
        · rw [if_neg hc]
          simp [Scanner.closed, isBeyond, hc, ← houter, ← hindent]
  have hflow : ¬ s.flowLevel > 0 := by
    rw [hs.flow]
    decide
  refine congrArg (fun s => Except.ok ((), s)) ((if_neg hflow).trans ?_)
  rw [hs.outer]
  exact hclose hs.indent hs.outer

theorem dropStaleKeys_one (hkeys : s.keys = [key])
    (hkey : isStale s key = true → key.required = false) :
    dropStaleKeys s = .ok ((), s.aged key) := by
  have hfind : (s.keys.reverse.find? fun key => isStale s key && key.required) = none := by
    rw [hkeys, List.reverse_singleton, List.find?_singleton, if_neg]
    intro h
    rw [Bool.and_eq_true] at h
    rw [hkey h.1] at h
    exact Bool.false_ne_true h.2
  unfold dropStaleKeys
  rw [get_bind, hfind]
  show Except.ok ((), { s with keys := s.keys.map _ }) = _
  rw [hkeys]
  rfl

/-! ## One token more -/

section Fetch

variable (hg : Token.Margin g) (hlegible : (g ++ v).IsLegible)
  (hblank : Token.isSpaceOrBreak (v.headD '\x00') = false) (hhash : v.headD '\x00' ≠ '#')
  (hs : s.IsOutside columns) (hkeys : s.keys = [key])
  (hkey : isStale (s.reach g v) key = true → key.required = false) (hrest : s.rest = g ++ v)
  (hbound : (g ++ v).length < s.bound)

include hg hlegible hblank hhash hs hkeys hkey hrest hbound

theorem arrive_bind {β : Type} (f : Unit → Scan β) : (skipToToken s.bound >>= fun _ =>
    dropStaleKeys >>= fun _ => mark >>= fun m => unrollIndent m.column >>= f) s =
      f () (s.arrived g v key columns) := by
  have hskip := skipToToken_margin hg hlegible hblank hhash hs.flow hrest
    (show g.length < s.bound by rw [List.length_append] at hbound; omega)
  have hdrop := dropStaleKeys_one (s := s.reach g v) hkeys hkey
  have hunroll := unrollIndent_outside (s := (s.reach g v).aged key)
    ⟨hs.flow, hs.indent, hs.outer, hs.illegal⟩ (s.reach g v).mark.column
  rw [bind_of_ok hskip, bind_of_ok hdrop, mark_bind]
  exact bind_of_ok hunroll f

/-- A token is taken behind a margin. -/
theorem fetch_outside (hend : v.headD '\x00' ≠ '\x00') (hdirective : v.headD '\x00' ≠ '%')
    (hdash : YamlEdit.Scan.isDocumentMarker '-' v = false)
    (hdot : YamlEdit.Scan.isDocumentMarker '.' v = false) :
    fetch s = fetchByStart (v.headD '\x00') (v.getD 1 '\x00') (s.arrived g v key columns) := by
  have hlegible' := (Text.IsLegible.append_iff.mp hlegible).2
  have hmarker : ∀ c column, YamlEdit.Scan.isDocumentMarker c v = false →
      (column == 0 && v.take 3 == [c, c, c] && isGap (v.getD 3 '\x00')) = false := by
    intro c column hc
    rw [Bool.and_assoc, isGap_eq (hlegible'.getD 3)]
    exact Bool.and_eq_false_imp.mpr fun _ => hc
  unfold fetch
  rw [fuel_bind, arrive_bind hg hlegible hblank hhash hs hkeys hkey hrest hbound, peek_bind]
  refine Eq.trans (congrFun (if_neg hend) _) ?_
  rw [mark_bind]
  refine Eq.trans (congrFun (if_neg fun h => hdirective h.2) _) ?_
  rw [atDocumentMarker_bind]
  refine Eq.trans (congrFun (if_neg (ne_true_of_eq_false (hmarker '-' _ hdash))) _) ?_
  rw [atDocumentMarker_bind]
  refine Eq.trans (congrFun (if_neg (ne_true_of_eq_false (hmarker '.' _ hdot))) _) ?_
  rw [peekAt_bind]
  rfl

/-- The end of the text closes what is open. -/
theorem fetch_end (hv : v = []) : fetch s = fetchStreamEnd (s.arrived g v key columns) := by
  unfold fetch
  rw [fuel_bind, arrive_bind hg hlegible hblank hhash hs hkeys hkey hrest hbound, peek_bind]
  subst hv
  exact congrFun (if_pos rfl) _

end Fetch

/-! ## What a token starts with -/

/-- A plain line is taken for a scalar. -/
theorem fetchByStart_line {w x : Text} (hw : Token.PlainLine w) (hlegible : (w ++ x).IsLegible)
    (hflow : s.flowLevel = 0) :
    fetchByStart ((w ++ x).headD '\x00') ((w ++ x).getD 1 '\x00') s =
      fetchKeyStart scanPlain s := by
  obtain ⟨hreserved, hfree, hliteral, hfolded⟩ := hw.starts_append x
  obtain ⟨hgap, hhash⟩ := hw.headD_append x
  rw [← isGap_eq (hlegible.getD 1)] at hfree
  have hgap' := (isGap_eq hlegible.headD).trans hgap
  generalize (w ++ x).headD '\x00' = c at *
  generalize (w ++ x).getD 1 '\x00' = next at *
  simp only [Token.isReserved, Token.isFlow, Bool.or_eq_false_iff, beq_eq_false_iff_ne] at hreserved
  obtain ⟨⟨⟨⟨⟨⟨⟨⟨⟨⟨⟨⟨hcomma, hopen⟩, hclose⟩, hbrace⟩, hunbrace⟩, hstar⟩, hamp⟩, hbang⟩, hsingle⟩,
    hdouble⟩, hpercent⟩, hat⟩, hgrave⟩ := hreserved
  have hdash : ¬ (c = '-' ∧ isGap next = true) := by
    rintro ⟨rfl, h⟩
    exact Bool.false_ne_true ((hfree rfl).symm.trans h)
  have hquery : ¬ (c = '?' ∧ isGap next = true) := by
    rintro ⟨rfl, h⟩
    exact Bool.false_ne_true ((hfree rfl).symm.trans h)
  have hcolon : ¬ (c = ':' ∧ isGap next = true) := by
    rintro ⟨rfl, h⟩
    exact Bool.false_ne_true ((hfree rfl).symm.trans h)
  have hstarts : startsPlain false c next = true := by
    cases hindicator : Extent.isIndicator c with
    | true =>
        have hnext := hfree hindicator
        simp only [Extent.isIndicator, Bool.or_eq_true, beq_iff_eq] at hindicator
        have hblank : isBlank next = false := by
          rw [isGap, Bool.or_eq_false_iff] at hnext
          exact hnext.1
        rcases hindicator with (rfl | rfl) | rfl <;> simp [startsPlain, hnext, hblank]
    | false =>
        simp only [Extent.isIndicator, Bool.or_eq_false_iff, beq_eq_false_iff_ne] at hindicator
        simp [startsPlain, *]
  unfold fetchByStart
  rw [get_bind]
  simp only [hopen, hbrace, hclose, hunbrace, hcomma, hdash, hstar, hamp, hbang, hliteral, hfolded,
    hsingle, hdouble, if_false, false_and, hflow]
  simp [hstarts, hquery, hcolon]

theorem fetchByStart_dash {next : Char} (hnext : isGap next = true) :
    fetchByStart '-' next s = fetchBlockEntry s := by
  unfold fetchByStart
  rw [get_bind]
  simp [hnext]

theorem fetchByStart_colon {next : Char} (hnext : isGap next = true) :
    fetchByStart ':' next s = fetchValue s := by
  unfold fetchByStart
  rw [get_bind]
  simp [hnext]

end Scan

/-! ## Rounds -/

namespace Scanner

/-- More than the rounds that are still to come: a character leads to at most nine of them. -/
def need (s : Scanner) : Nat := 9 * s.rest.length + s.queue.length + s.outer.length + 2

/-- What the tokens so far are: those handed out and those that wait. -/
structure Hands (s : Scanner) (handed : List (Located Token)) (all : List Token) : Prop where
  items : (handed.reverse ++ s.queue).map (·.item) = all
  taken : s.taken = handed.length

/-- What still holds when keys get too old and when a token is handed out. -/
structure Lasts (P : Scanner → Prop) : Prop where
  ages : ∀ {s}, P s → ∃ s', Scan.dropStaleKeys s = .ok ((), s') ∧ P s' ∧ s'.queue = s.queue ∧
    s'.taken = s.taken ∧ s'.need = s.need
  handsOut : ∀ {s t queue}, P s → s.queue = t :: queue →
    (s.keys.any fun key => key.possible && key.token == s.taken) = false →
    P { s with queue := queue, taken := s.taken + 1 }
  illegal : ∀ {s}, P s → s.illegal = none

end Scanner

/-- The tokens of a text, from any state that satisfies `P`, with the given ones so far. -/
def Goes (P : Scanner → Prop) (all out : List Token) : Prop :=
  .streamEnd ∉ all → ∀ {s : Scanner} {fuel : Nat} {handed : List (Located Token)}, P s →
    s.Hands handed all → s.need ≤ fuel →
      ∃ tokens, scanFrom fuel s handed = ⟨tokens, none⟩ ∧ tokens.map (·.item) = out

theorem scanFrom_of_fetch {s s' s₁ : Scanner} {fuel : Nat} {handed : List (Located Token)}
    (hmust : Scan.mustFetch.run s = .ok (true, s₁)) (hfetch : Scan.fetch s₁ = .ok ((), s'))
    (hillegal : s'.illegal = none) : scanFrom (fuel + 1) s handed = scanFrom fuel s' handed := by
  have hfetch : Scan.fetch.run s₁ = .ok ((), s') := hfetch
  have hlegal : s'.atIllegal? = none := by
    simp [Scanner.atIllegal?, hillegal]
  rw [scanFrom, hmust]
  dsimp only
  rw [hfetch]
  dsimp only
  rw [hlegal]

/-- **A round.** Tokens that cannot start a key any more are handed out before the next one is
fetched. -/
theorem Goes.of_round {P : Scanner → Prop} {all out : List Token} (hP : Scanner.Lasts P)
    (h : ∀ {s handed fuel}, .streamEnd ∉ all → P s → s.Hands handed all → s.need ≤ fuel + 1 →
      ∃ s' tokens, Scan.fetch s = .ok ((), s') ∧ s'.illegal = none ∧
        scanFrom fuel s' handed = ⟨tokens, none⟩ ∧ tokens.map (·.item) = out) :
    Goes P all out := by
  intro hall s fuel handed hs hhands hfuel
  have hpos : 0 < fuel := by
    unfold Scanner.need at hfuel
    omega
  -- the induction is on the tokens that wait
  induction hqueue : s.queue generalizing s fuel handed with
  | nil =>
      obtain ⟨fuel, rfl⟩ := Nat.exists_eq_add_one.mpr hpos
      obtain ⟨s', tokens, hrun, hillegal, hout, hitems⟩ := h hall hs hhands hfuel
      have hmust : Scan.mustFetch.run s = .ok (true, s) := by
        show (Scan.mustFetch s : Except _ _) = _
        unfold Scan.mustFetch
        rw [Scan.get_bind, if_pos (by rw [hqueue]; rfl)]
        rfl
      exact ⟨tokens, (scanFrom_of_fetch hmust hrun hillegal).trans hout, hitems⟩
  | cons t queue ih =>
      obtain ⟨fuel, rfl⟩ := Nat.exists_eq_add_one.mpr hpos
      obtain ⟨s₁, hdrop, hs₁, hqueue₁, htaken₁, hneed₁⟩ := hP.ages hs
      have hhands₁ : s₁.Hands handed all := ⟨by rw [hqueue₁]; exact hhands.items,
        htaken₁.trans hhands.taken⟩
      have hmust : Scan.mustFetch.run s =
          .ok (s₁.keys.any fun key => key.possible && key.token == s₁.taken, s₁) := by
        show (Scan.mustFetch s : Except _ _) = _
        unfold Scan.mustFetch
        rw [Scan.get_bind, if_neg (by simp [hqueue]), Scan.bind_of_ok hdrop]
        rfl
      cases hwaits : s₁.keys.any fun key => key.possible && key.token == s₁.taken with
      | true =>
          obtain ⟨s', tokens, hrun, hillegal, hout, hitems⟩ :=
            h hall hs₁ hhands₁ (hneed₁.trans_le hfuel)
          rw [hwaits] at hmust
          exact ⟨tokens, (scanFrom_of_fetch hmust hrun hillegal).trans hout, hitems⟩
      | false =>
          have ht : t.item ≠ .streamEnd := by
            intro ht
            refine hall ?_
            rw [← hhands.items, hqueue, List.mem_map]
            exact ⟨t, by simp, ht⟩
          have hnext := hP.handsOut hs₁ (hqueue₁.trans hqueue) hwaits
          have hless : { s₁ with queue, taken := s₁.taken + 1 }.need ≤ fuel := by
            have : s₁.queue.length = queue.length + 1 := by rw [hqueue₁, hqueue]; rfl
            unfold Scanner.need at hneed₁ hfuel ⊢
            simp only
            omega
          rw [scanFrom, hmust, hwaits]
          simp only [hqueue₁.trans hqueue, if_neg ht]
          refine ih hnext ⟨?_, ?_⟩ hless ?_ rfl
          · rw [← hhands.items, hqueue]
            simp
          · simp [hhands₁.taken]
          · unfold Scanner.need at hless
            omega

/-- Some tokens more. -/
theorem Goes.of_fetch {P Q : Scanner → Prop} {all new out : List Token}
    (hP : Scanner.Lasts P) (hQ : Scanner.Lasts Q)
    (hfetch : ∀ {s handed}, P s → s.Hands handed all →
      ∃ s', Scan.fetch s = .ok ((), s') ∧ Q s' ∧ s'.Hands handed new ∧ s'.need < s.need)
    (hnew : .streamEnd ∉ all → .streamEnd ∉ new) (h : Goes Q new out) : Goes P all out := by
  refine .of_round hP fun hall hs hhands hfuel => ?_
  obtain ⟨s', hrun, hs', hhands', hneed⟩ := hfetch hs hhands
  obtain ⟨tokens, hout, hitems⟩ := h (hnew hall) hs' hhands'
    (Nat.le_of_lt_succ (hneed.trans_le hfuel))
  exact ⟨s', tokens, hrun, hQ.illegal hs', hout, hitems⟩

/-! ## The scanner between tokens -/

namespace Scanner

/-- The scanner has come to a margin in front of `v`, which stands at a column. The key that is
pending, if any, is on an earlier line. The flag says whether a key may start at the column. -/
inductive Stands (v : Text) (column : Nat) (fresh : Bool) (columns : List Nat) :
    Scanner → Prop where
  | mk {s : Scanner} {g : Text} {key : PendingKey} (hg : Token.Margin g) (hrest : s.rest = g ++ v)
      (hcolumn : (s.mark.acrossBytes g).column = column)
      (hfresh : (s.keyAllowed || g.contains '\n') = fresh) (hkeys : s.keys = [key])
      (hkey : key.possible = true →
        key.required = false ∧ (v = [] ∨ key.mark.line < (s.mark.acrossBytes g).line) ∧
          s.taken ≤ key.token)
      (hlegible : (g ++ v).IsLegible) (hbound : (g ++ v).length < s.bound)
      (houtside : s.IsOutside columns) : Stands v column fresh columns s

/-- The scanner in front of a token. No key is pending. -/
structure Faces (v : Text) (column : Nat) (fresh : Bool) (columns : List Nat) (s : Scanner) :
    Prop where
  rest : s.rest = v
  column : s.mark.column = column
  fresh : s.keyAllowed = fresh
  keys : ∃ key, s.keys = [key] ∧ key.possible = false
  legible : v.IsLegible
  bound : v.length < s.bound
  outside : s.IsOutside columns

/-- The scanner with a token in front of token number `number`. -/
def inserted (number : Nat) (t : Located Token) (s : Scanner) : Scanner :=
  { s with queue := s.queue.take (number - s.taken) ++ t :: s.queue.drop (number - s.taken) }

theorem map_inserted {s : Scanner} {number : Nat} {waiting after : List Token} (t : Located Token)
    (hqueue : s.queue.map (·.item) = waiting ++ after)
    (hnumber : s.taken + waiting.length = number) :
    (s.inserted number t).queue.map (·.item) = waiting ++ t.item :: after := by
  have hahead : number - s.taken = waiting.length := by omega
  rw [inserted, List.map_append, List.map_cons, List.map_take, List.map_drop, hqueue, hahead,
    List.take_left, List.drop_left]

/-- The scanner that has opened a collection at a column, unless that is open. The token stands in
front of token number `number`, or behind those that wait. -/
def opened (inside : Bool) (column : Nat) (number : Option Nat) (t : Located Token) (s : Scanner) :
    Scanner :=
  if inside then s
  else
    { s with
      outer := s.indent :: s.outer
      indent := column
      queue := match number with
        | some n => (s.inserted n t).queue
        | none => s.queue ++ [t] }

theorem opened_eq (inside : Bool) (column : Nat) (number : Option Nat) (t : Located Token)
    (s : Scanner) : (s.opened inside column number t).rest = s.rest ∧
      (s.opened inside column number t).mark = s.mark ∧
      (s.opened inside column number t).keys = s.keys ∧
      (s.opened inside column number t).taken = s.taken ∧
      (s.opened inside column number t).bound = s.bound := by
  cases inside <;> exact ⟨rfl, rfl, rfl, rfl, rfl⟩

/-- The key that is pending when a token has been met that may start one. -/
def keyHere (key : PendingKey) (s : Scanner) : PendingKey :=
  if s.keyAllowed then
    ⟨true, s.flowLevel == 0 && s.indent == s.mark.column, s.taken + s.queue.length, s.mark⟩
  else key

theorem keyHere_of_possible {key : PendingKey} {s : Scanner} (hkey : key.possible = false)
    (h : (s.keyHere key).possible = true) : s.keyHere key =
      ⟨true, s.flowLevel == 0 && s.indent == s.mark.column, s.taken + s.queue.length, s.mark⟩ := by
  rw [keyHere] at h ⊢
  split
  · rfl
  · next hnot =>
      rw [if_neg hnot, hkey] at h
      cases h

/-- The scanner that remembers a key that may start here. -/
def started (key : PendingKey) (s : Scanner) : Scanner :=
  { s with
    keys := [s.keyHere key]
    keyAllowed := false }

/-- The scanner `s'` has got past a token and added some to those of `s`. -/
structure Adds (tokens : List Token) (s s' : Scanner) : Prop where
  taken : s'.taken = s.taken
  queue : s'.queue.map (·.item) = s.queue.map (·.item) ++ tokens
  outer : s'.outer.length ≤ s.outer.length + 1
  rest : s'.rest.length < s.rest.length

/-- The scanner in front of the `:` of a key that starts at a column. The key is pending as token
number `number`. -/
inductive AtColon (name v : Text) (column number : Nat) (columns : List Nat) : Scanner → Prop where
  | mk {s : Scanner} {m : Mark} {required : Bool} (hrest : s.rest = ':' :: v)
      (hcolumn : m.column = column) (hmark : s.mark = m.acrossBytes name)
      (hfresh : s.keyAllowed = false) (hkeys : s.keys = [⟨true, required, number, m⟩])
      (htaken : s.taken ≤ number) (hlegible : Text.IsLegible (':' :: v))
      (hbound : (':' :: v).length < s.bound) (houtside : s.IsOutside columns) :
      AtColon name v column number columns s

/-- Behind a key of one line that is not too long, it is still pending. -/
theorem isStale_eq_false {name : Text} {key : PendingKey} {s : Scanner}
    (hname : Token.PlainLine name) (hsize : Text.size name ≤ 1024)
    (hmark : s.mark = key.mark.acrossBytes name) : Scan.isStale s key = false := by
  rw [Mark.acrossBytes_of_not_mem (YamlEdit.Scan.not_mem_of_staysPlain hname.stays)] at hmark
  simp [Scan.isStale, hmark, hsize]

theorem aged_eq {name : Text} {key : PendingKey} {s : Scanner}
    (hname : Token.PlainLine name) (hsize : Text.size name ≤ 1024)
    (hmark : s.mark = key.mark.acrossBytes name) (hkeys : s.keys = [key]) : s.aged key = s := by
  rw [aged, isStale_eq_false hname hsize hmark, if_neg (by decide), ← hkeys]

theorem atColon_lasts {name : Text} (hname : Token.PlainLine name) (hsize : Text.size name ≤ 1024)
    (v : Text) (column number : Nat) (columns : List Nat) :
    Lasts (AtColon name v column number columns) where
  ages := by
    intro s hs
    obtain @⟨m, required, hrest, hcolumn, hmark, hfresh, hkeys, htaken, hlegible, hbound,
      houtside⟩ :=
      id hs
    refine ⟨s, ?_, hs, rfl, rfl, rfl⟩
    rw [Scan.dropStaleKeys_one hkeys (by rw [isStale_eq_false hname hsize hmark]; exact nofun),
      aged_eq hname hsize hmark hkeys]
  handsOut := by
    rintro s t queue ⟨hrest, hcolumn, hmark, hfresh, hkeys, htaken, hlegible, hbound, houtside⟩ -
      hwaits
    refine .mk hrest hcolumn hmark hfresh hkeys (Nat.lt_of_le_of_ne htaken fun heq => ?_) hlegible
      hbound (houtside.of_eq rfl rfl rfl rfl)
    rw [hkeys] at hwaits
    simp [heq] at hwaits
  illegal := by
    rintro s ⟨_, _, _, _, _, _, _, _, houtside⟩
    exact houtside.illegal

theorem stands_lasts (v : Text) (column : Nat) (fresh : Bool) (columns : List Nat) :
    Lasts (Stands v column fresh columns) where
  ages := by
    rintro s @⟨g, key, hg, hrest, hcolumn, hfresh, hkeys, hkey, hlegible, hbound, houtside⟩
    refine ⟨_, Scan.dropStaleKeys_one hkeys fun h => ?_, ?_, rfl, rfl, rfl⟩
    · rw [Scan.isStale, Bool.and_eq_true] at h
      exact (hkey h.1).1
    · refine .mk hg hrest hcolumn hfresh rfl (fun h => ?_) hlegible hbound
        (houtside.of_eq rfl rfl rfl rfl)
      split at h
      · cases h
      · next hstale =>
          rw [if_neg hstale]
          exact hkey h
  handsOut := by
    rintro s t queue @⟨g, key, hg, hrest, hcolumn, hfresh, hkeys, hkey, hlegible,
      hbound, houtside⟩ -
      hwaits
    refine .mk hg hrest hcolumn hfresh hkeys (fun h => ?_) hlegible hbound
      (houtside.of_eq rfl rfl rfl rfl)
    obtain ⟨hrequired, hline, htaken⟩ := hkey h
    refine ⟨hrequired, hline, Nat.lt_of_le_of_ne htaken fun heq => ?_⟩
    rw [hkeys] at hwaits
    simp [h, heq] at hwaits
  illegal := by
    rintro s ⟨_, _, _, _, _, _, _, _, houtside⟩
    exact houtside.illegal

end Scanner

/-- A token is taken behind a margin; what is deeper is closed. -/
theorem Scan.exists_fetch {s : Scanner} {v : Text} {inside fresh : Bool} {column count : Nat}
    {base columns : List Nat} (hs : s.Stands v column fresh columns)
    (henters : Enters inside column base columns count)
    (hstart : Token.isSpaceOrEnd (v.headD '\x00') = false ∧ v.headD '\x00' ≠ '#')
    (hmark : v.headD '\x00' ≠ '%' ∧ YamlEdit.Scan.isDocumentMarker '-' v = false ∧
      YamlEdit.Scan.isDocumentMarker '.' v = false) :
    ∃ t, fetch s = fetchByStart (v.headD '\x00') (v.getD 1 '\x00') t ∧
      t.Faces v column fresh (entered inside column base) ∧ t.taken = s.taken ∧
      t.queue.map (·.item) = s.queue.map (·.item) ++ List.replicate count .blockEnd ∧
      t.outer.length + count ≤ s.outer.length ∧ t.rest.length ≤ s.rest.length := by
  obtain @⟨g, key, hg, hrest, rfl, hfresh, hkeys, hkey, hlegible, hbound, houtside⟩ := hs
  have hstale : isStale (s.reach g v) key = true → key.required = false := by
    intro h
    rw [isStale, Bool.and_eq_true] at h
    exact (hkey h.1).1
  have hend : v.headD '\x00' ≠ '\x00' := by
    intro h
    rw [h] at hstart
    cases hstart.1
  have hfetch := fetch_outside hg hlegible (Token.not_isSpaceOrBreak_of hstart.1) hstart.2 houtside
    hkeys hstale hrest hbound hend hmark.1 hmark.2.1 hmark.2.2
  have hcolumns : columns.dropWhile (isBeyond ((s.reach g v).mark.column : Int)) =
      entered inside (s.mark.acrossBytes g).column base := henters.dropWhile_eq
  refine ⟨_, hfetch, ⟨rfl, rfl, hfresh, ⟨_, rfl, ?_⟩, (Text.IsLegible.append_iff.mp hlegible).2, ?_,
    ⟨houtside.flow, ?_, ?_, houtside.illegal⟩⟩, rfl, ?_, ?_, ?_⟩
  · split
    · rfl
    · next hstale =>
        by_contra hpossible
        refine hstale ?_
        have hpossible : key.possible = true := by simpa using hpossible
        have hline := (hkey hpossible).2.1.resolve_left fun h => hend (h ▸ rfl)
        simp [isStale, hpossible, Scanner.reach, Scanner.ahead, hline]
  · rw [List.length_append] at hbound
    show v.length < s.bound
    omega
  · exact congrArg indentOf hcolumns
  · exact congrArg outerOf hcolumns
  · show (s.queue ++ List.replicate _ _).map _ = _
    have htake : (columns.takeWhile (isBeyond ((s.reach g v).mark.column : Int))).length = count :=
      henters.takeWhile_eq
    rw [htake]
    simp
  · show (outerOf _).length + count ≤ s.outer.length
    rw [hcolumns, houtside.outer, length_outerOf, length_outerOf]
    exact henters.length_le
  · rw [hrest, List.length_append]
    exact Nat.le_add_left _ _

namespace Scan

variable {s : Scanner} {w name gap b v x : Text} {column : Nat} {fresh inside : Bool}
  {base : List Nat}

theorem dropPendingKey_eq {key : PendingKey} (hkeys : s.keys = [key])
    (hkey : (key.possible && key.required) = false) :
    dropPendingKey s = .ok ((), { s with keys := [{ key with possible := false }] }) := by
  unfold dropPendingKey
  rw [get_bind, hkeys]
  dsimp only
  rw [if_neg (ne_true_of_eq_false hkey)]
  rfl

theorem savePendingKey_eq {key : PendingKey} (hkeys : s.keys = [key])
    (hkey : key.possible = false) :
    savePendingKey s = .ok ((), { s with keys := [s.keyHere key] }) := by
  unfold savePendingKey
  rw [get_bind]
  by_cases hallowed : s.keyAllowed = true
  · rw [if_pos hallowed]
    refine (bind_of_ok (dropPendingKey_eq hkeys (by rw [hkey]; rfl)) _).trans ?_
    rw [Scanner.keyHere, if_pos hallowed]
    rfl
  · rw [if_neg hallowed, Scanner.keyHere, if_neg hallowed, ← hkeys]
    rfl

theorem fetchKeyStart_eq {s' : Scanner} {scan : Scan (Located Token)} {key : PendingKey}
    {token : Located Token} (hkeys : s.keys = [key]) (hkey : key.possible = false)
    (hscan : scan (s.started key) = .ok (token, s')) :
    fetchKeyStart scan s = .ok ((), { s' with queue := s'.queue ++ [token] }) := by
  unfold fetchKeyStart
  rw [bind_of_ok (savePendingKey_eq hkeys hkey)]
  show (scan >>= fun token => pushToken token) (s.started key) = _
  rw [bind_of_ok hscan]
  rfl

/-- A column is entered. -/
theorem rollIndent_outside {count : Nat} {columns : List Nat} (token : Token) (mark : Mark)
    (number : Option Nat) (henters : Enters inside column base columns count)
    (hs : s.IsOutside (entered inside column base)) :
    rollIndent column number token mark s =
      .ok ((), s.opened inside column number ⟨Span.empty mark, token⟩) ∧
      (s.opened inside column number ⟨Span.empty mark, token⟩).IsOutside (column :: base) := by
  cases henters with
  | opens hbase =>
      have hindent : s.indent < column := by
        rw [hs.indent]
        exact hbase
      refine ⟨?_, ⟨hs.flow, rfl, ?_, hs.illegal⟩⟩
      · unfold rollIndent
        rw [get_bind, if_pos ⟨hs.flow, hindent⟩]
        cases number <;> rfl
      · show s.indent :: s.outer = _
        rw [hs.indent, hs.outer]
        rfl
  | goesOn _ =>
      have hindent : ¬ s.indent < column := by
        rw [hs.indent]
        exact Int.lt_irrefl _
      refine ⟨?_, hs⟩
      unfold rollIndent
      rw [get_bind, if_neg fun h => hindent h.2]
      rfl

theorem fetchMarker_one {c : Char} (token : Token) (hrest : s.rest = c :: x) (hc : c ≠ '\n') :
    fetchMarker 1 token s = .ok ((), { s.ahead [c] x with
      queue := s.queue ++ [⟨⟨s.mark, (s.ahead [c] x).mark⟩, token⟩] }) := by
  unfold fetchMarker
  rw [mark_bind]
  exact bind_of_ok (skip_eq (a := [c]) hrest (by simpa using hc.symm)) _

/-- The dash of an item. -/
theorem exists_dash {count : Nat} {columns : List Nat}
    (hs : s.Faces ('-' :: (gap ++ v)) column true (entered inside column base))
    (hgap : Token.Margin gap) (henters : Enters inside column base columns count) :
    ∃ s', fetchBlockEntry s = .ok ((), s') ∧
      s'.Stands v (Text.columnBehind column ('-' :: gap)) true (column :: base) ∧
      s.Adds ((if inside then [] else [.blockSequenceStart]) ++ [.blockEntry]) s' := by
  obtain ⟨hrest, rfl, hfresh, ⟨key, hkeys, hkey⟩, hlegible, hbound, houtside⟩ := hs
  obtain ⟨hroll, houtside'⟩ := rollIndent_outside .blockSequenceStart s.mark none henters houtside
  have hqueue : (s.opened inside s.mark.column none
      ⟨Span.empty s.mark, .blockSequenceStart⟩).queue.map (·.item) = s.queue.map (·.item) ++
        if inside then [] else [.blockSequenceStart] := by
    rw [Scanner.opened]
    cases inside <;> simp
  obtain ⟨hrest', hmark, hkeys', htaken, hbound'⟩ := s.opened_eq inside s.mark.column none
    ⟨Span.empty s.mark, .blockSequenceStart⟩
  generalize s.opened inside s.mark.column none ⟨Span.empty s.mark, .blockSequenceStart⟩ = t at *
  have hopen : openBlock .blockSequenceStart .entryNotAllowed s = .ok ((), t) := by
    unfold openBlock
    rw [get_bind, if_pos houtside.flow, hfresh, if_neg (by decide)]
    exact hroll
  have hdrop := dropPendingKey_eq (s := t) (hkeys'.trans hkeys) (by rw [hkey]; rfl)
  have hrun : fetchBlockEntry s = fetchMarker 1 .blockEntry
      { t with keys := [{ key with possible := false }], keyAllowed := true } := by
    unfold fetchBlockEntry
    rw [bind_of_ok hopen, bind_of_ok hdrop, setKeyAllowed_bind]
  have hmarker := fetchMarker_one (x := gap ++ v)
    (s := { t with keys := [{ key with possible := false }], keyAllowed := true }) .blockEntry
    (hrest'.trans hrest) (by decide)
  refine ⟨_, hrun.trans hmarker, ?_, htaken, ?_, ?_, ?_⟩
  · refine .mk hgap rfl ?_ (Bool.true_or _) rfl (fun h => by cases h) ?_ ?_
      (houtside'.of_eq rfl rfl rfl rfl)
    · show ((t.mark.acrossBytes ['-']).acrossBytes gap).column = _
      rw [← Mark.acrossBytes_append, hmark]
      rfl
    · exact fun c hc => hlegible c (List.mem_cons_of_mem _ hc)
    · show (gap ++ v).length < t.bound
      rw [hbound']
      exact Nat.lt_of_succ_lt hbound
  · simp [hqueue]
  · show t.outer.length ≤ s.outer.length + 1
    rw [houtside'.outer, houtside.outer, length_outerOf, length_outerOf, entered]
    cases inside <;> simp
  · rw [hrest]
    exact Nat.lt_succ_self _

/-- A scalar that is no key. -/
theorem exists_word (hs : s.Faces (w ++ (b ++ v)) column fresh base) (hw : Token.PlainLine w)
    (hbase : indentOf base < column) (hb : Token.IsBreak b ∨ b = [] ∧ v = [])
    (hv : Token.isSpaceOrBreak (v.headD '\x00') = false)
    (hleft : v = [] ∨ (Text.columnBehind column (w ++ b) : Int) ≤ indentOf base) :
    ∃ s', fetchKeyStart scanPlain s = .ok ((), s') ∧
      s'.Stands v (Text.columnBehind column (w ++ b)) (b.contains '\n') base ∧
      s.Adds [.scalar .plain w] s' := by
  obtain ⟨hrest, hcolumn, -, ⟨key, hkeys, hkey⟩, hlegible, hbound, houtside⟩ := hs
  have hindent : s.indent ≤ s.mark.column := by
    rw [houtside.indent, hcolumn]
    exact Int.le_of_lt hbase
  -- nothing at this column has to be a key
  have hpending : (s.keyHere key).possible = true → (s.keyHere key).required = false ∧
      (s.keyHere key).mark = s.mark ∧ s.taken ≤ (s.keyHere key).token := by
    intro h
    rw [Scanner.keyHere_of_possible hkey h]
    have : (s.indent == (s.mark.column : Int)) = false := by
      rw [houtside.indent, hcolumn]
      exact beq_eq_false_iff_ne.mpr (Int.ne_of_lt hbase)
    exact ⟨by rw [this, Bool.and_false], rfl, Nat.le_add_right _ _⟩
  have hpos := List.length_pos_iff.mpr hw.ne_nil
  rw [← hcolumn] at hleft
  rcases hb with hb | ⟨rfl, rfl⟩
  · obtain ⟨p, q, token, rfl, hq, htoken, hscan⟩ := scanPlain_margin (s := s.started key) hw hb hv
      (by rw [houtside.indent.symm] at hleft; exact hleft) hrest hlegible houtside.flow
        hindent hbound
    refine ⟨_, fetchKeyStart_eq hkeys hkey hscan, .mk hq rfl ?_ ?_ rfl (fun h => ?_) ?_ ?_
      (houtside.of_eq rfl rfl rfl rfl), rfl, ?_, Nat.le_succ _, ?_⟩
    · show ((s.mark.acrossBytes (w ++ p)).acrossBytes q).column = _
      rw [← Mark.acrossBytes_append, List.append_assoc, ← hcolumn]
      rfl
    · show (false || p.contains '\n' || q.contains '\n') = _
      simp
    · have hline : s.mark.line < ((s.mark.acrossBytes (w ++ p)).acrossBytes q).line := by
        rw [← Mark.acrossBytes_append, List.append_assoc]
        exact Nat.lt_add_of_pos_right (List.count_pos_iff.mpr (List.mem_append_right w hb.feed))
      obtain ⟨hrequired, hmark, htaken⟩ := hpending h
      exact ⟨hrequired, .inr (hmark ▸ hline), htaken⟩
    · refine fun c hc => hlegible c ?_
      rcases List.mem_append.mp hc with hc | hc <;> simp [hc]
    · show (q ++ v).length < s.bound
      simp only [List.length_append] at hbound ⊢
      omega
    · simp [htoken, Scanner.ahead, Scanner.started]
    · rw [hrest]
      simp only [Scanner.ahead, List.length_append]
      omega
  · -- the text ends with the scalar
    obtain ⟨token, htoken, hscan⟩ := scanPlain_stop (s := s.started key) (x := []) hw rfl rfl
      ⟨by decide, by decide⟩ hrest hlegible houtside.flow hindent hbound
    refine ⟨_, fetchKeyStart_eq hkeys hkey hscan, .mk .nil rfl ?_ rfl rfl (fun h => ?_)
      (fun c hc => by cases hc) ?_ (houtside.of_eq rfl rfl rfl rfl), rfl, ?_, Nat.le_succ _, ?_⟩
    · rw [List.append_nil, ← hcolumn]
      rfl
    · obtain ⟨hrequired, -, htaken⟩ := hpending h
      exact ⟨hrequired, .inl rfl, htaken⟩
    · exact Nat.zero_lt_of_lt hbound
    · simp [htoken, Scanner.ahead, Scanner.started]
    · rw [hrest]
      simpa [Scanner.ahead] using hpos

/-- A key, in front of its `:`. -/
theorem exists_key {count : Nat} {columns : List Nat} (hname : Token.PlainLine name)
    (hs : s.Faces (name ++ ':' :: x) column true (entered inside column base))
    (henters : Enters inside column base columns count)
    (hx : Token.isSpaceOrEnd (x.headD '\x00') = true) :
    ∃ s', fetchKeyStart scanPlain s = .ok ((), s') ∧
      s'.AtColon name x column (s.taken + s.queue.length) (entered inside column base) ∧
      s.Adds [.scalar .plain name] s' := by
  obtain ⟨hrest, hcolumn, hfresh, ⟨key, hkeys, hkey⟩, hlegible, hbound, houtside⟩ := hs
  have hindent : s.indent ≤ s.mark.column := by
    rw [houtside.indent, hcolumn]
    exact henters.indent_le
  obtain ⟨token, htoken, hscan⟩ := scanPlain_stop (s := s.started key) hname rfl
    (by simpa [YamlEdit.Scan.isPlainChar] using fun _ => hx) ⟨by simp, by simp⟩ hrest hlegible
      houtside.flow hindent
    hbound
  have hkeyHere : s.keyHere key = ⟨true, s.flowLevel == 0 && s.indent == s.mark.column,
      s.taken + s.queue.length, s.mark⟩ := if_pos hfresh
  refine ⟨_, fetchKeyStart_eq hkeys hkey hscan, .mk rfl hcolumn rfl rfl (congrArg ([·]) hkeyHere)
    (Nat.le_add_right _ _) (Text.IsLegible.append_iff.mp hlegible).2 ?_
    (houtside.of_eq rfl rfl rfl rfl), rfl, ?_, Nat.le_succ _, ?_⟩
  · rw [List.length_append] at hbound
    show (':' :: x).length < s.bound
    omega
  · simp [htoken, Scanner.ahead, Scanner.started]
  · have hpos := List.length_pos_iff.mpr hname.ne_nil
    rw [hrest, List.length_append]
    exact Nat.lt_add_of_pos_left hpos

/-- The `:` of a key comes next. -/
theorem fetch_colon {count number : Nat} {columns : List Nat}
    (hs : s.AtColon name (gap ++ v) column number (entered inside column base))
    (hname : Token.PlainLine name) (hsize : Text.size name ≤ 1024)
    (hfirst : Token.isSpaceOrBreak (gap.headD '\x00') = true)
    (henters : Enters inside column base columns count) : fetch s = fetchValue s := by
  obtain @⟨m, required, hrest, rfl, hmark, -, hkeys, -, hlegible, hbound, houtside⟩ := hs
  have hnext : isGap ((':' :: (gap ++ v)).getD 1 '\x00') = true := by
    rw [isGap_eq (hlegible.getD 1), getD_one_cons]
    exact Token.isSpaceOrEnd_headD_append hfirst v
  have hstay : indentOf (entered inside m.column base) ≤ s.mark.column := by
    refine Int.le_trans henters.indent_le ?_
    rw [hmark, Mark.acrossBytes_of_not_mem (YamlEdit.Scan.not_mem_of_staysPlain hname.stays)]
    exact Int.ofNat_le.mpr (Nat.le_add_right _ _)
  have harrived : s.arrived [] (':' :: (gap ++ v)) ⟨true, required, number, m⟩
      (entered inside m.column base) = s := by
    have hreach : s.reach [] (':' :: (gap ++ v)) = s := by
      simp [Scanner.reach, Scanner.ahead, ← hrest]
    rw [Scanner.arrived, hreach, Scanner.aged_eq hname hsize hmark hkeys,
      Scanner.closed_eq houtside hstay]
  have hstale : isStale (s.reach [] (':' :: (gap ++ v))) ⟨true, required, number, m⟩ = false :=
    Scanner.isStale_eq_false hname hsize hmark
  rw [fetch_outside .nil hlegible rfl (by simp) houtside hkeys (by simp [hstale]) hrest
    hbound (by simp) (by simp) rfl rfl, harrived]
  exact fetchByStart_colon hnext

/-- The `:` of a key: the key and its mapping are put in front of the scalar. -/
theorem exists_colon {count number : Nat} {columns : List Nat} {waiting : List Token}
    {t : Token} (hs : s.AtColon name (gap ++ v) column number (entered inside column base))
    (hgap : Token.Margin gap) (henters : Enters inside column base columns count)
    (hqueue : s.queue.map (·.item) = waiting ++ [t]) (hnumber : s.taken + waiting.length = number) :
    ∃ s', fetchValue s = .ok ((), s') ∧
      s'.Stands v (Text.columnBehind column (name ++ ':' :: gap)) (gap.contains '\n')
        (column :: base) ∧ s'.taken = s.taken ∧
      s'.queue.map (·.item) = waiting ++
        ((if inside then [] else [.blockMappingStart]) ++ [.key, t, .value]) ∧
      s'.outer.length ≤ s.outer.length + 1 ∧ s'.rest.length < s.rest.length := by
  obtain @⟨m, required, hrest, rfl, hmark, -, hkeys, -, hlegible, hbound, houtside⟩ := hs
  have hinsert : insertAt number m .key s = .ok ((), s.inserted number ⟨Span.empty m, .key⟩) := rfl
  obtain ⟨hroll, houtside'⟩ := rollIndent_outside (s := s.inserted number ⟨Span.empty m, .key⟩)
    .blockMappingStart m (some number) henters (houtside.of_eq rfl rfl rfl rfl)
  have hqueue' : (Scanner.opened inside m.column (some number)
      ⟨Span.empty m, .blockMappingStart⟩
        (s.inserted number ⟨Span.empty m, .key⟩)).queue.map (·.item) =
        waiting ++ ((if inside then [] else [.blockMappingStart]) ++ [.key, t]) := by
    have hkey := Scanner.map_inserted ⟨Span.empty m, .key⟩ hqueue hnumber
    cases inside with
    | true => exact hkey
    | false => exact Scanner.map_inserted _ hkey hnumber
  obtain ⟨hrest', hmark', -, htaken', hbound'⟩ := Scanner.opened_eq inside m.column (some number)
    ⟨Span.empty m, .blockMappingStart⟩ (s.inserted number ⟨Span.empty m, .key⟩)
  generalize
    Scanner.opened inside m.column (some number) ⟨Span.empty m, .blockMappingStart⟩ _ = u at *
  have hvalue : fetchValue s = fetchMarker 1 .value
      { u with keys := [⟨false, required, number, m⟩], keyAllowed := false } := by
    unfold fetchValue
    rw [get_bind, hkeys]
    dsimp only
    rw [if_pos rfl]
    exact (bind_of_ok hinsert _).trans (bind_of_ok hroll _)
  have hmarker := fetchMarker_one (x := gap ++ v)
    (s := { u with keys := [⟨false, required, number, m⟩], keyAllowed := false }) .value
    (hrest'.trans hrest) (by decide)
  refine ⟨_, hvalue.trans hmarker, .mk hgap rfl ?_ (Bool.false_or _) rfl (fun h => by cases h) ?_ ?_
    (houtside'.of_eq rfl rfl rfl rfl), htaken', ?_, ?_, ?_⟩
  · show ((u.mark.acrossBytes [':']).acrossBytes gap).column = _
    rw [← Mark.acrossBytes_append, hmark']
    show ((s.mark.acrossBytes _).column) = _
    rw [hmark, ← Mark.acrossBytes_append]
    rfl
  · exact fun c hc => hlegible c (List.mem_cons_of_mem _ hc)
  · show (gap ++ v).length < u.bound
    rw [hbound']
    exact Nat.lt_of_succ_lt hbound
  · simp [hqueue']
  · show u.outer.length ≤ s.outer.length + 1
    rw [houtside'.outer, houtside.outer, length_outerOf, length_outerOf, entered]
    cases inside <;> simp
  · rw [hrest]
    exact Nat.lt_succ_self _

end Scan

end YamlEdit.Value.Source
