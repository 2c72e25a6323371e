import Mathlib.Data.List.Forall2
import YamlEdit.Proofs.ExtentBounds
import YamlEdit.Proofs.PlainScalars

/-!
# How quoted scalars are written

Between the quotes of a scalar its quote stands only behind a backslash, or twice in a row
(`Token.InQuotes`), so the closing quote is the first other one. The scanner reads nothing else
(`Scan.scanQuoted_reads`), and the search for the end of a quoted scalar finds the same quote
(`Extent.quotedEnd_of_inQuotes`).
-/

namespace YamlEdit

namespace Token

/-- The quote of a style. -/
def quoteMark (single : Bool) : Char := if single then '\'' else '"'

/-- What stands between two quotes. -/
inductive InQuotes : (single : Bool) → Text → Prop where
  | nil (single : Bool) : InQuotes single []
  | char {single : Bool} {c : Char} {u : Text} (hquote : c ≠ quoteMark single)
      (hescape : single = false → c ≠ '\\') (rest : InQuotes single u) : InQuotes single (c :: u)
  | pair {u : Text} (rest : InQuotes true u) : InQuotes true ('\'' :: '\'' :: u)
  | escape {c : Char} {u : Text} (rest : InQuotes false u) : InQuotes false ('\\' :: c :: u)

section InQuotes

variable {single : Bool} {u v : Text}

theorem InQuotes.append (h : InQuotes single u) (h' : InQuotes single v) :
    InQuotes single (u ++ v) := by
  induction h with
  | nil => exact h'
  | char hquote hescape _ ih => exact .char hquote hescape (ih h')
  | pair _ ih => exact .pair (ih h')
  | escape _ ih => exact .escape (ih h')

/-- Characters that neither close a quoted scalar nor escape anything. -/
theorem inQuotes_of_forall (h : ∀ c ∈ u, c ≠ quoteMark single ∧ (single = false → c ≠ '\\')) :
    InQuotes single u := by
  induction u with
  | nil => exact .nil single
  | cons c u ih =>
      obtain ⟨hquote, hescape⟩ := h c List.mem_cons_self
      exact .char hquote hescape (ih fun d hd => h d (List.mem_cons_of_mem c hd))

theorem inQuotes_of_blank (h : ∀ c ∈ u, isSpaceOrBreak c = true) : InQuotes single u := by
  refine inQuotes_of_forall fun c hc => ⟨?_, ?_⟩
  · rintro rfl
    have := h _ hc
    cases single <;> cases this
  · rintro - rfl
    cases h _ hc

/-- What is made of the elements of a list one by one. -/
theorem forall₂_of_mapM {α β : Type} {f : α → Option β} {l : List α} {l' : List β}
    (h : l.mapM f = some l') : List.Forall₂ (fun a b => f a = some b) l l' := by
  induction l generalizing l' with
  | nil =>
      cases h
      exact .nil
  | cons a l ih =>
      rw [List.mapM_cons] at h
      obtain ⟨b, hb, h⟩ := Option.bind_eq_some_iff.mp h
      obtain ⟨rest, hrest, h⟩ := Option.bind_eq_some_iff.mp h
      cases h
      exact .cons hb (ih hrest)

/-- The digits of an escape. -/
theorem inQuotes_of_digits {digits : List Nat} (h : u.mapM Text.hexValue? = some digits) :
    InQuotes false u := by
  have hquote : Text.hexValue? (quoteMark false) = none := by decide
  have hescape : Text.hexValue? '\\' = none := by decide
  have hall := forall₂_of_mapM h
  clear h
  induction hall with
  | nil => exact .nil false
  | cons hd _ ih =>
      refine .char ?_ ?_ ih
      · rintro rfl
        cases hquote.symm.trans hd
      · rintro - rfl
        cases hescape.symm.trans hd

end InQuotes

end Token

namespace Extent

open Token

variable {u rest : Text}

/-- A quote in single quotes is the closing one if no other follows. -/
theorem afterSingleQuoted_of_inQuotes (h : InQuotes true u) (hrest : rest.headD '\x00' ≠ '\'') :
    afterSingleQuoted (u ++ '\'' :: rest) = some rest := by
  generalize hsingle : true = single at h
  induction h with
  | nil =>
      cases rest with
      | nil => rfl
      | cons d rest =>
          rw [List.nil_append, afterSingleQuoted, if_pos rfl, if_neg (by exact hrest)]
  | @char _ c u hquote _ _ ih =>
      obtain ⟨d, t, hd⟩ : ∃ d t, u ++ '\'' :: rest = d :: t :=
        List.exists_cons_of_ne_nil (List.append_ne_nil_of_right_ne_nil u nofun)
      subst hsingle
      rw [List.cons_append, hd, afterSingleQuoted, if_neg (by exact hquote), ← hd]
      exact ih rfl
  | pair _ ih =>
      rw [List.cons_append, List.cons_append, afterSingleQuoted, if_pos rfl, if_pos rfl]
      exact ih rfl
  | escape => cases hsingle

/-- A quote in double quotes is the closing one if it is not escaped. -/
theorem afterDoubleQuoted_of_inQuotes (h : InQuotes false u) :
    afterDoubleQuoted (u ++ '"' :: rest) = some rest := by
  generalize hsingle : false = single at h
  induction h with
  | nil =>
      rw [List.nil_append, afterDoubleQuoted.eq_def]
      exact if_pos rfl
  | @char _ c u hquote hescape _ ih =>
      subst hsingle
      rw [List.cons_append, afterDoubleQuoted.eq_def]
      dsimp only
      rw [if_neg (by exact hquote), if_neg (hescape rfl)]
      exact ih rfl
  | pair => cases hsingle
  | escape _ ih =>
      rw [List.cons_append, List.cons_append, afterDoubleQuoted.eq_def]
      dsimp only
      rw [if_neg (by decide), if_pos rfl]
      exact ih rfl

/-- **The end of a quoted scalar is found**: right behind its closing quote. -/
theorem quotedEnd_of_inQuotes {x : Text} {single : Bool} (h : InQuotes single u)
    (hrest : single = true → rest.headD '\x00' ≠ '\'') :
    quotedEnd (x ++ (quoteMark single :: (u ++ quoteMark single :: rest))) (Text.size x) =
      .ok (some (Text.size (x ++ (quoteMark single :: (u ++ [quoteMark single]))))) := by
  have hsize : Text.size (x ++ (quoteMark single :: (u ++ quoteMark single :: rest))) -
      Text.size rest = Text.size (x ++ (quoteMark single :: (u ++ [quoteMark single]))) := by
    simp only [Text.size_append, Text.size_cons, Text.size_nil]
    omega
  unfold quotedEnd
  rw [dropBytes_append, ok_bind, ← hsize]
  cases single with
  | true =>
      show Except.ok ((afterSingleQuoted (u ++ '\'' :: rest)).map _) = _
      rw [afterSingleQuoted_of_inQuotes h (hrest rfl)]
      rfl
  | false =>
      show Except.ok ((afterDoubleQuoted (u ++ '"' :: rest)).map _) = _
      rw [afterDoubleQuoted_of_inQuotes h]
      rfl

end Extent

namespace Scan

open Token

section Reads

variable {s s' : Scanner} {start : Mark} {single : Bool}

/-- A line break is read, if there is one. -/
theorem reads_skipBreak (h : skipBreak s = .ok ((), s')) :
    ∃ w, s.Reads w s' ∧ (∀ c ∈ w, isBreak c = true) ∧
      (isBreak (s.rest.headD '\x00') = true → w ≠ []) := by
  by_cases hbreak : isBreak (s.rest.headD '\x00') = true
  · rcases break_cases hbreak with ⟨v, hrest⟩ | ⟨c, v, hrest, hc, hfeed⟩
    · cases h.symm.trans (skipBreak_lineFeed hrest)
      exact ⟨['\r', '\n'], reads_newLine hrest, List.all_eq_true.mp rfl, nofun⟩
    · cases h.symm.trans (skipBreak_line hrest hc hfeed)
      exact ⟨[c], reads_newLine (u := [c]) hrest, fun d hd => List.mem_singleton.mp hd ▸ hc, nofun⟩
  · unfold skipBreak at h
    rw [peek_bind, peekAt_bind, if_neg fun hfeed => hbreak (by rw [hfeed.1]; rfl)] at h
    dsimp only at h
    rw [peek_bind, if_neg hbreak] at h
    cases h
    exact ⟨[], .refl _, nofun, fun h => (hbreak h).elim⟩

/-- The character behind a backslash. -/
theorem rest_eq_of_peekAt {c : Char} (hc : c ≠ '\x00') (h : s.rest.headD '\x00' = c)
    (hnext : s.rest.getD 1 '\x00' ≠ '\x00') :
    ∃ v, s.rest = c :: s.rest.getD 1 '\x00' :: v := by
  have hrest := rest_eq_of_peek hc h
  cases hdrop : s.rest.drop 1 with
  | nil =>
      rw [hdrop] at hrest
      rw [hrest] at hnext
      exact absurd rfl hnext
  | cons d v =>
      rw [hdrop] at hrest
      exact ⟨v, by rw [hrest]; rfl⟩

/-- An escape takes the character behind the backslash, and its digits. -/
theorem quotedEscape_reads {c : Char} (hback : s.rest.headD '\x00' = '\\')
    (h : quotedEscape start s = .ok (c, s')) :
    ∃ u, s.Reads u s' ∧ u ≠ [] ∧ InQuotes false u := by
  unfold quotedEscape at h
  rw [peekAt_bind] at h
  have hrest := fun hnext => rest_eq_of_peekAt (by decide) hback hnext
  generalize s.rest.getD 1 '\x00' = letter at h hrest
  -- the letter is not the end of the text, which stands for no escape
  have hskips : letter ≠ '\x00' → ∀ {s₁ : Scanner}, skipContent 2 s = .ok ((), s₁) →
      s.Reads ['\\', letter] s₁ := by
    intro hne s₁ hskip
    obtain ⟨v, hrest⟩ := hrest hne
    exact (Scanner.reads_skipContent (u := ['\\', letter]) hrest hskip).1
  cases hsimple : simpleEscape? letter with
  | some d =>
      rw [hsimple] at h
      obtain ⟨_, s₁, hskip, h⟩ := stateful_bind_eq_ok.mp h
      cases h
      exact ⟨_, hskips (by rintro rfl; cases hsimple) hskip, nofun, .escape (.nil false)⟩
  | none =>
      cases hlength : escapeLength? letter with
      | none =>
          rw [hsimple, hlength] at h
          cases h
      | some count =>
          rw [hsimple, hlength] at h
          obtain ⟨_, s₁, hskip, h⟩ := stateful_bind_eq_ok.mp h
          have hreads := hskips (by rintro rfl; cases hlength) hskip
          rw [get_bind] at h
          cases hdigits : (s₁.rest.take count).mapM Text.hexValue? with
          | none =>
              rw [hdigits] at h
              cases h
          | some digits =>
              rw [hdigits] at h
              dsimp only at h
              split at h
              · cases h
              · next hcount =>
                  cases hchar : Text.charOfNat? (digits.foldl (fun n d => 16 * n + d) 0) with
                  | none =>
                      rw [hchar] at h
                      cases h
                  | some e =>
                    rw [hchar] at h
                    obtain ⟨_, s₂, hskip', h⟩ := stateful_bind_eq_ok.mp h
                    cases h
                    have hlength : (s₁.rest.take count).length = count := by
                      have := (forall₂_of_mapM hdigits).length_eq
                      rw [List.length_take] at this ⊢
                      omega
                    rw [← hlength] at hskip'
                    obtain ⟨hmore, -⟩ := Scanner.reads_skipContent
                      (List.take_append_drop count s₁.rest).symm hskip'
                    exact ⟨_, hreads.trans hmore, nofun, .escape (inQuotes_of_digits hdigits)⟩

/-- Characters of a quoted scalar have been read up to white space or the closing quote, or with an
escaped line break at their end. -/
structure ReadsQuoted (single : Bool) (s : Scanner) (u : Text) (escaped : Bool) (s' : Scanner) :
    Prop where
  reads : s.Reads u s'
  quotes : InQuotes single u
  broken : escaped = true → single = false ∧ u ≠ []
  stops : escaped = false → isSpaceOrEnd (s'.rest.headD '\x00') = true ∨
    s'.rest.headD '\x00' = quoteMark single ∧ (single = true → s'.rest.getD 1 '\x00' ≠ '\'')

/-- More characters in front of those. -/
theorem ReadsQuoted.cons {s₁ : Scanner} {w u : Text} {escaped : Bool}
    (h : ReadsQuoted single s₁ u escaped s') (hreads : s.Reads w s₁) (hne : w ≠ [])
    (hw : InQuotes single w) : ReadsQuoted single s (w ++ u) escaped s' where
  reads := hreads.trans h.reads
  quotes := hw.append h.quotes
  broken hescaped := ⟨(h.broken hescaped).1, List.append_ne_nil_of_left_ne_nil hne u⟩
  stops := h.stops

/-- An escaped line break is read. -/
theorem readsQuoted_break {s₁ : Scanner} (hback : s.rest.headD '\x00' = '\\')
    (hbreak : isBreak (s.rest.getD 1 '\x00') = true) (hskip : skipContent 1 s = .ok ((), s₁))
    (hskip' : skipBreak s₁ = .ok ((), s')) : ∃ u, ReadsQuoted false s u true s' := by
  obtain ⟨hreads, -⟩ := Scanner.reads_skipContent (u := ['\\'])
    (rest_eq_of_peek (by decide) hback) hskip
  have hnext : s₁.rest.headD '\x00' = s.rest.getD 1 '\x00' := by
    rw [hreads.rest]
    cases s₁.rest <;> rfl
  obtain ⟨w, hw, hall, hne⟩ := reads_skipBreak hskip'
  obtain ⟨c, w, rfl⟩ := List.exists_cons_of_ne_nil (hne (by rwa [hnext]))
  refine ⟨_, hreads.trans hw, .escape (inQuotes_of_blank fun d hd => ?_), fun _ => ⟨rfl, nofun⟩,
    nofun⟩
  exact isSpaceOrBreak_of_isBreak (hall d (List.mem_cons_of_mem c hd))

/-- The characters up to white space, the closing quote or an escaped line break are read. -/
theorem quotedWord_reads {fuel : Nat} {back text : Text} {escaped : Bool}
    (hfuel : s.rest.length < fuel)
    (h : quotedWord single start fuel back s = .ok ((text, escaped), s')) :
    ∃ u, ReadsQuoted single s u escaped s' := by
  induction fuel generalizing back s with
  | zero => exact absurd hfuel (Nat.not_lt_zero _)
  | succ fuel ih =>
      -- what has been read goes in front of the rest of the word
      have hgo : ∀ {w : Text} {s₁ : Scanner} {back : Text}, s.Reads w s₁ → w ≠ [] →
          InQuotes single w → quotedWord single start fuel back s₁ = .ok ((text, escaped), s') →
          ∃ u, ReadsQuoted single s u escaped s' := by
        intro w s₁ back hreads hne hw h
        have hlength := hreads.length
        have hpos := List.length_pos_iff.mpr hne
        obtain ⟨u, hu⟩ := ih (by omega) h
        exact ⟨w ++ u, hu.cons hreads hne hw⟩
      unfold quotedWord at h
      rw [peek_bind] at h
      split at h
      · next hspace =>
          cases h
          exact ⟨[], .refl _, .nil _, nofun, fun _ => .inl hspace⟩
      next hspace =>
      have hend : s.rest.headD '\x00' ≠ '\x00' := by
        intro h
        rw [h] at hspace
        exact hspace rfl
      have hone : ∀ {s₁ : Scanner}, skipContent 1 s = .ok ((), s₁) →
          s.Reads [s.rest.headD '\x00'] s₁ := fun hskip =>
        (Scanner.reads_skipContent (u := [s.rest.headD '\x00']) (rest_eq_of_peek hend rfl) hskip).1
      cases single with
      | true =>
          rw [if_pos rfl] at h
          split at h
          · next hquote =>
              rw [peekAt_bind] at h
              split at h
              · next hnext =>
                  obtain ⟨_, s₁, hskip, h⟩ := stateful_bind_eq_ok.mp h
                  obtain ⟨v, hrest⟩ := rest_eq_of_peekAt (by decide) hquote
                    (by rw [hnext]; decide)
                  rw [hnext] at hrest
                  exact hgo (Scanner.reads_skipContent (u := ['\'', '\'']) hrest hskip).1 nofun
                    (.pair (.nil true)) h
              · next hnext =>
                  cases h
                  exact ⟨[], .refl _, .nil _, nofun, fun _ => .inr ⟨hquote, fun _ => hnext⟩⟩
          · next hquote =>
              obtain ⟨_, s₁, hskip, h⟩ := stateful_bind_eq_ok.mp h
              exact hgo (hone hskip) nofun (.char hquote nofun (.nil true)) h
      | false =>
          rw [if_neg Bool.false_ne_true] at h
          split at h
          · next hquote =>
              cases h
              exact ⟨[], .refl _, .nil _, nofun, fun _ => .inr ⟨hquote, nofun⟩⟩
          next hquote =>
          split at h
          · next hback =>
              rw [peekAt_bind] at h
              split at h
              · next hbreak =>
                  obtain ⟨_, s₁, hskip, h⟩ := stateful_bind_eq_ok.mp h
                  obtain ⟨_, s₂, hskip', h⟩ := stateful_bind_eq_ok.mp h
                  cases h
                  exact readsQuoted_break hback hbreak hskip hskip'
              · obtain ⟨d, s₁, hescape, h⟩ := stateful_bind_eq_ok.mp h
                obtain ⟨w, hreads, hne, hw⟩ := quotedEscape_reads hback hescape
                exact hgo hreads hne hw h
          · next hback =>
              obtain ⟨_, s₁, hskip, h⟩ := stateful_bind_eq_ok.mp h
              exact hgo (hone hskip) nofun (.char hquote (fun _ => hback) (.nil false)) h

/-- A word of a quoted scalar stops in front of its closing quote, if there is one. -/
theorem ReadsQuoted.closes {u : Text} {escaped : Bool} (h : ReadsQuoted single s u escaped s')
    (hclose : s'.rest.headD '\x00' = quoteMark single) (hsingle : single = true) :
    s'.rest.getD 1 '\x00' ≠ '\'' := by
  subst hsingle
  cases escaped with
  | true => exact nomatch (h.broken rfl).1
  | false =>
      rcases h.stops rfl with hspace | ⟨-, hnext⟩
      · rw [hclose] at hspace
        cases hspace
      · exact hnext rfl

/-- Where it does not stop there, it is not empty, or white space is next. -/
theorem ReadsQuoted.ne_nil {u : Text} {escaped : Bool} (h : ReadsQuoted single s u escaped s')
    (hend : isEnd (s.rest.headD '\x00') ≠ true)
    (hopen : s'.rest.headD '\x00' ≠ quoteMark single)
    (hspace : isSpaceOrBreak (s'.rest.headD '\x00') = false) : u ≠ [] := by
  rintro rfl
  have hrest : s.rest = s'.rest := h.reads.rest
  cases escaped with
  | true => exact (h.broken rfl).2 rfl
  | false =>
      rcases h.stops rfl with hstop | ⟨hclose, -⟩
      · rw [isSpaceOrEnd_eq, hspace, Bool.false_or] at hstop
        exact hend (hrest ▸ hstop)
      · exact hopen hclose

/-- White space between two words is read. -/
theorem quotedGap_reads {fuel : Nat} {escaped : Bool} {gap gap' : Gap}
    (h : quotedGap escaped fuel gap s = .ok (gap', s')) :
    ∃ w, s.Reads w s' ∧ (∀ c ∈ w, isSpaceOrBreak c = true) ∧
      (0 < fuel → isSpaceOrBreak (s.rest.headD '\x00') = true → w ≠ []) := by
  induction fuel generalizing gap s with
  | zero =>
      cases h
      exact ⟨[], .refl _, nofun, nofun⟩
  | succ fuel ih =>
      have hgo : ∀ {v : Text} {s₁ : Scanner} {gap : Gap}, s.Reads v s₁ → v ≠ [] →
          (∀ c ∈ v, isSpaceOrBreak c = true) → quotedGap escaped fuel gap s₁ = .ok (gap', s') →
          ∃ w, s.Reads w s' ∧ (∀ c ∈ w, isSpaceOrBreak c = true) ∧
            (0 < fuel + 1 → isSpaceOrBreak (s.rest.headD '\x00') = true → w ≠ []) := by
        intro v s₁ gap hreads hne hv h
        obtain ⟨w, hw, hblank, -⟩ := ih h
        exact ⟨v ++ w, hreads.trans hw, List.forall_mem_append.mpr ⟨hv, hblank⟩,
          fun _ _ => List.append_ne_nil_of_left_ne_nil hne w⟩
      unfold quotedGap at h
      rw [peek_bind] at h
      split at h
      · next hspace =>
          have hskips : ∀ {gap : Gap}, (skipSpace >>= fun _ => quotedGap escaped fuel gap) s =
              .ok (gap', s') → ∃ w, s.Reads w s' ∧ (∀ c ∈ w, isSpaceOrBreak c = true) ∧
                (0 < fuel + 1 → isSpaceOrBreak (s.rest.headD '\x00') = true → w ≠ []) := by
            intro gap h
            obtain ⟨_, s₁, hskip, h⟩ := stateful_bind_eq_ok.mp h
            exact hgo (reads_skipSpace hspace hskip).1 nofun
              (fun c hc => List.mem_singleton.mp hc ▸ isSpaceOrBreak_of_isSpace hspace) h
          split at h
          · rw [mark_bind, get_bind] at h
            split at h
            · cases h
            · exact hskips h
          · exact hskips h
      · split at h
        · next hbreak =>
            obtain ⟨_, s₁, hskip, h⟩ := stateful_bind_eq_ok.mp h
            obtain ⟨v, hreads, hv, hne⟩ := reads_skipBreak hskip
            have hv : ∀ c ∈ v, isSpaceOrBreak c = true :=
              fun c hc => isSpaceOrBreak_of_isBreak (hv c hc)
            split at h
            · exact hgo hreads (hne hbreak) hv h
            · exact hgo hreads (hne hbreak) hv h
        · next hspace hbreak =>
            cases h
            refine ⟨[], .refl _, nofun, fun _ h => ?_⟩
            rw [isSpaceOrBreak, Bool.or_eq_true] at h
            exact (h.elim hspace hbreak).elim

/-- What stands between the quotes is read, up to the closing one. -/
theorem quotedText_reads {fuel : Nat} {back text : Text} (hbound : s.rest.length < s.bound)
    (hfuel : s.rest.length < fuel) (h : quotedText single start fuel back s = .ok (text, s')) :
    ∃ u, s.Reads u s' ∧ InQuotes single u ∧ s'.rest.headD '\x00' = quoteMark single ∧
      (single = true → s'.rest.getD 1 '\x00' ≠ '\'') := by
  induction fuel generalizing back s with
  | zero => exact absurd hfuel (Nat.not_lt_zero _)
  | succ fuel ih =>
      unfold quotedText at h
      rw [mark_bind, bind_of_ok (x := atDocumentMarker)
        (a := isDocumentMarker '-' s.rest || isDocumentMarker '.' s.rest) rfl] at h
      split at h
      · cases h
      dsimp only at h
      rw [peek_bind] at h
      split at h
      · cases h
      next hend =>
      rw [mark_bind, get_bind] at h
      split at h
      · cases h
      rw [fuel_bind] at h
      obtain ⟨⟨back', escaped⟩, s₁, hword, h⟩ := stateful_bind_eq_ok.mp h
      obtain ⟨u, hu⟩ := quotedWord_reads hbound hword
      have hlength := hu.reads.length
      have hbound₁ := hu.reads.bound
      rw [peek_bind] at h
      change (if s₁.rest.headD '\x00' = quoteMark single then _ else _ : Scan Text) s₁ = _ at h
      split at h
      · next hclose =>
          cases h
          exact ⟨u, hu.reads, hu.quotes, hclose, hu.closes hclose⟩
      · next hopen =>
          rw [fuel_bind] at h
          obtain ⟨gap, s₂, hgap, h⟩ := stateful_bind_eq_ok.mp h
          obtain ⟨w, hw, hblank, hsome⟩ := quotedGap_reads hgap
          have hlength' := hw.length
          have hne : u ++ w ≠ [] := by
            cases hspace : isSpaceOrBreak (s₁.rest.headD '\x00') with
            | true => exact List.append_ne_nil_of_right_ne_nil u (hsome (by omega) hspace)
            | false => exact List.append_ne_nil_of_left_ne_nil (hu.ne_nil hend hopen hspace) w
          have hpos := List.length_pos_iff.mpr hne
          rw [List.length_append] at hpos
          obtain ⟨v, hv, hmore, hclose⟩ := ih (by rw [hw.bound]; omega) (by omega) h
          exact ⟨u ++ w ++ v, (hu.reads.trans hw).trans hv,
            (hu.quotes.append (inQuotes_of_blank hblank)).append hmore, hclose⟩

/-- **What a quoted scalar is read from**: its quotes and what stands between them. -/
theorem scanQuoted_reads {t : Located Token} (hbound : s.rest.length < s.bound)
    (hquote : s.rest.headD '\x00' = quoteMark single) (h : scanQuoted single s = .ok (t, s')) :
    ∃ u rest, s.rest = quoteMark single :: (u ++ quoteMark single :: rest) ∧
      InQuotes single u ∧ (single = true → rest.headD '\x00' ≠ '\'') ∧
      t.span.start.index = s.mark.index ∧ s.mark.index + u.length + 2 ≤ s'.mark.index := by
  unfold scanQuoted at h
  rw [mark_bind] at h
  obtain ⟨_, s₁, hskip, h⟩ := stateful_bind_eq_ok.mp h
  have hmark : quoteMark single ≠ '\x00' := by cases single <;> decide
  have hrest := rest_eq_of_peek hmark hquote
  obtain ⟨hread, -⟩ := Scanner.reads_skipContent (u := [quoteMark single]) hrest hskip
  have hlength := hread.length
  rw [List.length_singleton] at hlength
  rw [fuel_bind] at h
  obtain ⟨text, s₂, htext, h⟩ := stateful_bind_eq_ok.mp h
  obtain ⟨u, hu, hquotes, hclose, hnext⟩ := quotedText_reads (by rw [hread.bound]; omega)
    (by rw [hread.bound]; omega) htext
  obtain ⟨_, s₃, hskip', h⟩ := stateful_bind_eq_ok.mp h
  have hrest' := rest_eq_of_peek hmark hclose
  obtain ⟨hread', -⟩ := Scanner.reads_skipContent (u := [quoteMark single]) hrest' hskip'
  obtain ⟨_, s₄, hline, h⟩ := stateful_bind_eq_ok.mp h
  have hindex : s₃.mark.index ≤ s₄.mark.index := by
    obtain ⟨-, w, -, hw | ⟨body, -, -, hw⟩⟩ := reads_skipToLineEnd hline
    · exact hw.index ▸ Nat.le_add_right _ _
    · exact hw.index ▸ Nat.le_add_right _ _
  rw [get_bind, peek_bind] at h
  split at h
  · cases h
  · dsimp only at h
    rw [mark_bind] at h
    cases h
    refine ⟨u, s₃.rest, ?_, hquotes, fun hsingle => ?_, rfl, ?_⟩
    · rw [hread.rest, hu.rest, hread'.rest]
      rfl
    · have := hnext hsingle
      rw [hread'.rest] at this
      exact fun h => this (by rw [← h]; cases s₃.rest <;> rfl)
    · have hfirst := hread.index
      have hlast := hread'.index
      rw [List.length_singleton] at hfirst hlast
      rw [hlast, hu.index, hfirst] at hindex
      omega

end Reads

end Scan

end YamlEdit
