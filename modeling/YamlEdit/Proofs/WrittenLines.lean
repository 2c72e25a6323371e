import Mathlib.Data.Bool.AllAny
import YamlEdit.Proofs.Reindenting

/-!
# Written values that are moved

What is written has no carriage returns, and no space stands at its end (`Value.neat_write`), so its
lines can be told from the moved text. Each moved line has what stands behind the white space at its
start, and that is what the line says only if it does not start with white space that is no space.
Main statement: `Fragment.indented_keeps_lines_iff`.
-/

namespace YamlEdit

namespace Text

/-- A text without carriage returns. Something other than a space stands in front of the line feeds
at its end. -/
structure Neat (t : Text) : Prop where
  noReturn : '\r' ∉ t
  ends : ∃ front c k, t = front ++ c :: List.replicate k '\n' ∧ c ≠ ' ' ∧ c ≠ '\n'

section Neatness

variable {t x : Text} {c : Char}

theorem Neat.append_left (hx : '\r' ∉ x) (h : Neat t) : Neat (x ++ t) := by
  obtain ⟨front, c, k, rfl, hc⟩ := h.ends
  exact ⟨by simpa using ⟨hx, by simpa using h.noReturn⟩, x ++ front, c, k, by simp, hc⟩

theorem neat_concat (hx : '\r' ∉ x) (hc : isBlank c = false) : Neat (x ++ [c]) := by
  have hnot : ∀ d, isBlank d = true → c ≠ d := by
    rintro d hd rfl
    rw [hd] at hc
    cases hc
  exact ⟨by simpa using ⟨hx, (hnot '\r' (by decide)).symm⟩, x, c, 0, rfl,
    hnot ' ' (by decide), hnot '\n' (by decide)⟩

theorem not_mem_of_ink (h : ∀ c ∈ t, isBlank c = false) : '\r' ∉ t := fun hmem => by
  cases h '\r' hmem

/-- What has no white space is neat. -/
theorem neat_of_ink (hne : t ≠ []) (h : ∀ c ∈ t, isBlank c = false) : Neat t := by
  obtain ⟨front, c, rfl⟩ := (List.eq_nil_or_concat t).resolve_left hne
  rw [List.concat_eq_append] at h ⊢
  exact neat_concat (not_mem_of_ink fun d hd => h d (by simp [hd])) (h c (by simp))

/-- The line feeds at the end are what is trimmed. -/
theorem Neat.trimLineFeeds (h : Neat t) :
    '\r' ∉ t.trimLineFeeds ∧ t.trimLineFeeds ≠ [] ∧ t.trimLineFeeds.getLast? ≠ some ' ' := by
  obtain ⟨front, c, k, rfl, hspace, hfeed⟩ := h.ends
  have htrim : Text.trimLineFeeds (front ++ c :: List.replicate k '\n') = front ++ [c] := by
    rw [Text.trimLineFeeds, List.reverse_append, List.reverse_cons, List.reverse_replicate,
      List.append_assoc, List.dropWhile_append_of_pos (by simp), List.singleton_append,
      List.dropWhile_cons_of_neg (by simpa using hfeed)]
    simp
  have hnone := h.noReturn
  rw [htrim]
  refine ⟨by simp_all, by simp, ?_⟩
  rw [List.getLast?_concat]
  exact fun h => hspace (Option.some.inj h)

end Neatness

/-! ## Digits -/

theorem isBlank_of_mem_ofNat {n : Nat} : ∀ c ∈ ofNat n, isBlank c = false :=
  fun _ hc => isBlank_of_isDigit (isDigit_of_mem_ofNat hc)

theorem isBlank_of_mem_ofInt (n : Int) : ∀ c ∈ ofInt n, isBlank c = false := by
  cases n with
  | ofNat n => exact isBlank_of_mem_ofNat
  | negSucc n => exact List.forall_mem_cons.mpr ⟨by decide, isBlank_of_mem_ofNat⟩

theorem exists_digitChar {n : Nat} {c : Char} (h : c ∈ Nat.toDigits 16 n) :
    ∃ m < 16, c = Nat.digitChar m := by
  induction n using Nat.strongRecOn with
  | _ n ih =>
    rw [Nat.toDigits_eq_if (by decide)] at h
    split at h
    · next hsmall => exact ⟨n, hsmall, List.mem_singleton.mp h⟩
    · rcases List.mem_append.mp h with h | h
      · exact ih (n / 16) (by omega) h
      · exact ⟨n % 16, Nat.mod_lt n (by decide), List.mem_singleton.mp h⟩

/-- Hexadecimal digits, in capital letters. -/
theorem isBlank_of_mem_ofNatHex {width n : Nat} :
    ∀ c ∈ (ofNatHex width n).map Char.toUpper, isBlank c = false := by
  have hdigit : ∀ m < 16, isBlank (Nat.digitChar m).toUpper = false := by decide
  intro c hc
  obtain ⟨d, hd, rfl⟩ := List.mem_map.mp hc
  rcases List.mem_append.mp hd with hd | hd
  · rw [List.eq_of_mem_replicate hd]
    decide
  · obtain ⟨m, hm, rfl⟩ := exists_digitChar hd
    exact hdigit m hm

end Text

open Text

theorem Decimal.isBlank_of_mem_render (format : Format) (d : Decimal) :
    ∀ c ∈ d.render format, Text.isBlank c = false := by
  have hdigits : ∀ c ∈ ofNat d.digits, Text.isBlank c = false := isBlank_of_mem_ofNat
  have htake : ∀ n, ∀ c ∈ (ofNat d.digits).take n, Text.isBlank c = false := fun n c hc =>
    hdigits c (List.mem_of_mem_take hc)
  have hdrop : ∀ n, ∀ c ∈ (ofNat d.digits).drop n, Text.isBlank c = false := fun n c hc =>
    hdigits c (List.mem_of_mem_drop hc)
  have hzeros : ∀ n, ∀ c ∈ List.replicate n '0', Text.isBlank c = false := by
    intro n c hc
    rw [List.eq_of_mem_replicate hc]
    decide
  unfold render
  dsimp only
  split
  · simp only [List.forall_mem_append]
    exact ⟨⟨hdigits, hzeros _⟩, List.all_iff_forall_prop.mp rfl⟩
  · split
    · simp only [List.forall_mem_append, List.forall_mem_cons]
      exact ⟨htake _, by decide, hdrop _⟩
    · split
      · simp only [List.forall_mem_append]
        exact ⟨⟨List.all_iff_forall_prop.mp rfl, hzeros _⟩, hdigits⟩
      · simp only [List.forall_mem_append, List.forall_mem_cons]
        refine ⟨⟨⟨htake 1, ?_⟩, by decide, ?_⟩, isBlank_of_mem_ofInt _⟩
        · split
          · exact nofun
          · exact List.forall_mem_cons.mpr ⟨by decide, hdrop 1⟩
        · split
          · exact List.all_iff_forall_prop.mp rfl
          · exact nofun

namespace Value

theorem isBlank_of_mem_renderFloat (x : Float) : ∀ c ∈ renderFloat x, Text.isBlank c = false := by
  unfold renderFloat Decimal.renderBits?
  split
  · next t h =>
      obtain ⟨b, -, rfl⟩ := Option.map_eq_some_iff.mp h
      have hsize : ∀ c ∈ (if b.mantissa = 0 then "0.0".toList
          else Decimal.render floatFormat (Decimal.shortest b)), Text.isBlank c = false := by
        split
        · exact List.all_iff_forall_prop.mp rfl
        · exact Decimal.isBlank_of_mem_render _ _
      dsimp only
      split
      · exact List.forall_mem_cons.mpr ⟨by decide, hsize⟩
      · exact hsize
  · split
    · exact List.all_iff_forall_prop.mp rfl
    · split
      · exact List.all_iff_forall_prop.mp rfl
      · exact List.all_iff_forall_prop.mp rfl

end Value

/-! ## Strings -/

namespace Scalar

section Strings

variable {indent : Nat} {broken : Bool} {t : Text} {c : Char}

theorem not_mem_spaces (n : Nat) : '\r' ∉ spaces n := fun h => by
  cases List.eq_of_mem_replicate h

theorem not_mem_of_needsEscapes (h : needsEscapes t = false) : '\r' ∉ t := by
  intro hmem
  unfold needsEscapes at h
  rw [Bool.or_eq_false_iff, Bool.not_eq_false', List.all_eq_true] at h
  cases h.1 '\r' hmem

theorem not_mem_numberedEscape (c : Char) : '\r' ∉ numberedEscape c := by
  unfold numberedEscape
  dsimp only
  split
  all_goals
    rw [List.mem_cons, not_or]
    refine ⟨?_, not_mem_of_ink isBlank_of_mem_ofNatHex⟩
  · decide
  · split <;> decide

theorem not_mem_doubleQuotedChar (c : Char) : '\r' ∉ doubleQuotedChar c := by
  unfold doubleQuotedChar
  split
  · next h =>
      rw [List.mem_singleton]
      rintro rfl
      cases h
  · rw [List.mem_cons, not_or]
    refine ⟨by decide, ?_⟩
    split
    · next letter hletter =>
        rw [List.mem_singleton]
        rintro rfl
        unfold escapeLetter? at hletter
        split at hletter <;> cases hletter
    · exact not_mem_numberedEscape c

theorem neat_doubleQuoted (t : Text) : Neat (doubleQuoted t) := by
  refine neat_concat ?_ (by decide)
  rw [List.mem_cons, List.mem_flatMap, not_or]
  exact ⟨by decide, fun ⟨c, _, hc⟩ => not_mem_doubleQuotedChar c hc⟩

theorem not_mem_singleQuotedFrom (h : '\r' ∉ t) : '\r' ∉ singleQuotedFrom indent broken t := by
  induction t generalizing broken with
  | nil =>
      rw [singleQuotedFrom]
      split
      · exact not_mem_spaces indent
      · exact List.not_mem_nil
  | cons c t ih =>
      rw [List.mem_cons, not_or] at h
      rw [singleQuotedFrom]
      split
      · rw [List.mem_cons, not_or]
        exact ⟨h.1, ih h.2⟩
      · rw [List.mem_append, List.mem_append, not_or, not_or]
        refine ⟨⟨?_, ?_⟩, ih h.2⟩
        · split
          · exact not_mem_spaces indent
          · exact List.not_mem_nil
        · split
          · decide
          · simpa using h.1

theorem neat_singleQuoted (h : needsEscapes t = false) : Neat (singleQuoted indent t) := by
  refine neat_concat ?_ (by decide)
  rw [List.mem_cons, not_or]
  exact ⟨by decide, not_mem_singleQuotedFrom (not_mem_of_needsEscapes h)⟩

/-! ## Literals -/

theorem not_mem_literalFrom (h : '\r' ∉ t) : '\r' ∉ literalFrom indent broken t := by
  induction t generalizing broken with
  | nil => exact List.not_mem_nil
  | cons c t ih =>
      rw [List.mem_cons, not_or] at h
      rw [literalFrom]
      split
      · rw [List.mem_cons, not_or]
        exact ⟨h.1, ih h.2⟩
      · rw [List.mem_append, List.mem_cons, not_or, not_or]
        refine ⟨?_, h.1, ih h.2⟩
        split
        · exact not_mem_spaces indent
        · exact List.not_mem_nil

theorem hasPair_tail {p q : Char → Bool} (h : hasPair p q (c :: t) = false) :
    hasPair p q t = false := by
  cases t with
  | nil => rfl
  | cons d t => exact (Bool.or_eq_false_iff.mp h).2

/-- The lines of a literal are empty, or something other than a space ends them. -/
theorem literalFrom_ends (indent : Nat) (broken : Bool)
    (hpair : hasPair isBlank isBreak t = false) (hlast : t.getLast? ≠ some ' ') :
    (∃ k, t = List.replicate k '\n' ∧ literalFrom indent broken t = t) ∨
      ∃ front c k, literalFrom indent broken t = front ++ c :: List.replicate k '\n' ∧ c ≠ ' ' ∧
        c ≠ '\n' := by
  induction t generalizing broken with
  | nil => exact .inl ⟨0, rfl, rfl⟩
  | cons c t ih =>
      have hlast' : t.getLast? ≠ some ' ' := by
        cases t with
        | nil => exact nofun
        | cons d t => rwa [List.getLast?_cons_cons] at hlast
      rw [literalFrom]
      split
      · next hbreak =>
          rcases ih true (hasPair_tail hpair) hlast' with
            ⟨k, hk, hlit⟩ | ⟨front, d, k, hlit, hd⟩
          · by_cases hc : c = '\n'
            · exact .inl ⟨k + 1, by rw [hc, List.replicate_succ, ← hk], by rw [hlit]⟩
            · refine .inr ⟨[], c, k, by rw [hlit, hk]; rfl, ?_, hc⟩
              rintro rfl
              cases hbreak
          · exact .inr ⟨c :: front, d, k, by rw [hlit]; rfl, hd⟩
      · next hbreak =>
          have hfeed : c ≠ '\n' := by
            rintro rfl
            exact hbreak rfl
          generalize (if broken = true then spaces indent else []) = pad
          rcases ih false (hasPair_tail hpair) hlast' with
            ⟨k, hk, hlit⟩ | ⟨front, d, k, hlit, hd⟩
          · refine .inr ⟨pad, c, k, by rw [hlit, hk], ?_, hfeed⟩
            -- a space stands neither at the end nor in front of a line feed
            rintro rfl
            cases k with
            | zero =>
                rw [hk] at hlast
                exact hlast rfl
            | succ k =>
                rw [hk, List.replicate_succ, hasPair] at hpair
                exact Bool.noConfusion ((Bool.or_eq_false_iff.mp hpair).1)
          · exact .inr ⟨pad ++ c :: front, d, k, by rw [hlit]; simp, hd⟩

/-- The hints of a header are a digit and a sign. -/
theorem isBlank_of_mem_header (t : Text) :
    ∀ c ∈ '|' :: indentHint t ++ chompHint t, Text.isBlank c = false := by
  have hindent : ∀ c ∈ indentHint t, Text.isBlank c = false := by
    unfold indentHint
    split
    · split
      · exact isBlank_of_mem_ofNat
      · exact nofun
    · exact nofun
  have hchomp : ∀ c ∈ chompHint t, Text.isBlank c = false := by
    unfold chompHint
    split
    · exact List.all_iff_forall_prop.mp rfl
    · split
      · exact List.all_iff_forall_prop.mp rfl
      · split
        · exact List.all_iff_forall_prop.mp rfl
        · split
          · exact List.all_iff_forall_prop.mp rfl
          · exact nofun
  rw [List.cons_append, List.forall_mem_cons, List.forall_mem_append]
  exact ⟨by decide, hindent, hchomp⟩

theorem neat_literal (h : allowsLiteral t = true) : Neat (literal indent t) := by
  unfold allowsLiteral at h
  rw [Bool.and_eq_true, Bool.not_eq_true', bne_iff_ne] at h
  obtain ⟨hescapes, hlast⟩ := h
  have hheader := isBlank_of_mem_header t
  refine ⟨?_, ?_⟩
  · unfold literal
    rw [List.mem_append, List.mem_cons, not_or, not_or]
    exact ⟨not_mem_of_ink hheader, by decide,
      not_mem_literalFrom (not_mem_of_needsEscapes hescapes)⟩
  · unfold literal
    rcases literalFrom_ends indent true (Bool.or_eq_false_iff.mp hescapes).2 hlast with
      ⟨k, hk, hlit⟩ | ⟨front, d, k, hlit, hd⟩
    · -- what ends the header is in front of the line feeds
      obtain ⟨front, c, hfront⟩ :=
        (List.eq_nil_or_concat ('|' :: indentHint t ++ chompHint t)).resolve_left (by simp)
      rw [List.concat_eq_append] at hfront
      have hc := hheader c (by rw [hfront]; simp)
      refine ⟨front, c, k + 1, ?_, ?_, ?_⟩
      · rw [hfront, hlit, hk, List.replicate_succ]
        simp
      · rintro rfl
        cases hc
      · rintro rfl
        cases hc
    · exact ⟨('|' :: indentHint t ++ chompHint t) ++ '\n' :: front, d, k, by rw [hlit]; simp, hd⟩

/-- **A string is neat** in every style. -/
theorem neat_ofString (indent : Nat) (t : Text) : Neat (ofString indent t).text := by
  unfold ofString
  split
  · split
    · next h => exact neat_literal h
    · exact neat_doubleQuoted t
  · next hline =>
      split
      · next h =>
          have hne : t ≠ [] := by
            rintro rfl
            exact absurd h (by decide)
          simp only [allowsPlain, allowsSingleQuotes, Bool.and_eq_true, Bool.not_eq_true',
            bne_iff_ne] at h
          obtain ⟨-, ⟨⟨⟨⟨⟨hescapes, -⟩, -⟩, -⟩, hlast⟩, -⟩, -⟩ := h
          obtain ⟨front, c, rfl⟩ := (List.eq_nil_or_concat t).resolve_left hne
          rw [List.concat_eq_append] at hescapes hlast hline ⊢
          refine ⟨not_mem_of_needsEscapes hescapes, front, c, 0, rfl, ?_, ?_⟩
          · rintro rfl
            exact hlast List.getLast?_concat
          · rintro rfl
            simp at hline
      · split
        · next h =>
            unfold allowsSingleQuotes at h
            rw [Bool.and_eq_true, Bool.not_eq_true'] at h
            exact neat_singleQuoted h.1
        · exact neat_doubleQuoted t

end Strings

end Scalar

/-! ## Values -/

namespace Value

open Scalar (not_mem_spaces neat_ofString)

section Values

variable {outer? : Option Nat} {lead : Lead} {tag? : Option Text} {v : Value} {w : Written}

theorem neat_of_scalar? {indent : Nat} (h : v.scalar? indent = some w) : Neat w.text := by
  unfold scalar? at h
  split at h
  · cases h
    exact neat_of_ink (by decide) (List.all_iff_forall_prop.mp rfl)
  · cases h
    split
    · exact neat_of_ink (by decide) (List.all_iff_forall_prop.mp rfl)
    · exact neat_of_ink (by decide) (List.all_iff_forall_prop.mp rfl)
  · cases h
    obtain ⟨c, rest, hcons, -⟩ := hasFirstLine_ofInt ‹Int›
    exact neat_of_ink (by rw [hcons]; exact List.cons_ne_nil c rest) (isBlank_of_mem_ofInt _)
  · cases h
    obtain ⟨c, rest, hcons, -⟩ := hasFirstLine_renderFloat ‹Float›
    exact neat_of_ink (by rw [hcons]; exact List.cons_ne_nil c rest) (isBlank_of_mem_renderFloat _)
  · cases h
    exact neat_ofString indent _
  · cases h
    exact neat_of_ink (by decide) (List.all_iff_forall_prop.mp rfl)
  · cases h
    exact neat_of_ink (by decide) (List.all_iff_forall_prop.mp rfl)
  · cases h

theorem not_mem_escapedTag (tag : Text) : '\r' ∉ escapedTag tag := by
  unfold escapedTag
  rw [List.mem_flatMap]
  rintro ⟨c, -, hc⟩
  split at hc
  · next h =>
      rw [← List.mem_singleton.mp hc] at h
      cases h
  · obtain ⟨byte, -, hbyte⟩ := List.mem_flatMap.mp hc
    rcases List.mem_cons.mp hbyte with hmark | hdigit
    · cases hmark
    · exact not_mem_of_ink isBlank_of_mem_ofNatHex hdigit

theorem not_mem_tagText (tag : Text) : '\r' ∉ tagText tag := by
  unfold tagText
  split
  · rw [List.mem_append, List.mem_append, not_or, not_or]
    exact ⟨⟨by decide, not_mem_escapedTag tag⟩, by decide⟩
  · rw [List.mem_cons, not_or]
    exact ⟨by decide, not_mem_escapedTag _⟩

theorem not_mem_tagPiece (lead : Lead) (tag? : Option Text) : '\r' ∉ tagPiece lead tag? := by
  cases tag? with
  | none => exact List.not_mem_nil
  | some tag =>
      unfold tagPiece
      rw [List.mem_append, not_or]
      refine ⟨?_, not_mem_tagText tag⟩
      split <;> decide

theorem not_mem_beforeEntries (lead : Lead) (isTagged : Bool) (column : Nat) :
    '\r' ∉ beforeEntries lead isTagged column := by
  unfold beforeEntries
  split
  · rw [List.mem_cons, not_or]
    exact ⟨by decide, not_mem_spaces column⟩
  · split <;> decide

theorem neat_writeScalar (h : ∀ indent, (v.scalar? indent).isSome = true) :
    Neat (writeScalar outer? lead tag? v).text := by
  obtain ⟨w, hw⟩ := Option.isSome_iff_exists.mp (h (outer?.getD 0 + Scalar.step))
  unfold writeScalar Written.after
  rw [hw, Option.getD_some]
  refine (neat_of_scalar? hw).append_left ?_
  rw [List.mem_append, not_or]
  refine ⟨not_mem_tagPiece lead tag?, ?_⟩
  split <;> decide

theorem neat_thenLine {first next : Written} (hfirst : '\r' ∉ first.text)
    (hnext : Neat next.text) (column : Nat) : Neat (Written.thenLine first column next).text := by
  refine hnext.append_left ?_
  rw [List.mem_append, List.mem_append, not_or, not_or]
  refine ⟨⟨hfirst, ?_⟩, not_mem_spaces column⟩
  split <;> decide

end Values

mutual

/-- **A written value is neat.** -/
theorem neat_write (outer? : Option Nat) (lead : Lead) (tag? : Option Text) :
    ∀ v : Value, Neat (v.write outer? lead tag?).text
  | null | bool _ | integer _ | float _ | string _ => by
      rw [write]
      · exact neat_writeScalar fun _ => rfl
      all_goals exact nofun
  | sequence items => by
      rw [write]
      split
      · exact neat_writeScalar fun _ => rfl
      · next hne =>
          refine (neat_writeItems _ items (by simpa using hne)).append_left ?_
          rw [List.mem_append, not_or]
          exact ⟨not_mem_tagPiece lead tag?, not_mem_beforeEntries _ _ _⟩
  | mapping entries => by
      rw [write]
      split
      · exact neat_writeScalar fun _ => rfl
      · next hne =>
          refine (neat_writeEntries _ entries (by simpa using hne)).append_left ?_
          rw [List.mem_append, not_or]
          exact ⟨not_mem_tagPiece lead tag?, not_mem_beforeEntries _ _ _⟩
  | tagged tag v => by
      rw [write]
      exact neat_write outer? lead (some tag) v

/-- The same for the items of a sequence. -/
theorem neat_writeItems (column : Nat) :
    ∀ items : List Value, items ≠ [] → Neat (writeItems column items).text
  | [], h => absurd rfl h
  | item :: rest, _ => by
      have hfirst : Neat (Written.after ['-'] (write (some column) .dash none item)).text :=
        (neat_write (some column) .dash none item).append_left (by decide)
      rw [writeItems]
      split
      · exact hfirst
      · next hne =>
          exact neat_thenLine hfirst.noReturn
            (neat_writeItems column rest (by simpa using hne)) column

/-- The same for the entries of a mapping. -/
theorem neat_writeEntries (column : Nat) :
    ∀ entries : List (Value × Value), entries ≠ [] → Neat (writeEntries column entries).text
  | [], h => absurd rfl h
  | (key, value) :: rest, _ => by
      have hkey : ∀ lead, '\r' ∉ (write (some column) lead none key).text := fun lead =>
        (neat_write (some column) lead none key).noReturn
      have hvalue : ∀ lead, Neat (write (some column) lead none value).text := fun lead =>
        neat_write (some column) lead none value
      rw [writeEntries]
      generalize hfirst : (if key.isSimpleKey = true then _ else _ : Written) = first
      have hneat : Neat first.text := by
        rw [← hfirst]
        split
        · exact (hvalue .key).append_left (by simpa using hkey .indentation)
        · exact neat_thenLine (by simpa [Written.after] using hkey .mark)
            ((hvalue .mark).append_left (by decide)) column
      split
      · exact hneat
      · next hne =>
          exact neat_thenLine hneat.noReturn
            (neat_writeEntries column rest (by simpa using hne)) column

end

end Value

/-- **A fragment is neat**, and not empty. -/
theorem Fragment.neat_of_ofValue {v : Value} {f : Fragment} (h : Fragment.ofValue v = .ok f) :
    '\r' ∉ f.text ∧ f.text ≠ [] ∧ f.text.getLast? ≠ some ' ' := by
  obtain ⟨text, htext, h⟩ := bind_eq_ok.mp h
  obtain ⟨-, -, htext⟩ := bind_eq_ok.mp htext
  cases htext
  cases h
  refine Neat.trimLineFeeds ?_
  have hwritten := Value.neat_write none .nothing none v
  split
  · obtain ⟨front, c, k, htext, hc⟩ := hwritten.ends
    refine ⟨by simpa using hwritten.noReturn, front, c, k + 1, ?_, hc⟩
    rw [htext, List.replicate_succ']
    simp
  · rwa [List.append_nil]

/-! ## Moved lines -/

namespace Text

/-- What a line says: all behind the spaces at its start. -/
def content (line : Text) : Text := line.dropWhile (· == ' ')

section Contents

variable {line : Text} {column least : Nat} {indentFirst : Bool} {ls : List Text}

theorem trimStart_content (line : Text) : (content line).trimStart = line.trimStart := by
  have hspaces : ∀ c ∈ line.takeWhile (· == ' '), isBlank c = true := by
    intro c hc
    have hall : (line.takeWhile (· == ' ')).all (· == ' ') = true := List.all_takeWhile
    rw [beq_iff_eq.mp (List.all_eq_true.mp hall c hc)]
    decide
  have hsplit : (line.takeWhile (· == ' ') ++ content line).dropWhile isBlank =
      (content line).dropWhile isBlank := List.dropWhile_append_of_pos hspaces
  rw [content, List.takeWhile_append_dropWhile] at hsplit
  exact hsplit.symm

/-- White space that is no space is all that trimming takes from what a line says. -/
theorem content_eq_trimStart_iff :
    content line = line.trimStart ↔ ∀ c ∈ (content line).head?, isBlank c = false := by
  rw [← trimStart_content line]
  cases hcontent : content line with
  | nil => exact ⟨fun _ => nofun, fun _ => rfl⟩
  | cons c rest =>
      cases hc : isBlank c with
      | true =>
          have hlt : (trimStart (c :: rest)).length < (c :: rest).length := by
            rw [trimStart, List.dropWhile_cons_of_pos hc]
            exact Nat.lt_succ_of_le (List.dropWhile_sublist isBlank).length_le
          exact ⟨fun h => absurd (congrArg List.length h) (by omega), fun h => by
            rw [h c rfl] at hc
            cases hc⟩
      | false =>
          refine ⟨fun _ d hd => ?_, fun _ => by
            rw [trimStart, List.dropWhile_cons_of_neg (by simp [hc])]⟩
          obtain rfl : c = d := Option.some.inj hd
          exact hc

theorem content_trimStart (line : Text) : content line.trimStart = line.trimStart := by
  cases htrim : line.trimStart with
  | nil => rfl
  | cons c rest =>
      have hc := Indentation.isBlank_of_trimStart htrim
      refine List.dropWhile_cons_of_neg ?_
      rw [beq_iff_eq]
      rintro rfl
      cases hc

theorem content_spaces_append (n : Nat) (line : Text) :
    content (spaces n ++ line) = content line :=
  List.dropWhile_append_of_pos fun _ hc => beq_iff_eq.mpr (List.eq_of_mem_replicate hc)

/-- A line that does not end with a space says something. -/
theorem content_ne_nil (hne : line ≠ []) (hlast : line.getLast? ≠ some ' ') :
    content line ≠ [] := by
  intro hnil
  have hall := List.dropWhile_eq_nil_iff.mp hnil
  obtain ⟨front, c, rfl⟩ := (List.eq_nil_or_concat line).resolve_left hne
  rw [List.concat_eq_append] at hall hlast
  have hc := beq_iff_eq.mp (hall c (by simp))
  rw [hc] at hlast
  exact hlast List.getLast?_concat

end Contents

end Text

namespace Indentation

section Contents

variable {column least : Nat} {indentFirst : Bool}

theorem content_shiftLine (column least : Nat) (line : Text) :
    (shiftLine column least line).content = line.trimStart := by
  cases h : line.allBlank with
  | true =>
      rw [shiftLine_of_blank h, trimStart_eq_nil_iff.mpr h]
      rfl
  | false => rw [shiftLine_of_ink h, content_spaces_append, content_trimStart]

theorem content_continueLine (line : Text) : (continueLine line).content = line.trimStart := by
  unfold continueLine
  split
  · next h =>
      rw [trimStart_eq_nil_iff.mpr h]
      rfl
  · exact content_trimStart line

/-- **A moved line has what its trimmed line has.** -/
theorem map_content_moved (column least : Nat) (indentFirst : Bool) (ls : List Text) :
    (moved column least indentFirst ls).map Text.content = ls.map Text.trimStart := by
  cases ls with
  | nil => rfl
  | cons first rest =>
      rw [moved, List.map_cons, List.map_cons, List.map_map]
      congr 1
      · cases indentFirst with
        | true => exact content_shiftLine column least first
        | false => exact content_continueLine first
      · exact List.map_congr_left fun line _ => content_shiftLine column least line

theorem not_mem_return_moved {ls : List Text} (column least : Nat) (indentFirst : Bool)
    (h : ∀ piece ∈ ls, '\r' ∉ piece) :
    ∀ piece ∈ moved column least indentFirst ls, '\r' ∉ piece := by
  have htrim : ∀ line : Text, '\r' ∉ line → '\r' ∉ line.trimStart := fun line hline hmem =>
    hline ((List.dropWhile_sublist Text.isBlank).mem hmem)
  have hshift : ∀ line : Text, '\r' ∉ line → '\r' ∉ shiftLine column least line := by
    intro line hline
    unfold shiftLine
    split
    · exact List.not_mem_nil
    · rw [List.mem_append, not_or]
      exact ⟨Scalar.not_mem_spaces _, htrim line hline⟩
  cases ls with
  | nil => exact nofun
  | cons first rest =>
      obtain ⟨hfirst, hrest⟩ := List.forall_mem_cons.mp h
      rw [moved, List.forall_mem_cons, List.forall_mem_map]
      refine ⟨?_, fun line hline => hshift line (hrest line hline)⟩
      cases indentFirst with
      | true => exact hshift first hfirst
      | false =>
          show '\r' ∉ continueLine first
          unfold continueLine
          split
          · exact List.not_mem_nil
          · exact htrim first hfirst

end Contents

end Indentation

namespace Text

theorem map_dropReturn {ls : List Text} (h : ∀ piece ∈ ls, '\r' ∉ piece) :
    ls.map dropReturn = ls := by
  have hdrop : ∀ l ∈ ls, dropReturn l = id l := fun l hl =>
    dropReturn_of_getLast? fun hlast => h l hl (List.mem_of_getLast? hlast)
  rw [List.map_congr_left hdrop, List.map_id]

/-- Without carriage returns, the lines are the pieces. -/
theorem lines_of_no_return {ls : List Text} {last : Text}
    (hfeeds : ∀ piece ∈ ls ++ [last], '\n' ∉ piece)
    (hreturns : ∀ piece ∈ ls ++ [last], '\r' ∉ piece) :
    lines (['\n'].intercalate (ls ++ [last])) = ls ++ if last = [] then [] else [last] := by
  rw [lines_intercalate hfeeds,
    map_dropReturn fun piece hpiece => hreturns piece (List.mem_append_left [last] hpiece)]

/-- Lines that have been trimmed are the lines that were there, if trimming takes spaces only. An
empty last line is no line. -/
theorem map_content_iff {ls ms : List Text} {last m : Text}
    (hmoved : (ms ++ [m]).map content = (ls ++ [last]).map trimStart) (hlast : content last ≠ []) :
    (ms ++ if m = [] then [] else [m]).map content = (ls ++ [last]).map content ↔
      ∀ line ∈ ls ++ [last], content line = line.trimStart := by
  constructor
  · intro h
    by_cases hm : m = []
    · have hlength := congrArg List.length hmoved
      have hshort := congrArg List.length h
      simp [hm] at hlength hshort
      omega
    · rw [if_neg hm, hmoved] at h
      exact fun line hline => (List.map_inj_left.mp h line hline).symm
  · intro h
    have hsame : (ls ++ [last]).map trimStart = (ls ++ [last]).map content :=
      List.map_congr_left fun line hline => (h line hline).symm
    rw [hsame] at hmoved
    have hm : m ≠ [] := by
      rintro rfl
      rw [List.map_append, List.map_append] at hmoved
      obtain ⟨-, hm⟩ := List.append_inj' hmoved rfl
      exact hlast (List.singleton_inj.mp hm).symm
    rw [if_neg hm, hmoved]

theorem not_mem_piece {ls : List Text} {c : Char} (h : c ∉ ['\n'].intercalate ls) :
    ∀ piece ∈ ls, c ∉ piece := by
  induction ls with
  | nil => exact nofun
  | cons l ls ih =>
      by_cases hls : ls = []
      · subst hls
        rw [List.intercalate_singleton] at h
        exact List.forall_mem_cons.mpr ⟨h, nofun⟩
      · rw [List.intercalate_cons_of_ne_nil hls, List.mem_append, List.mem_append, not_or,
          not_or] at h
        exact List.forall_mem_cons.mpr ⟨h.1.1, ih h.2⟩

/-- A text that does not end with a line feed ends with its last piece. -/
theorem last_piece {ls : List Text} {last : Text} (hne : ['\n'].intercalate (ls ++ [last]) ≠ [])
    (hfeed : (['\n'].intercalate (ls ++ [last])).getLast? ≠ some '\n') :
    last ≠ [] ∧ (['\n'].intercalate (ls ++ [last])).getLast? = last.getLast? := by
  by_cases hls : ls = []
  · subst hls
    rw [List.nil_append, List.intercalate_singleton] at hne ⊢
    exact ⟨hne, rfl⟩
  · rw [Indentation.intercalate_concat hls] at hfeed ⊢
    have hlast : last ≠ [] := by
      rintro rfl
      exact hfeed List.getLast?_concat
    rw [List.getLast?_append_of_ne_nil _ (List.cons_ne_nil _ _), List.getLast?_cons_of_ne_nil hlast]
    exact ⟨hlast, rfl⟩

end Text

open Indentation in
/-- **Lines are kept** when a written value is moved, exactly if it is a single line that stays, or
no line starts with white space other than spaces. -/
theorem Fragment.indented_keeps_lines_iff {v : Value} {f : Fragment} (h : Fragment.ofValue v = .ok f)
    (column : Nat) (indentFirst : Bool) :
    (f.indented column indentFirst).lines.map Text.content = f.text.lines.map Text.content ↔
      (indentFirst = false ∧ '\n' ∉ f.text) ∨
        ∀ line ∈ f.text.lines, ∀ c ∈ line.content.head?, Text.isBlank c = false := by
  obtain ⟨hreturn, hne, hspace⟩ := neat_of_ofValue h
  have hfeed := Plan.getLast?_of_ofValue h
  by_cases hstays : indentFirst = false ∧ '\n' ∉ f.text
  · have hsame : f.indented column indentFirst = f.text := by
      rw [Fragment.indented, reindent_eq, if_pos (.inr (by simpa using hstays))]
    rw [hsame]
    exact ⟨fun _ => .inl hstays, fun _ => rfl⟩
  · rw [or_iff_right hstays, Fragment.indented]
    obtain ⟨ls, last, htext, hpieces⟩ := Text.exists_pieces f.text
    rw [htext] at hreturn hne hspace hfeed hstays ⊢
    have hreturns := not_mem_piece hreturn
    obtain ⟨hlast, hend⟩ := last_piece hne hfeed
    rw [hend] at hspace
    have hlines : lines (['\n'].intercalate (ls ++ [last])) = ls ++ [last] := by
      rw [lines_of_no_return hpieces hreturns, if_neg hlast]
    have hfirst : indentFirst = true ∨ ls ≠ [] := by
      by_cases hls : ls = []
      · subst hls
        refine .inl (Bool.eq_true_of_not_eq_false fun hstay => hstays ⟨hstay, ?_⟩)
        exact hpieces _ (by simp)
      · exact .inr hls
    rw [hlines, reindent_intercalate hpieces hfirst, map_dropReturn fun piece hpiece =>
      hreturns piece (List.mem_append_left [last] hpiece)]
    generalize minimum (['\n'].intercalate (ls ++ [last])) = least
    have hfeeds := not_mem_of_mem_moved column least indentFirst hpieces
    have hnone := not_mem_return_moved column least indentFirst hreturns
    have hcontents := map_content_moved column least indentFirst (ls ++ [last])
    obtain ⟨ms, m, hms⟩ :=
      (List.eq_nil_or_concat (moved column least indentFirst (ls ++ [last]))).resolve_left
        (moved_ne_nil (by simp))
    rw [hms, List.concat_eq_append] at hfeeds hnone hcontents ⊢
    rw [lines_of_no_return hfeeds hnone, map_content_iff hcontents (content_ne_nil hlast hspace)]
    exact forall₂_congr fun line _ => content_eq_trimStart_iff

/-- The lines of a literal are kept when they are moved. -/
theorem Fragment.indented_keeps_lines_of_literal :
    ∃ f, Fragment.ofValue (.string "x\ny".toList) = .ok f ∧ f.text = "|-\n  x\n  y".toList ∧
      (f.indented 4 true).lines.map Text.content = f.text.lines.map Text.content := by
  have hf : Fragment.ofValue (.string "x\ny".toList) = .ok ⟨"|-\n  x\n  y".toList, false⟩ :=
    toOption_eq_some.mp (by decide +kernel)
  have hink : ((Text.lines "|-\n  x\n  y".toList).all fun line =>
      line.content.head?.all (Text.isBlank · == false)) = true := by decide
  refine ⟨_, hf, rfl, (Fragment.indented_keeps_lines_iff hf 4 true).mpr (.inr ?_)⟩
  intro line hline c hc
  have hhead := (Option.all_eq_true _ _).mp (List.all_eq_true.mp hink line hline) c hc
  exact beq_iff_eq.mp hhead

/-- A wide space at the start of a line is taken for indentation when the line is moved. -/
theorem Fragment.indented_drops_wide_space :
    ∃ e e' text, Editor.edit "a: 1\n".toList
        (.update "a".toList (.string "x\n\u3000y".toList)) = some (e, e', text) ∧
      text = "a: |-\n    x\n    y\n".toList ∧
      (e'.value "a".toList).toOption.map (Value.same · (.string "x\ny".toList)) = some true ∧
      (Fragment.ofValue (.string "x\n\u3000y".toList)).toOption.map
          (fun f => (f.text.lines.map Text.content, (f.indented 2 false).lines.map Text.content)) =
        some (["|-".toList, ['x'], ['\u3000', 'y']], ["|-".toList, ['x'], ['y']]) :=
  Editor.exists_edit "a: 1\n".toList (.update "a".toList (.string "x\n\u3000y".toList))
    (P := fun _ e' text => text = "a: |-\n    x\n    y\n".toList ∧
      (e'.value "a".toList).toOption.map (Value.same · (.string "x\ny".toList)) = some true ∧
      (Fragment.ofValue (.string "x\n\u3000y".toList)).toOption.map
          (fun f => (f.text.lines.map Text.content, (f.indented 2 false).lines.map Text.content)) =
        some (["|-".toList, ['x'], ['\u3000', 'y']], ["|-".toList, ['x'], ['y']]))
    (by decide +kernel)

end YamlEdit
