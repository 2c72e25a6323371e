import YamlEdit.Proofs.ByteOffsets
import YamlEdit.Proofs.QuotedScalars

/-!
# Where a scalar in quotes ends

A scalar in single quotes has each of its quotes written twice, and one in double quotes is made of
escapes of two characters and of characters that are neither quotes nor backslashes
(`Extent.ClosedBefore`). The search for the end of a scalar in quotes finds it exactly if the text
starts with such a scalar.

The search can go over bytes as well (`Bytes.quotedEnd`): a backslash then takes one byte with it, and
if the character behind it takes more than one the search goes on inside of that character, where it
finds neither a quote nor a backslash (`Bytes.closingQuote_inside`).

Main statement: `Extent.quotedEnd_closed`.
-/

namespace YamlEdit

open Text Token

namespace Bytes

/-- The search for the quote that closes a scalar, from the byte at `place` on. In double quotes a
backslash takes the next byte with it; in single quotes a quote takes a second one. -/
def closingQuote (bytes : Bytes) (quote : UInt8) (place : Nat) : Option Nat :=
  match h : bytes[place]? with
  | none => none
  | some b =>
    if quote = '"'.toUInt8 ∧ b = '\\'.toUInt8 then closingQuote bytes quote (place + 2)
    else if b = quote then
      if quote = '\''.toUInt8 ∧ bytes[place + 1]? = some '\''.toUInt8 then
        closingQuote bytes quote (place + 2)
      else some (place + 1)
    else closingQuote bytes quote (place + 1)
termination_by bytes.length - place
decreasing_by
  all_goals
    have := (List.getElem?_eq_some_iff.mp h).1
    omega

/-- Where the scalar in quotes that starts at the byte at `start` ends, if there is a closed one. -/
def quotedEnd (bytes : Bytes) (start : Nat) : Option Nat :=
  match bytes[start]? with
  | none => none
  | some quote =>
    if quote = '\''.toUInt8 ∨ quote = '"'.toUInt8 then closingQuote bytes quote (start + 1)
    else none

section Bytes

variable {bytes : Bytes} {x y t : Text} {c : Char} {place k : Nat}

theorem utf8Size_quoteMark (single : Bool) : (quoteMark single).utf8Size = 1 := by
  cases single <;> rfl

/-- A round of the search. -/
theorem closingQuote_of_byte {quote b : UInt8} (h : bytes[place]? = some b) :
    closingQuote bytes quote place =
      if quote = '"'.toUInt8 ∧ b = '\\'.toUInt8 then closingQuote bytes quote (place + 2)
      else if b = quote then
        if quote = '\''.toUInt8 ∧ bytes[place + 1]? = some '\''.toUInt8 then
          closingQuote bytes quote (place + 2)
        else some (place + 1)
      else closingQuote bytes quote (place + 1) := by
  rw [closingQuote]
  split
  · next h' => cases h.symm.trans h'
  · next h' =>
      cases h.symm.trans h'
      rfl

theorem closingQuote_of_le {quote : UInt8} (h : bytes.length ≤ place) :
    closingQuote bytes quote place = none := by
  rw [closingQuote]
  split
  · rfl
  · next h' => cases (List.getElem?_eq_none h).symm.trans h'

/-- The search passes over a byte that is neither the quote nor a backslash. -/
theorem closingQuote_pass {single : Bool}
    (hquote : bytes[place]? ≠ some (quoteMark single).toUInt8)
    (hescape : single = false → bytes[place]? ≠ some '\\'.toUInt8) :
    closingQuote bytes (quoteMark single).toUInt8 place =
      closingQuote bytes (quoteMark single).toUInt8 (place + 1) := by
  cases h : bytes[place]? with
  | none =>
      have hle := List.getElem?_eq_none_iff.mp h
      rw [closingQuote_of_le hle, closingQuote_of_le (Nat.le_succ_of_le hle)]
  | some b =>
      rw [closingQuote_of_byte h, if_neg, if_neg]
      · rintro rfl
        exact hquote h
      · rintro ⟨hdouble, rfl⟩
        cases single with
        | false => exact hescape rfl h
        | true => cases hdouble

/-- **Inside of a character the search finds nothing**: it goes on to the end of the character. -/
theorem closingQuote_inside (single : Bool) (hk : 0 < k) (hle : k ≤ c.utf8Size) :
    closingQuote (x ++ c :: y).bytes (quoteMark single).toUInt8 (size x + k) =
      closingQuote (x ++ c :: y).bytes (quoteMark single).toUInt8 (size (x ++ [c])) := by
  refine eq_behind_char hle fun j hj hlt => ?_
  have hnot : ∀ {a : Char}, a.utf8Size = 1 →
      (x ++ c :: y).bytes[size x + j]? ≠ some a.toUInt8 := fun ha h =>
    absurd ((getElem?_bytes_eq_iff ha hlt).mp h).1 (Nat.ne_of_gt (Nat.lt_of_lt_of_le hk hj))
  exact closingQuote_pass (hnot (utf8Size_quoteMark single)) fun _ => hnot rfl

/-- The search passes over a character that is neither the quote nor a backslash. -/
theorem closingQuote_char (single : Bool) (hquote : c ≠ quoteMark single)
    (hescape : single = false → c ≠ '\\') :
    closingQuote (x ++ c :: y).bytes (quoteMark single).toUInt8 (size x) =
      closingQuote (x ++ c :: y).bytes (quoteMark single).toUInt8 (size (x ++ [c])) := by
  rw [closingQuote_pass, closingQuote_inside single Nat.one_pos c.utf8Size_pos]
  · rw [Ne, getElem?_bytes_iff (utf8Size_quoteMark single), List.head?_cons, Option.some.injEq]
    exact hquote
  · intro hdouble
    rw [Ne, getElem?_bytes_iff rfl, List.head?_cons, Option.some.injEq]
    exact hescape hdouble

/-- The byte that stands behind a quote. -/
theorem getElem?_bytes_succ {a : Char} (ha : a.utf8Size = 1) (hc : c.utf8Size = 1) :
    (x ++ c :: y).bytes[size x + 1]? = some a.toUInt8 ↔ y.head? = some a := by
  rw [← hc, ← size_concat, ← List.singleton_append, ← List.append_assoc]
  exact getElem?_bytes_iff ha

/-- A quote closes the scalar, unless a second one follows it in single quotes. -/
theorem closingQuote_close (single : Bool) (h : single = true → y.head? ≠ some '\'') :
    closingQuote (x ++ quoteMark single :: y).bytes (quoteMark single).toUInt8 (size x) =
      some (size x + 1) := by
  have hone := utf8Size_quoteMark single
  rw [closingQuote_of_byte ((getElem?_bytes_iff hone).mpr rfl), if_neg, if_pos rfl, if_neg]
  · rintro ⟨hsingle, hnext⟩
    cases single with
    | true => exact h rfl ((getElem?_bytes_succ rfl hone).mp hnext)
    | false => cases hsingle
  · rintro ⟨hdouble, hescape⟩
    cases hdouble.symm.trans hescape

/-- Two quotes are passed over in single quotes. -/
theorem closingQuote_pair :
    closingQuote (x ++ '\'' :: '\'' :: y).bytes '\''.toUInt8 (size x) =
      closingQuote (x ++ '\'' :: '\'' :: y).bytes '\''.toUInt8 (size (x ++ ['\'', '\''])) := by
  have hnext : (x ++ '\'' :: '\'' :: y).bytes[size x + 1]? = some '\''.toUInt8 :=
    (getElem?_bytes_succ rfl rfl).mpr rfl
  rw [closingQuote_of_byte ((getElem?_bytes_iff rfl).mpr rfl), if_neg (by decide), if_pos rfl,
    if_pos ⟨rfl, hnext⟩, size_append]
  rfl

/-- A backslash and the character behind it are passed over in double quotes, also if the second byte
is not all of that character. -/
theorem closingQuote_escape :
    closingQuote (x ++ '\\' :: c :: y).bytes '"'.toUInt8 (size x) =
      closingQuote (x ++ '\\' :: c :: y).bytes '"'.toUInt8 (size (x ++ ['\\', c])) := by
  have hinside := closingQuote_inside (x := x ++ ['\\']) (y := y) false Nat.one_pos c.utf8Size_pos
  rw [List.append_assoc, List.append_assoc, size_concat] at hinside
  rw [closingQuote_of_byte ((getElem?_bytes_iff rfl).mpr rfl), if_pos ⟨rfl, rfl⟩]
  exact hinside

/-- The offset behind one character is where the rest of the text starts. -/
theorem size_sub_cons (x y : Text) (hc : c.utf8Size = 1) :
    size x + 1 = size (x ++ c :: y) - size y := by
  rw [size_append, size_cons]
  omega

/-- The search over bytes in single quotes is the one over characters. -/
theorem closingQuote_single (x t : Text) :
    closingQuote (x ++ t).bytes '\''.toUInt8 (size x) =
      (Extent.afterSingleQuoted t).map fun rest => size (x ++ t) - size rest := by
  fun_induction Extent.afterSingleQuoted t generalizing x with
  | case1 => exact closingQuote_of_le (Nat.le_of_eq (by rw [List.append_nil, length_bytes]))
  | case2 =>
      have hclose := closingQuote_close (x := x) (y := []) true fun _ =>
        (Option.some_ne_none _).symm
      exact hclose.trans (congrArg some (size_sub_cons (c := '\'') x [] rfl))
  | case3 c hc =>
      exact (closingQuote_char true hc fun h => Bool.noConfusion h).trans
        (closingQuote_of_le (Nat.le_of_eq (length_bytes _)))
  | case4 t ih =>
      have hrest := ih (x ++ ['\'', '\''])
      rw [List.append_assoc] at hrest
      exact closingQuote_pair.trans hrest
  | case5 d t hd =>
      have hclose := closingQuote_close (x := x) (y := d :: t) true fun _ h =>
        hd (Option.some.inj h)
      exact hclose.trans (congrArg some (size_sub_cons (c := '\'') x (d :: t) rfl))
  | case6 c d t hc ih =>
      have hrest := ih (x ++ [c])
      rw [List.append_assoc] at hrest
      exact (closingQuote_char true hc fun h => Bool.noConfusion h).trans hrest

/-- The search over bytes in double quotes is the one over characters. -/
theorem closingQuote_double (x t : Text) :
    closingQuote (x ++ t).bytes '"'.toUInt8 (size x) =
      (Extent.afterDoubleQuoted t).map fun rest => size (x ++ t) - size rest := by
  fun_induction Extent.afterDoubleQuoted t generalizing x with
  | case1 => exact closingQuote_of_le (Nat.le_of_eq (by rw [List.append_nil, length_bytes]))
  | case2 t =>
      have hclose := closingQuote_close (x := x) (y := t) false fun h => Bool.noConfusion h
      exact hclose.trans (congrArg some (size_sub_cons (c := '"') x t rfl))
  | case3 =>
      -- the backslash has nothing to take with it
      rw [closingQuote_of_byte ((getElem?_bytes_iff rfl).mpr rfl), if_pos ⟨rfl, rfl⟩]
      refine closingQuote_of_le ?_
      rw [length_bytes, size_append]
      exact Nat.le_succ _
  | case4 c t _ ih =>
      have hrest := ih (x ++ ['\\', c])
      rw [List.append_assoc] at hrest
      exact closingQuote_escape.trans hrest
  | case5 c t hquote hescape ih =>
      have hrest := ih (x ++ [c])
      rw [List.append_assoc] at hrest
      exact (closingQuote_char false hquote fun _ => hescape).trans hrest

end Bytes

end Bytes

namespace Extent

variable {t u rest : Text}

/-- The text behind the scalar in quotes that a text starts with, if there is a closed one. -/
def afterQuoted : Text → Option Text
  | '\'' :: t => afterSingleQuoted t
  | '"' :: t => afterDoubleQuoted t
  | _ => none

theorem quotedEnd_append (x t : Text) :
    quotedEnd (x ++ t) (size x) =
      .ok ((afterQuoted t).map fun rest => size (x ++ t) - size rest) := by
  unfold quotedEnd
  rw [dropBytes_append]
  rfl

/-- **The search for the end of a scalar in quotes can go over bytes.** -/
theorem quotedEnd_eq_bytes (x t : Text) :
    quotedEnd (x ++ t) (size x) = .ok (Bytes.quotedEnd (x ++ t).bytes (size x)) := by
  have hbyte : ∀ {a : Char}, a.utf8Size = 1 →
      ((x ++ t).bytes[size x]? = some a.toUInt8 ↔ t.head? = some a) := getElem?_bytes_iff
  rw [quotedEnd_append]
  refine congrArg Except.ok ?_
  fun_cases afterQuoted t with
  | case1 t =>
      have hscan := Bytes.closingQuote_single (x ++ ['\'']) t
      rw [size_concat, List.append_assoc] at hscan
      rw [Bytes.quotedEnd, (hbyte rfl).mpr rfl]
      exact ((if_pos (.inl rfl)).trans hscan).symm
  | case2 t =>
      have hscan := Bytes.closingQuote_double (x ++ ['"']) t
      rw [size_concat, List.append_assoc] at hscan
      rw [Bytes.quotedEnd, (hbyte rfl).mpr rfl]
      exact ((if_pos (.inr rfl)).trans hscan).symm
  | case3 t hsingle hdouble =>
      rw [Bytes.quotedEnd]
      split
      · rfl
      · next b hb =>
          rw [if_neg]
          · rfl
          · rintro (rfl | rfl)
            · obtain ⟨rest, rfl⟩ := List.head?_eq_some_iff.mp ((hbyte rfl).mp hb)
              exact hsingle rest rfl
            · obtain ⟨rest, rfl⟩ := List.head?_eq_some_iff.mp ((hbyte rfl).mp hb)
              exact hdouble rest rfl

/-! ## Scalars in quotes -/

/-- A text in which each single quote is written twice. -/
def doubled (s : Text) : Text := s.flatMap fun c => if c = '\'' then ['\'', '\''] else [c]

/-- A scalar in quotes that is closed in front of the rest of a text: nothing but its last quote can be
taken for the closing one. -/
inductive ClosedBefore (rest : Text) : Text → Prop where
  | single (s : Text) (ends : rest.head? ≠ some '\'') :
      ClosedBefore rest ('\'' :: (doubled s ++ ['\'']))
  | double {u : Text} (inside : InQuotes false u) : ClosedBefore rest ('"' :: (u ++ ['"']))

theorem doubled_cons (c : Char) (s : Text) :
    doubled (c :: s) = (if c = '\'' then ['\'', '\''] else [c]) ++ doubled s := List.flatMap_cons

/-- What can stand in single quotes is a text with its quotes doubled. -/
theorem inQuotes_iff_doubled : InQuotes true u ↔ ∃ s, u = doubled s := by
  constructor
  · intro h
    generalize hsingle : true = single at h
    induction h with
    | nil => exact ⟨[], rfl⟩
    | @char _ c u hquote _ _ ih =>
        obtain ⟨s, rfl⟩ := ih hsingle
        subst hsingle
        refine ⟨c :: s, ?_⟩
        rw [doubled_cons, if_neg (by exact hquote)]
        rfl
    | pair _ ih =>
        obtain ⟨s, rfl⟩ := ih hsingle
        exact ⟨'\'' :: s, rfl⟩
    | escape => cases hsingle
  · rintro ⟨s, rfl⟩
    induction s with
    | nil => exact .nil true
    | cons c s ih =>
        rw [doubled_cons]
        split
        · exact .pair ih
        · next hc => exact .char hc nofun ih

/-- The search in single quotes finds the first quote that is not written twice. -/
theorem afterSingleQuoted_eq_some_iff :
    afterSingleQuoted t = some rest ↔
      ∃ u, t = u ++ '\'' :: rest ∧ InQuotes true u ∧ rest.head? ≠ some '\'' := by
  constructor
  · intro h
    fun_induction afterSingleQuoted t with
    | case1 => cases h
    | case2 =>
        cases h
        exact ⟨[], rfl, .nil true, (Option.some_ne_none _).symm⟩
    | case3 => cases h
    | case4 t ih =>
        obtain ⟨u, rfl, hu, hrest⟩ := ih h
        exact ⟨_, rfl, .pair hu, hrest⟩
    | case5 d t hd =>
        cases h
        exact ⟨[], rfl, .nil true, fun hhead => hd (Option.some.inj hhead)⟩
    | case6 c d t hc ih =>
        obtain ⟨u, hu, hinside, hrest⟩ := ih h
        exact ⟨c :: u, by rw [hu]; rfl, .char hc (fun h => Bool.noConfusion h) hinside, hrest⟩
  · rintro ⟨u, rfl, hu, hrest⟩
    refine afterSingleQuoted_of_inQuotes hu ?_
    cases rest with
    | nil => decide
    | cons c rest => exact fun hc => hrest (congrArg some hc)

/-- The search in double quotes finds the first quote that is not escaped. -/
theorem afterDoubleQuoted_eq_some_iff :
    afterDoubleQuoted t = some rest ↔ ∃ u, t = u ++ '"' :: rest ∧ InQuotes false u := by
  constructor
  · intro h
    fun_induction afterDoubleQuoted t with
    | case1 => cases h
    | case2 t =>
        cases h
        exact ⟨[], rfl, .nil false⟩
    | case3 => cases h
    | case4 c t _ ih =>
        obtain ⟨u, rfl, hu⟩ := ih h
        exact ⟨_, rfl, .escape hu⟩
    | case5 c t hquote hescape ih =>
        obtain ⟨u, rfl, hu⟩ := ih h
        exact ⟨c :: u, rfl, .char hquote (fun _ => hescape) hu⟩
  · rintro ⟨u, rfl, hu⟩
    exact afterDoubleQuoted_of_inQuotes hu

/-- **A text starts with a closed scalar in quotes** in one way only: its end is the one that is
searched for. -/
theorem afterQuoted_eq_some_iff :
    afterQuoted t = some rest ↔ ∃ w, t = w ++ rest ∧ ClosedBefore rest w := by
  constructor
  · fun_cases afterQuoted t with
    | case1 t =>
        intro h
        obtain ⟨u, rfl, hu, hrest⟩ := afterSingleQuoted_eq_some_iff.mp h
        obtain ⟨s, rfl⟩ := inQuotes_iff_doubled.mp hu
        exact ⟨_, by simp, .single s hrest⟩
    | case2 t =>
        intro h
        obtain ⟨u, rfl, hu⟩ := afterDoubleQuoted_eq_some_iff.mp h
        exact ⟨_, by simp, .double hu⟩
    | case3 => nofun
  · rintro ⟨w, rfl, hw⟩
    cases hw with
    | single s hrest =>
        exact afterSingleQuoted_eq_some_iff.mpr
          ⟨doubled s, List.append_assoc _ _ _, inQuotes_iff_doubled.mpr ⟨s, rfl⟩, hrest⟩
    | double hu => exact afterDoubleQuoted_eq_some_iff.mpr ⟨_, List.append_assoc _ _ _, hu⟩

/-- **The end of a scalar in quotes** is found right behind its closing quote, and nothing is found if
and only if the text does not start with a closed scalar in quotes. The search finds the same when it
goes over bytes, whatever takes more than one of them. -/
theorem quotedEnd_closed (p : Text) :
    (∀ w r, ClosedBefore r w → quotedEnd (p ++ (w ++ r)) (size p) = .ok (some (size (p ++ w)))) ∧
      (∀ t, quotedEnd (p ++ t) (size p) = .ok none ↔ ¬ ∃ w r, t = w ++ r ∧ ClosedBefore r w) ∧
      ∀ t, quotedEnd (p ++ t) (size p) = .ok (Bytes.quotedEnd (p ++ t).bytes (size p)) := by
  refine ⟨fun w r hw => ?_, fun t => ?_, quotedEnd_eq_bytes p⟩
  · rw [quotedEnd_append, afterQuoted_eq_some_iff.mpr ⟨w, rfl, hw⟩, Option.map_some,
      ← List.append_assoc, size_append (p ++ w), Nat.add_sub_cancel]
  · rw [quotedEnd_append, Except.ok.injEq, Option.map_eq_none_iff, Option.eq_none_iff_forall_ne_some]
    constructor
    · rintro hnone ⟨w, r, hw⟩
      exact hnone r (afterQuoted_eq_some_iff.mpr ⟨w, hw⟩)
    · rintro hnot r hsome
      obtain ⟨w, hw⟩ := afterQuoted_eq_some_iff.mp hsome
      exact hnot ⟨w, r, hw⟩

/-- A backslash in front of a character of three bytes: the scalar is closed by the quote behind them,
also when the search goes over bytes. A quote that is written twice leaves the scalar open. -/
theorem quotedEnd_closed_escape :
    ClosedBefore ['"'] "\"\\日\"".toList ∧
      quotedEnd ("é: ".toList ++ ("\"\\日\"".toList ++ ['"'])) 4 = .ok (some 10) ∧
      Bytes.quotedEnd (bytes ("é: ".toList ++ ("\"\\日\"".toList ++ ['"']))) 4 = some 10 ∧
      ¬ ∃ w r, "'a''".toList = w ++ r ∧ ClosedBefore r w := by
  have hclosed : ClosedBefore ['"'] "\"\\日\"".toList :=
    .double (u := ['\\', '日']) (.escape (.nil false))
  have hstart : size "é: ".toList = 4 := by decide
  have hstop : size ("é: ".toList ++ "\"\\日\"".toList) = 10 := by decide
  obtain ⟨hends, hopen, hbytes⟩ := quotedEnd_closed "é: ".toList
  have hend := hends _ _ hclosed
  have hscan := hbytes ("\"\\日\"".toList ++ ['"'])
  rw [hstart, hstop] at hend
  rw [hstart, hend] at hscan
  exact ⟨hclosed, hend, (Except.ok.inj hscan).symm, (hopen _).mp (by decide)⟩

end Extent

end YamlEdit
