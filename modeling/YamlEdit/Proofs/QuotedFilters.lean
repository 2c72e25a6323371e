import Mathlib.Data.List.TakeWhile
import YamlEdit.Proofs.PrintedPaths

/-!
# Strings as the values of filters

The string that is the value of a filter is scanned twice: by the search for the bracket of the filter,
from its first character on, and when the value is read, from the opening quote on and without the
blanks around it. If no quote stands in the key, both scans start the string at the same quote, and so
they end it at the same one.

Main statement: `Selector.filterValue_of_closeFilter`, a string in a filter that is closed is closed
itself, and it is the value of the filter if and only if nothing but blanks follows it.
-/

namespace YamlEdit

namespace Text

/-- Blanks around a text are trimmed. -/
theorem trim_append_of_blank {front t back : Text} (hfront : ∀ c ∈ front, isBlank c = true)
    (hback : ∀ c ∈ back, isBlank c = true) : trim (front ++ (t ++ back)) = trim t := by
  rw [trim, trimStart, List.dropWhile_append_of_pos hfront, List.dropWhile_append]
  split
  · next hempty =>
      -- the whole text is blank
      have hnil : t.dropWhile isBlank = [] := by simpa using hempty
      rw [trim, trimStart, hnil, ← List.append_nil (back.dropWhile isBlank),
        List.dropWhile_eq_nil_iff.mpr hback]
      rfl
  · rw [trimEnd_append_of_blank hback]
    rfl

theorem trimEnd_eq_nil_iff {t : Text} : t.trimEnd = [] ↔ t.allBlank = true := by
  rw [trimEnd, List.reverse_eq_nil_iff, List.dropWhile_eq_nil_iff, allBlank, List.all_eq_true]
  simp only [List.mem_reverse]

end Text

namespace Selector

open Text

section Strings

variable {quote : Char} {s value front blanks right behind : Text}

/-- The blanks behind a string are trimmed, and those in front of it. -/
theorem trim_string (hquote : IsQuote quote) (hs : Quotes quote s value)
    (hblanks : ∀ c ∈ blanks, isBlank c = true) :
    trim (blanks ++ quote :: (s ++ behind)) = quote :: (s ++ behind.trimEnd) := by
  obtain ⟨back, hbehind, hback⟩ := trimEnd_append_blanks behind
  obtain ⟨init, rfl⟩ := hs.exists_init
  have hink : isBlank quote = false := by
    rcases hquote with rfl | rfl <;> rfl
  have hsplit : blanks ++ quote :: (init ++ [quote] ++ behind) =
      blanks ++ (quote :: (init ++ [quote] ++ behind.trimEnd) ++ back) := by
    rw [List.cons_append, List.append_assoc _ behind.trimEnd, ← hbehind]
  rw [hsplit, trim_append_of_blank hblanks (List.all_eq_true.mp hback)]
  refine trim_eq_self ?_ fun c hc => ?_
  · rintro _ ⟨⟩
    exact hink
  · cases hlast : behind.trimEnd with
    | nil =>
        rw [hlast, List.append_nil, ← List.cons_append, List.getLast?_concat] at hc
        cases hc
        exact hink
    | cons d rest =>
        rw [← List.cons_append, List.getLast?_append_of_ne_nil _ (by rw [hlast]; nofun)] at hc
        exact not_isBlank_of_trimEnd c hc

/-- **A string is the value of a filter** if it is followed by nothing; otherwise what follows is
refused. -/
theorem filterValue_string (hquote : IsQuote quote) (hs : Quotes quote s value) (start : Nat)
    (behind : Text) :
    filterValue start (quote :: (s ++ behind)) =
      if behind = [] then .ok (.string value)
      else .error ⟨start + (quote.utf8Size + size s), .textAfterQuote⟩ := by
  have hread : readQuoted quote (s ++ behind) = some (value, behind) :=
    (readQuoted_eq_some_iff hquote).mpr ⟨s, rfl, hs⟩
  unfold filterValue
  dsimp only
  rw [if_neg fun hdigit => isDigit_ne_quote hdigit hquote,
    if_pos (show quote = '\'' ∨ quote = '"' from hquote), hread]
  cases behind with
  | nil => rfl
  | cons c rest =>
      have hsize : size (quote :: (s ++ c :: rest)) - size (c :: rest) =
          quote.utf8Size + size s := by
        rw [size_cons, size_append]
        omega
      rw [if_neg (List.cons_ne_nil c rest)]
      dsimp only
      rw [hsize]

/-- The string that the search for the bracket passes over is closed. -/
theorem exists_string_of_closeFilter {cs left rest : Text}
    (hclose : closeFilter none cs = some (left ++ '=' :: (blanks ++ quote :: right), rest))
    (hleft : ∀ c ∈ left, ¬ IsQuote c) (hblanks : ∀ c ∈ blanks, isBlank c = true)
    (hquote : IsQuote quote) :
    ∃ s value behind, right = s ++ behind ∧ Quotes quote s value := by
  obtain ⟨-, hbody⟩ := closeFilter_eq_some_iff.mp hclose
  have hvalue : Outside (· ≠ ']') (quote :: right) := by
    refine Outside.of_unquoted (x := left ++ '=' :: blanks) (by simpa using hbody) fun c hc => ?_
    rcases List.mem_append.mp hc with hc | hc
    · exact hleft c hc
    · rcases List.mem_cons.mp hc with rfl | hc
      · simp [IsQuote]
      · exact not_isQuote_of_isBlank (hblanks c hc)
  cases hvalue with
  | plain _ hunquoted => exact absurd hquote hunquoted
  | quoted _ hstring => exact ⟨_, _, _, rfl, hstring⟩

/-- The body of a filter is divided behind its key, and the blanks in front of the value count for
the place of the value. -/
theorem filterBody_of_quote {offset : Nat} {left : Text} (hleft : '=' ∉ left)
    (hsome : left.trim ≠ []) (hblanks : ∀ c ∈ blanks, isBlank c = true) (hquote : IsQuote quote) :
    filterBody offset (left ++ '=' :: (blanks ++ quote :: right)) =
      (filterValue (offset + size ('[' :: (left ++ '=' :: blanks)))
        (trim (blanks ++ quote :: right))).map (.filter left.trim) := by
  obtain ⟨-, htake, hdrop⟩ := takeWhile_ne_iff.mp
    ⟨(rfl : left ++ '=' :: (blanks ++ quote :: right) = _), hleft⟩
  have hink : isBlank quote = false := by
    rcases hquote with rfl | rfl <;> rfl
  have hstart : trimStart (blanks ++ quote :: right) = quote :: right := by
    rw [trimStart, List.dropWhile_append_of_pos hblanks,
      List.dropWhile_cons_of_neg (by rw [hink]; exact Bool.false_ne_true)]
  have hplace : offset + 1 + size left + 1 +
      (size (blanks ++ quote :: right) - size (trimStart (blanks ++ quote :: right))) =
        offset + size ('[' :: (left ++ '=' :: blanks)) := by
    have hsizes : size ('[' :: (left ++ '=' :: blanks)) = 1 + (size left + (1 + size blanks)) := by
      rw [size_cons, size_append]
      rfl
    rw [hstart, size_append, Nat.add_sub_cancel, hsizes]
    omega
  unfold filterBody
  rw [if_pos (by simp)]
  dsimp only
  rw [htake, hdrop, if_neg (by simpa using hsome), hplace]

end Strings

/-- **Both scans of a string end it at the same quote.** In a filter that is closed, with no quote in
front of the one that starts its value, the string is closed. If nothing but blanks follows the quote
that closes it, it is the value of the filter; otherwise what follows is refused, right behind that
quote, and so is the path if it is read up to the filter. -/
theorem filterValue_of_closeFilter {cs left blanks right rest : Text} {quote : Char} (front : Text)
    (hclose : closeFilter none cs = some (left ++ '=' :: (blanks ++ quote :: right), rest))
    (hkey : ∀ c ∈ left, c ≠ '=' ∧ ¬ IsQuote c) (hblanks : ∀ c ∈ blanks, isBlank c = true)
    (hquote : IsQuote quote) :
    ∃ s value behind, right = s ++ behind ∧ Quotes quote s value ∧
      (behind.allBlank = true →
        filterValue (size (front ++ '[' :: (left ++ '=' :: blanks)))
            (trim (blanks ++ quote :: right)) = .ok (.string value) ∧
          (left.trim ≠ [] → nextSegment (size front) '[' cs =
            .ok (some (.filter left.trim (.string value)), rest))) ∧
      (behind.allBlank = false → ∃ position,
        position = size (front ++ '[' :: (left ++ '=' :: (blanks ++ quote :: s))) ∧
          filterValue (size (front ++ '[' :: (left ++ '=' :: blanks)))
            (trim (blanks ++ quote :: right)) = .error ⟨position, .textAfterQuote⟩ ∧
          (left.trim ≠ [] → ∀ pieces steps, Reads (front ++ '[' :: cs) pieces ('[' :: cs) →
            List.Forall₂ (Means FirstOfAll) pieces steps →
              parse (front ++ '[' :: cs) = .error ⟨position, .textAfterQuote⟩)) := by
  obtain ⟨s, value, behind, rfl, hs⟩ :=
    exists_string_of_closeFilter hclose (fun c hc => (hkey c hc).2) hblanks hquote
  have hnext : left.trim ≠ [] → nextSegment (size front) '[' cs =
      ((filterValue (size (front ++ '[' :: (left ++ '=' :: blanks)))
        (trim (blanks ++ quote :: (s ++ behind)))).map (.filter left.trim)).map
          fun segment => (some segment, rest) := by
    intro hsome
    unfold nextSegment
    rw [if_neg (by decide), if_pos rfl, hclose]
    dsimp only
    rw [filterBody_of_quote (fun h => (hkey _ h).1 rfl) hsome hblanks hquote, size_append front]
  have hvalue := filterValue_string hquote hs (size (front ++ '[' :: (left ++ '=' :: blanks)))
    behind.trimEnd
  rw [← trim_string hquote hs hblanks] at hvalue
  refine ⟨s, value, behind, rfl, hs, fun hblank => ?_, fun hink => ⟨_, rfl, ?_⟩⟩
  · rw [if_pos (trimEnd_eq_nil_iff.mpr hblank)] at hvalue
    refine ⟨hvalue, fun hsome => ?_⟩
    rw [hnext hsome, hvalue]
    rfl
  · have hplace : size (front ++ '[' :: (left ++ '=' :: blanks)) + (quote.utf8Size + size s) =
        size (front ++ '[' :: (left ++ '=' :: (blanks ++ quote :: s))) := by
      simp only [size_append, size_cons]
      omega
    rw [if_neg (fun h => Bool.false_ne_true (hink.symm.trans (trimEnd_eq_nil_iff.mp h))),
      hplace] at hvalue
    refine ⟨hvalue, fun hsome pieces steps hreads hall => parse_eq_error_iff.mpr ?_⟩
    rw [segmentsFrom_of_reads hreads hall, size_append, Nat.add_sub_cancel, Nat.zero_add,
      segmentsFrom_eq, hnext hsome, hvalue]
    rfl

/-- A string that holds a bracket, the other quote and a quote of its own, with a letter behind it: the
bracket is found behind the letter, and the letter is refused, at the place behind the string. -/
theorem filterValue_of_closeFilter_letter :
    closeFilter none "k = \"a]'\\\"\" x].3".toList =
        some ("k = \"a]'\\\"\" x".toList, ".3".toList) ∧
      filterValue 7 "\"a]'\\\"\" x".toList = .error ⟨14, .textAfterQuote⟩ ∧
      parse ('é' :: '[' :: "k = \"a]'\\\"\" x].3".toList) = .error ⟨14, .textAfterQuote⟩ := by
  have hclose : closeFilter none "k = \"a]'\\\"\" x].3".toList =
      some (['k', ' '] ++ '=' :: ([' '] ++ '"' :: "a]'\\\"\" x".toList), ".3".toList) := by
    decide +kernel
  have hstring : Quotes '"' "a]'\\\"\"".toList "a]'\"".toList :=
    .plain (by decide) (by decide) (.plain (by decide) (by decide)
      (.plain (by decide) (by decide) (.escaped .close)))
  obtain ⟨s, value, behind, hright, hs, -, hrefused⟩ :=
    filterValue_of_closeFilter ['é'] hclose (by simp [IsQuote]) (by simp [isBlank]) (.inr rfl)
  obtain ⟨rfl, rfl⟩ := hs.unique (.inr rfl) hstring hright.symm
  obtain ⟨position, hposition, hvalue, hparse⟩ := hrefused (by decide)
  have hplace : size (['é'] ++ '[' :: (['k', ' '] ++ '=' :: [' '])) = 7 := by decide
  have htrim : trim ([' '] ++ '"' :: "a]'\\\"\" x".toList) = "\"a]'\\\"\" x".toList := by decide
  have hbehind : size (['é'] ++ '[' :: (['k', ' '] ++ '=' ::
      ([' '] ++ '"' :: "a]'\\\"\"".toList))) = 14 := by decide
  rw [hbehind] at hposition
  rw [hposition, hplace, htrim] at hvalue
  rw [hposition] at hparse
  exact ⟨hclose, hvalue, hparse (by decide) _ _
    (.piece (.word rfl (by simp) (by simp [isDigit]) (by simp) (by simp)) (.here _)) (.cons .key .nil)⟩

end Selector

end YamlEdit
