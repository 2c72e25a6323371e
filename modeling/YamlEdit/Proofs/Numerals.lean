import YamlEdit.Text.Basic

/-!
# Numerals

A number is written with decimal digits, and the digits are read from the left. What is written is
read back (`Text.ofDigitChars_ofNat`), and the first digit of a positive number is not zero
(`Text.ne_zero_of_head_ofNat`).
-/

namespace YamlEdit

namespace Text

theorem isDigit_eq (c : Char) : isDigit c = c.isDigit := rfl

theorem isBlank_of_isDigit {c : Char} (h : isDigit c = true) : isBlank c = false := by
  rw [isDigit, Bool.and_eq_true, decide_eq_true_iff, decide_eq_true_iff] at h
  have hlow : 48 ≤ c.toNat := h.1
  have hhigh : c.toNat ≤ 57 := h.2
  simp only [isBlank, Bool.or_eq_false_iff, Bool.and_eq_false_iff, decide_eq_false_iff_not,
    beq_eq_false_iff_ne]
  omega

/-- Digits are read from the left, each one making the number ten times greater. -/
theorem toNatDigits_eq (digits : Text) : toNatDigits digits = Nat.ofDigitChars 10 digits 0 :=
  Nat.ofDigitChars_eq_foldl.symm

@[simp] theorem ofDigitChars_ofNat (n : Nat) : Nat.ofDigitChars 10 (ofNat n) 0 = n :=
  Nat.ofDigitChars_ten_toDigits

@[simp] theorem ofNat_ne_nil (n : Nat) : ofNat n ≠ [] := Nat.toDigits_ne_nil

theorem isDigit_of_mem_ofNat {n : Nat} {c : Char} (h : c ∈ ofNat n) : isDigit c = true := by
  rw [isDigit_eq]
  exact Nat.isDigit_of_mem_toDigits (by decide) (by decide) h

/-- More digits make a number no smaller. -/
theorem le_ofDigitChars (digits : Text) (n : Nat) : n ≤ Nat.ofDigitChars 10 digits n := by
  induction digits generalizing n with
  | nil => exact Nat.le_refl n
  | cons c digits ih =>
      rw [Nat.ofDigitChars_cons]
      exact Nat.le_trans (by omega) (ih _)

/-- The last digit comes off the end. -/
theorem ofNat_eq (n : Nat) :
    ofNat n = if n < 10 then [n.digitChar] else ofNat (n / 10) ++ [(n % 10).digitChar] :=
  Nat.toDigits_eq_if (by decide)

/-- No positive number starts with a zero. -/
theorem ne_zero_of_head_ofNat {n : Nat} (hn : 0 < n) : ∀ c ∈ (ofNat n).head?, c ≠ '0' := by
  induction n using Nat.strongRecOn with
  | _ n ih =>
    rw [ofNat_eq]
    split
    · next hsmall =>
        have hdigit : ∀ m < 10, 0 < m → Nat.digitChar m ≠ '0' := by decide
        rintro c ⟨⟩
        exact hdigit n hsmall hn
    · next hlarge =>
        obtain ⟨c, cs, hcons⟩ := List.exists_cons_of_ne_nil (ofNat_ne_nil (n / 10))
        have hfirst := ih (n / 10) (by omega) (by omega)
        rw [hcons] at hfirst ⊢
        exact hfirst

end Text

end YamlEdit
