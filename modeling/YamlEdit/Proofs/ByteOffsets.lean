import YamlEdit.Proofs.ExtentBounds

/-!
# Texts as bytes

An offset counts bytes, and a search may look at the byte that stands there. All bytes of a character
that takes more than one are beyond ASCII, so a byte that is an ASCII character stands for that
character (`Text.getElem?_bytes_eq_iff`), and at an offset inside of a character no search finds one
(`Text.getElem?_bytes_ne_of_not_isBoundary`).
-/

namespace YamlEdit

/-- The bytes of a text. -/
abbrev Bytes := List UInt8

namespace Text

/-- The UTF-8 form of a text. -/
def bytes (t : Text) : Bytes := t.flatMap String.utf8EncodeChar

variable {x y t : Text} {c a : Char} {n k : Nat}

theorem bytes_cons (c : Char) (t : Text) : bytes (c :: t) = String.utf8EncodeChar c ++ bytes t :=
  List.flatMap_cons

theorem bytes_append (x y : Text) : (x ++ y).bytes = x.bytes ++ y.bytes := List.flatMap_append

theorem length_bytes (t : Text) : t.bytes.length = size t := by
  induction t with
  | nil => rfl
  | cons c t ih => rw [bytes_cons, List.length_append, String.length_utf8EncodeChar, ih, size_cons]

/-- What stays the same from each byte of a character to the next is the same behind the character. -/
theorem eq_behind_char {α : Type} {f : Nat → α} (hk : k ≤ c.utf8Size)
    (hstep : ∀ j, k ≤ j → j < c.utf8Size → f (size x + j) = f (size x + j + 1)) :
    f (size x + k) = f (size (x ++ [c])) := by
  rw [size_concat]
  induction hn : c.utf8Size - k generalizing k with
  | zero => rw [Nat.le_antisymm hk (Nat.sub_eq_zero_iff_le.mp hn)]
  | succ n ih =>
      have hlt : k < c.utf8Size := by omega
      rw [hstep k (Nat.le_refl k) hlt, Nat.add_assoc]
      exact ih hlt (fun j hj => hstep j (Nat.le_of_succ_le hj)) (by omega)

/-- Every offset in front of the end lies in a character. -/
theorem exists_char_of_lt (h : n < size t) :
    ∃ x c y k, t = x ++ c :: y ∧ n = size x + k ∧ k < c.utf8Size := by
  induction t generalizing n with
  | nil => cases h
  | cons c t ih =>
      by_cases hn : n < c.utf8Size
      · exact ⟨[], c, t, n, rfl, by simp, hn⟩
      · rw [size_cons] at h
        obtain ⟨x, d, y, k, rfl, hk, hlt⟩ := ih (n := n - c.utf8Size) (by omega)
        exact ⟨c :: x, d, y, k, rfl, by rw [size_cons]; omega, hlt⟩

/-- The bytes of a character stand at its place. -/
theorem getElem?_bytes (hk : k < c.utf8Size) :
    (x ++ c :: y).bytes[size x + k]? = (String.utf8EncodeChar c)[k]? := by
  rw [bytes_append, bytes_cons, ← length_bytes, List.getElem?_append_right (Nat.le_add_right _ _),
    Nat.add_sub_cancel_left, List.getElem?_append_left (by rwa [String.length_utf8EncodeChar])]

/-- The bytes of a character that takes more than one are beyond ASCII. -/
theorem le_of_mem_utf8EncodeChar (hc : c.utf8Size ≠ 1) :
    ∀ b ∈ String.utf8EncodeChar c, 128 ≤ b.toNat := by
  have hlong : ¬ c.val.toNat ≤ 127 := fun hle =>
    hc (Char.utf8Size_eq_one_iff.mpr (UInt32.le_iff_toNat_le.mpr hle))
  rw [String.utf8EncodeChar, if_neg hlong]
  -- every byte is a remainder with a mark of at least 128 added
  split
  · simp only [List.forall_mem_cons, UInt8.toNat_ofNat', List.not_mem_nil, false_implies,
      implies_true, and_true]
    omega
  split <;>
    simp only [List.forall_mem_cons, UInt8.toNat_ofNat', List.not_mem_nil, false_implies,
      implies_true, and_true] <;>
    omega

theorem toNat_toUInt8 (hc : c.utf8Size = 1) : c.toUInt8.toNat = c.toNat ∧ c.toNat < 128 := by
  have hle : c.val.toNat ≤ 127 := UInt32.le_iff_toNat_le.mp (Char.utf8Size_eq_one_iff.mp hc)
  have hval : c.toNat = c.val.toNat := rfl
  refine ⟨?_, by omega⟩
  rw [← Char.toUInt8_val, UInt32.toNat_toUInt8]
  omega

/-- **An ASCII byte is a character**, and no part of a longer one. -/
theorem getElem?_bytes_eq_iff (ha : a.utf8Size = 1) (hk : k < c.utf8Size) :
    (x ++ c :: y).bytes[size x + k]? = some a.toUInt8 ↔ k = 0 ∧ c = a := by
  obtain ⟨hbyte, hascii⟩ := toNat_toUInt8 ha
  rw [getElem?_bytes hk]
  by_cases hc : c.utf8Size = 1
  · obtain ⟨hbyte', -⟩ := toNat_toUInt8 hc
    obtain rfl : k = 0 := by omega
    have hinj : c.toUInt8 = a.toUInt8 ↔ c = a := by
      rw [← UInt8.toNat_inj, hbyte, hbyte', Char.toNat_inj]
    rw [String.utf8EncodeChar_eq_singleton hc]
    simpa using hinj
  · constructor
    · intro h
      have := le_of_mem_utf8EncodeChar hc _ (List.mem_of_getElem? h)
      omega
    · rintro ⟨-, rfl⟩
      exact absurd ha hc

/-- The byte at a character that takes one byte. -/
theorem getElem?_bytes_iff (ha : a.utf8Size = 1) :
    (x ++ y).bytes[size x]? = some a.toUInt8 ↔ y.head? = some a := by
  cases y with
  | nil =>
      rw [List.append_nil, ← length_bytes, List.getElem?_eq_none (Nat.le_refl _)]
      exact iff_of_false nofun nofun
  | cons c y =>
      have := getElem?_bytes_eq_iff (x := x) (y := y) ha c.utf8Size_pos
      rw [Nat.add_zero] at this
      rw [this, List.head?_cons, Option.some.injEq]
      exact and_iff_right rfl

/-- No ASCII character starts inside of a character, or past the end. -/
theorem getElem?_bytes_ne_of_not_isBoundary (ha : a.utf8Size = 1) (h : ¬ t.IsBoundary n) :
    t.bytes[n]? ≠ some a.toUInt8 := by
  by_cases hn : n < size t
  · obtain ⟨x, c, y, k, rfl, rfl, hk⟩ := exists_char_of_lt hn
    rw [Ne, getElem?_bytes_eq_iff ha hk]
    rintro ⟨rfl, -⟩
    exact h isBoundary_append
  · rw [List.getElem?_eq_none (by rw [length_bytes]; omega)]
    nofun

end Text

end YamlEdit
