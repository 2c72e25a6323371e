import YamlEdit.Proofs.Offsets

/-!
# The name in front of a place

The name of an anchor is looked for where its node starts: right there, or in front of it with blanks
and at most one tag between (`Extent.IsNamed`). The search reads the text from its end, one property
after the other (`Extent.EndsWith`).

Main statement: `Extent.anchorLabel_eq_some`.
-/

namespace YamlEdit

/-- A text in front of the first character that is not `p`, and from there on. -/
theorem Text.takeWhile_dropWhile_iff {p : Char → Bool} {t x y : Text} :
    t.takeWhile p = x ∧ t.dropWhile p = y ↔
      t = x ++ y ∧ (∀ c ∈ x, p c = true) ∧ ∀ c ∈ y.head?, p c = false := by
  constructor
  · rintro ⟨rfl, rfl⟩
    refine ⟨List.takeWhile_append_dropWhile.symm, List.all_eq_true.mp List.all_takeWhile, ?_⟩
    intro c hc
    have hnot := List.head?_dropWhile_not p t
    rwa [Option.mem_def.mp hc] at hnot
  · rintro ⟨rfl, hx, hy⟩
    rw [List.takeWhile_append_of_pos hx, List.dropWhile_append_of_pos hx]
    cases y with
    | nil => simp
    | cons c y => simp [hy c rfl]

namespace Extent

/-- Whether the last thing in front of a place is a property, blanks aside. Both texts are read from
their ends: `before` is in front of the place, and `rest` in front of the property. -/
structure EndsWith (property rest before : Text) : Prop where
  split : ∃ gap, before = gap ++ (property.reverse ++ rest) ∧ ∀ c ∈ gap, Text.isBlank c = true
  last : ∀ c ∈ property.getLast?, Text.isBlank c = false
  word : ∀ c ∈ property, isPropertyBoundary c = false
  start : ∀ c ∈ rest.head?, isPropertyBoundary c = true

theorem endsWith_iff {property rest before : Text} (hne : property ≠ []) :
    EndsWith property rest before ↔
      ((before.dropWhile Text.isBlank).takeWhile (!isPropertyBoundary ·)).reverse = property ∧
        (before.dropWhile Text.isBlank).dropWhile (!isPropertyBoundary ·) = rest := by
  obtain ⟨last, init, hproperty⟩ := List.exists_cons_of_ne_nil (List.reverse_ne_nil_iff.mpr hne)
  have hlast : property.getLast? = some last := by
    rw [List.getLast?_eq_head?_reverse, hproperty]
    rfl
  rw [List.reverse_eq_iff, Text.takeWhile_dropWhile_iff]
  constructor
  · rintro ⟨⟨gap, hbefore, hgap⟩, hblank, hword, hstart⟩
    have hfirst : ∀ c ∈ (property.reverse ++ rest).head?, Text.isBlank c = false := by
      rw [hproperty]
      rintro c ⟨⟩
      exact hblank _ hlast
    rw [(Text.takeWhile_dropWhile_iff.mpr ⟨hbefore, hgap, hfirst⟩).2]
    refine ⟨rfl, fun c hc => ?_, fun c hc => by rw [hstart c hc]; rfl⟩
    rw [hword c (List.mem_reverse.mp hc)]
    rfl
  · rintro ⟨hhead, hword, hstart⟩
    obtain ⟨hbefore, hgap, hblank⟩ := Text.takeWhile_dropWhile_iff.mp ⟨rfl, hhead⟩
    refine ⟨⟨_, hbefore, hgap⟩, fun c hc => ?_, fun c hc => ?_, fun c hc => ?_⟩
    · rw [hlast] at hc
      cases hc
      exact hblank _ (by rw [hproperty]; rfl)
    · simpa using hword c (List.mem_reverse.mpr hc)
    · simpa using hstart c hc

/-- **The name in front of a place** is the last property, or the one in front of a tag. -/
theorem labelBefore_eq_some {tries : Nat} {before name : Text} :
    labelBefore (tries + 1) before = some name ↔
      (name ≠ [] ∧ ∃ rest, EndsWith ('&' :: name) rest before) ∨
        ∃ tag rest, EndsWith ('!' :: tag) rest before ∧ labelBefore tries rest = some name := by
  simp only [endsWith_iff (List.cons_ne_nil _ _)]
  rw [labelBefore]
  generalize ((before.dropWhile Text.isBlank).takeWhile (!isPropertyBoundary ·)).reverse = word
  generalize (before.dropWhile Text.isBlank).dropWhile (!isPropertyBoundary ·) = behind
  split
  · next own =>
      cases own with
      | nil => simp
      | cons c own =>
          simp only [List.isEmpty_cons, Bool.false_eq_true, if_false, Option.some.injEq]
          constructor
          · rintro rfl
            exact .inl ⟨List.cons_ne_nil _ _, behind, rfl, rfl⟩
          · rintro (⟨-, _, hname, -⟩ | ⟨_, _, ⟨htag, -⟩, -⟩)
            · exact List.tail_eq_of_cons_eq hname
            · cases htag
  · next tag =>
      constructor
      · intro h
        exact .inr ⟨tag, behind, ⟨rfl, rfl⟩, h⟩
      · rintro (⟨-, _, hname, -⟩ | ⟨_, _, ⟨-, rfl⟩, h⟩)
        · cases hname
        · exact h
  · next hanchor htag =>
      refine ⟨nofun, ?_⟩
      rintro (⟨-, _, hname, -⟩ | ⟨_, _, ⟨hname, -⟩, -⟩)
      · exact (hanchor _ hname).elim
      · exact (htag _ hname).elim

/-- Whether an anchor of this name stands at a place, or in front of it with no more than a tag and
blanks between. -/
inductive IsNamed (source : Text) (place : Nat) (name : Text) : Prop where
  | here {front rest : Text} (hsource : source = front ++ '&' :: rest)
      (hplace : Text.size front = place) (hname : rest.takeWhile isNameChar = name)
      (hne : name ≠ [])
  | before {front back rest : Text} (hsource : source = front ++ back)
      (hplace : Text.size front = place) (hnot : back.head? ≠ some '&')
      (hends : EndsWith ('&' :: name) rest front.reverse) (hne : name ≠ [])
  | beforeTag {front back tag middle rest : Text} (hsource : source = front ++ back)
      (hplace : Text.size front = place) (hnot : back.head? ≠ some '&')
      (htag : EndsWith ('!' :: tag) middle front.reverse)
      (hends : EndsWith ('&' :: name) rest middle) (hne : name ≠ [])

/-- One try is left behind a tag. -/
theorem labelBefore_two {before name : Text} :
    labelBefore 2 before = some name ↔
      name ≠ [] ∧ ((∃ rest, EndsWith ('&' :: name) rest before) ∨
        ∃ tag middle rest, EndsWith ('!' :: tag) middle before ∧
          EndsWith ('&' :: name) rest middle) := by
  rw [labelBefore_eq_some]
  constructor
  · rintro (⟨hne, h⟩ | ⟨tag, middle, htag, h⟩)
    · exact ⟨hne, .inl h⟩
    · rcases labelBefore_eq_some.mp h with ⟨hne, rest, hends⟩ | ⟨_, _, -, h⟩
      · exact ⟨hne, .inr ⟨tag, middle, rest, htag, hends⟩⟩
      · cases h
  · rintro ⟨hne, h | ⟨tag, middle, rest, htag, hends⟩⟩
    · exact .inl ⟨hne, h⟩
    · exact .inr ⟨tag, middle, htag, labelBefore_eq_some.mpr (.inl ⟨hne, rest, hends⟩)⟩

/-- **The name that is found** is the one that stands there. -/
theorem anchorLabel_eq_some {source : Text} {place : Nat} {name : Text} :
    anchorLabel source place = .ok (some name) ↔ IsNamed source place name := by
  have hhere : ∀ {front rest : Text}, source = front ++ '&' :: rest → Text.size front = place →
      anchorLabel source place = .ok (if (rest.takeWhile isNameChar).isEmpty then none
        else some (rest.takeWhile isNameChar)) := by
    intro front rest hsource hplace
    have hcut : source.cutAt place = .ok ⟨front.reverse, '&' :: rest⟩ :=
      Text.cutAt_eq_ok.mpr (by simpa using ⟨hsource, hplace⟩)
    rw [anchorLabel, hcut]
    rfl
  have hbefore : ∀ {front back : Text}, source = front ++ back → Text.size front = place →
      back.head? ≠ some '&' → anchorLabel source place = .ok (labelBefore 2 front.reverse) := by
    intro front back hsource hplace hnot
    have hcut : source.cutAt place = .ok ⟨front.reverse, back⟩ :=
      Text.cutAt_eq_ok.mpr (by simpa using ⟨hsource, hplace⟩)
    rw [anchorLabel, hcut, ok_bind]
    dsimp only
    split
    · exact absurd rfl hnot
    · rfl
  constructor
  · intro h
    obtain ⟨cut, hcutAt, -⟩ := bind_eq_ok.mp h
    obtain ⟨hsource, hplace⟩ := Text.cutAt_eq_ok.mp hcutAt
    by_cases hhead : cut.after.head? = some '&'
    · obtain ⟨rest, hrest⟩ := List.head?_eq_some_iff.mp hhead
      rw [hrest] at hsource
      rw [hhere hsource hplace] at h
      by_cases hempty : rest.takeWhile isNameChar = []
      · rw [hempty] at h
        cases h
      · rw [if_neg (by simpa using hempty)] at h
        cases h
        exact .here hsource hplace rfl hempty
    · rw [hbefore hsource hplace hhead] at h
      obtain ⟨hne, ⟨rest, hends⟩ | ⟨tag, middle, rest, htag, hends⟩⟩ :=
        labelBefore_two.mp (Except.ok.inj h)
      · exact .before hsource hplace hhead hends hne
      · exact .beforeTag hsource hplace hhead htag hends hne
  · intro h
    cases h with
    | @here front rest hsource hplace hname hne =>
        rw [hhere hsource hplace]
        simp [hname, hne]
    | @before front back rest hsource hplace hnot hends hne =>
        rw [hbefore hsource hplace hnot, labelBefore_two.mpr ⟨hne, .inl ⟨rest, hends⟩⟩]
    | @beforeTag front back tag middle rest hsource hplace hnot htag hends hne =>
        rw [hbefore hsource hplace hnot,
          labelBefore_two.mpr ⟨hne, .inr ⟨tag, middle, rest, htag, hends⟩⟩]

end Extent

end YamlEdit
