import YamlEdit.Proofs.Paths

/-!
# Removals

What a removal should leave of an outline (`Outline.Removed`), and the comma that goes with an entry
in brackets. An entry is taken to start where its first node does, which is behind the properties of
that node, so that these stay behind.
-/

namespace YamlEdit

namespace Outline

/-! ## Outlines without an entry -/

/-- Whether this is a mapping. -/
def isMapping : Outline → Bool
  | group (.mapping _) _ => true
  | _ => false

/-- The number of the first child of the entry whose last child is number `index`: a pair starts
with its key. -/
def entryStart (o : Outline) (index : Nat) : Nat := if o.isMapping then index - 1 else index

/-- Takes out the entry whose last child is number `index`. -/
def eraseEntry (index : Nat) (o : Outline) : Outline :=
  o.eraseChildren (o.entryStart index) (index - o.entryStart index + 1)

/-- Whether there is no other entry than the one whose last child is number `index`. -/
def OnlyEntry (index : Nat) (o : Outline) : Prop := (o.eraseEntry index).children = []

/-- What can be left of an outline without an entry of the collection at an address. The last entry
of all leaves an empty collection in brackets or a missing value, or takes the only document
along. -/
inductive Removed (o : Outline) (a : Address) (i : Nat) : Outline → Prop where
  | entry {x : Outline} (hx : o.at? a = some x) (hmore : ¬ x.OnlyEntry i) :
      Removed o a i (o.modify (eraseEntry i) a)
  | emptied {x : Outline} (hx : o.at? a = some x) (honly : x.OnlyEntry i) :
      Removed o a i
        (o.replace a (.group (if x.isMapping then .mapping .flow else .sequence .flow) []))
  | missing {x : Outline} (hx : o.at? a = some x) (honly : x.OnlyEntry i) :
      Removed o a i (o.replace a (.scalar []))
  | nothing {x : Outline} (ho : o = stream [x]) (ha : a = [0, 0]) (honly : x.OnlyEntry i) :
      Removed o a i (stream [])

end Outline

theorem Node.isMapping_outline (n : Node) : n.outline.isMapping = n.isMapping := by
  obtain ⟨kind, start, stop, anchor, children⟩ := n
  cases kind <;> rfl

namespace Plan

/-! ## The comma behind an entry -/

/-- The comma that follows, behind blanks. -/
theorem afterComma_eq_some {rest after : Text} (h : Flow.afterComma rest = some after) :
    ∃ gap : Text, rest = gap ++ ',' :: after ∧ gap.allBlank = true := by
  unfold Flow.afterComma at h
  split at h
  · next hdrop =>
      cases h
      refine ⟨rest.takeWhile Text.isAsciiBlank, ?_, ?_⟩
      · rw [← hdrop, List.takeWhile_append_dropWhile]
      · refine List.all_eq_true.mpr fun c hc => Text.isBlank_of_isAsciiBlank ?_
        exact List.all_eq_true.mp List.all_takeWhile c hc
  · cases h

/-- The first line of a text that has more than one. -/
theorem takeWhile_append_of_contains {t : Text} (h : t.contains '\n' = true) :
    ∃ back : Text, t = t.takeWhile (· ≠ '\n') ++ '\n' :: back := by
  induction t with
  | nil => cases h
  | cons c t ih =>
      by_cases hc : c = '\n'
      · subst hc
        exact ⟨t, by simp⟩
      · obtain ⟨back, hback⟩ := ih (by simpa [Ne.symm hc] using h)
        exact ⟨back, by rw [List.takeWhile_cons_of_pos (by simpa using hc), List.cons_append,
          ← hback]⟩

end Plan

/-! ## What is left -/

/-- The anchor of an item stays behind, with a missing value of its own. -/
theorem delete_of_anchored_item_leaves_anchor :
    ∃ e e' text, Editor.edit "[b, &x a]\n".toList (.delete "1".toList) = some (e, e', text) ∧
      e.snapshot.addressOf "1".toList = some ([0, 0] ++ [1]) ∧
      e.snapshot.entryStyle? ([0, 0] ++ [1]) = some .flow ∧ text = "[b, &x ]\n".toList ∧
      ¬ Outline.Removed e.snapshot.outline [0, 0] 1 e'.snapshot.outline := by
  obtain ⟨e, e', text, hedit, hpath, hstyle, htext, hone, hsigns⟩ :=
    Editor.exists_edit "[b, &x a]\n".toList (.delete "1".toList)
    (P := fun e e' text => e.snapshot.addressOf "1".toList = some ([0, 0] ++ [1]) ∧
      e.snapshot.entryStyle? ([0, 0] ++ [1]) = some .flow ∧ text = "[b, &x ]\n".toList ∧
      (e.snapshot.outline.at? [0, 0]).map
        (fun x => (x.eraseEntry 1).children.length) = some 1 ∧
      e'.snapshot.outline.signs ≠
        (e.snapshot.outline.modify (Outline.eraseEntry 1) [0, 0]).signs)
    (by decide +kernel)
  refine ⟨e, e', text, hedit, hpath, hstyle, htext, ?_⟩
  -- one item is left, so only the first way to remove the other could be the one
  have hmore : ∀ {x}, e.snapshot.outline.at? [0, 0] = some x → ¬ x.OnlyEntry 1 := by
    intro x hx honly
    rw [hx, Option.map_some, honly] at hone
    cases hone
  generalize ho : e'.snapshot.outline = o at hsigns
  intro h
  cases h with
  | entry hx _ => exact hsigns rfl
  | emptied hx honly => exact hmore hx honly
  | missing hx honly => exact hmore hx honly
  | @nothing x hx _ honly =>
      refine hmore (x := x) ?_ honly
      rw [hx]
      rfl

end YamlEdit
