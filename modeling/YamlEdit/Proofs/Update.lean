import YamlEdit.Proofs.Paths
import YamlEdit.Proofs.Planning

/-!
# Replaced values and keys

An update puts a node in place of another one, and a renaming puts a scalar in place of a key. A path
of keys and indices looks at nothing but the keys on its way, so that it still leads to its target
after that has been replaced. Main statement: `Snapshot.addressOf_replace`.

The new text does not always say what has been put in. Lines that start with blanks are moved too
far when they are written below a key, and a comma in a string that has no quotes ends an entry in
brackets.
-/

namespace YamlEdit

namespace Snapshot

/-- **A path still leads to its target after that is replaced**, unless an alias is put there. -/
theorem addressOf_replace {s s' : Snapshot} {path : Text} {a : Address} {i : Nat} {x : Outline}
    (h : s.addressOf path = some (a ++ [i])) (ha : a ≠ [0])
    (houtline : s'.outline = s.outline.replace (a ++ [i]) x) :
    s'.addressOf path = some (a ++ [i]) ↔ x.isReference = false := by
  obtain ⟨selector, content, b, hselector, hcontent, href, hb, hab⟩ := addressOf_eq_some.mp h
  have hb' : b ≠ [] := by
    rintro rfl
    exact ha (List.append_inj_left' hab rfl)
  obtain ⟨y, hy⟩ := Outline.at?_of_walk hb
  have hcontent' : s'.outline.at? [0, 0] = some (content.replace b x) := by
    rw [houtline, hab]
    exact Outline.at?_modify_append hcontent b
  have hgroup : (content.replace b x).isReference = false := by
    cases b with
    | nil => exact absurd rfl hb'
    | cons j c =>
        obtain ⟨bracket, l, child, rfl, -, -⟩ := Outline.at?_cons_eq_some.mp hy
        rfl
  have hwalk := Outline.walk_replace (x := x) hb hb'
  simp only [addressOf, hselector, hcontent', hgroup, hwalk, hab]
  cases x.isReference <;> simp

end Snapshot

/-- What an update should come to: the path leads to where it did, what is there decodes to the
new value, and everything else says what it said. -/
structure ReadsBack (before after : Editor) (path : Text) (a : Address) (v : Value) : Prop where
  located : after.snapshot.addressOf path = some a
  decodes : ∃ w, after.value path = .ok w ∧ Value.same w v = true
  elsewhere : ∃ x, after.snapshot.outline = before.snapshot.outline.replace a x

/-- Lines that start with blanks are not read back: the indentation that the written block scalar
announces is not the one that its lines are moved to. -/
theorem update_of_indented_lines_misreads :
    ∃ e e' text,
      Editor.edit "a: 1\n".toList (.update "a".toList (.string "  x\ny".toList)) =
        some (e, e', text) ∧
      e.snapshot.addressOf "a".toList = some [0, 0, 1] ∧
      e.snapshot.entryStyle? [0, 0, 1] = some .block ∧
      text = "a: |2-\n      x\n    y\n".toList ∧
      ¬ ReadsBack e e' "a".toList [0, 0, 1] (.string "  x\ny".toList) := by
  obtain ⟨e, e', text, hedit, hpath, hstyle, htext, hvalue⟩ := Editor.exists_edit "a: 1\n".toList
    (.update "a".toList (.string "  x\ny".toList))
    (P := fun e e' text => e.snapshot.addressOf "a".toList = some [0, 0, 1] ∧
      e.snapshot.entryStyle? [0, 0, 1] = some .block ∧
      text = "a: |2-\n      x\n    y\n".toList ∧
      (e'.value "a".toList).toOption.map (Value.same · (.string "  x\ny".toList)) = some false)
    (by decide +kernel)
  refine ⟨e, e', text, hedit, hpath, hstyle, htext, fun h => ?_⟩
  obtain ⟨w, hw, hsame⟩ := h.decodes
  obtain ⟨w', hw', hother⟩ := toOption_map_eq_some.mp hvalue
  cases hw.symm.trans hw'
  cases hsame.symm.trans hother

/-- A comma in a string that is written without quotes makes two items out of one. -/
theorem update_with_comma_splits :
    ∃ e e' text,
      Editor.edit "[x]\n".toList (.update "0".toList (.string "a, b".toList)) =
        some (e, e', text) ∧
      e.snapshot.addressOf "0".toList = some [0, 0, 0] ∧
      e.snapshot.entryStyle? [0, 0, 0] = some .flow ∧ text = "[a, b]\n".toList ∧
      ¬ ReadsBack e e' "0".toList [0, 0, 0] (.string "a, b".toList) := by
  obtain ⟨e, e', text, hedit, hpath, hstyle, htext, hvalue⟩ := Editor.exists_edit "[x]\n".toList
    (.update "0".toList (.string "a, b".toList))
    (P := fun e e' text => e.snapshot.addressOf "0".toList = some [0, 0, 0] ∧
      e.snapshot.entryStyle? [0, 0, 0] = some .flow ∧ text = "[a, b]\n".toList ∧
      (e'.value "0".toList).toOption.map (Value.same · (.string "a, b".toList)) = some false)
    (by decide +kernel)
  refine ⟨e, e', text, hedit, hpath, hstyle, htext, fun h => ?_⟩
  obtain ⟨w, hw, hsame⟩ := h.decodes
  obtain ⟨w', hw', hother⟩ := toOption_map_eq_some.mp hvalue
  cases hw.symm.trans hw'
  cases hsame.symm.trans hother

/-- What a renaming should come to: the key at an address is a scalar with the new name, which
decodes to that string, and everything else says what it said. -/
structure KeyRenamed (before after : Editor) (a : Address) (name : Text) : Prop where
  outline : after.snapshot.outline = before.snapshot.outline.replace a (.scalar name)
  decodes : after.snapshot.Decodes a (.string name)

/-- A comma in a name that is written without quotes parts it from the value. -/
theorem rename_to_name_with_comma_splits :
    ∃ e e' text,
      Editor.edit "\x7ba: 1\x7d\n".toList (.rename "a".toList "x, y".toList) =
        some (e, e', text) ∧
      e.snapshot.addressOf "a".toList = some ([0, 0] ++ [1]) ∧
      (e.snapshot.outline.at? [0, 0]).map Outline.signs = some
        (Outline.group (.mapping .flow) [.scalar "a".toList, .scalar "1".toList]).signs ∧
      text = "\x7bx, y: 1\x7d\n".toList ∧ ¬ KeyRenamed e e' [0, 0, 0] "x, y".toList := by
  obtain ⟨e, e', text, hedit, hpath, hpairs, htext, hvalue⟩ :=
    Editor.exists_edit "\x7ba: 1\x7d\n".toList (.rename "a".toList "x, y".toList)
    (P := fun e e' text => e.snapshot.addressOf "a".toList = some ([0, 0] ++ [1]) ∧
      (e.snapshot.outline.at? [0, 0]).map Outline.signs = some
        (Outline.group (.mapping .flow) [.scalar "a".toList, .scalar "1".toList]).signs ∧
      text = "\x7bx, y: 1\x7d\n".toList ∧
      (e'.snapshot.valueAt [0, 0, 0]).toOption.map (Value.same · (.string "x, y".toList)) =
        some false)
    (by decide +kernel)
  exact ⟨e, e', text, hedit, hpath, hpairs, htext,
    fun h => Snapshot.not_decodes_of_differs hvalue h.decodes⟩

end YamlEdit
