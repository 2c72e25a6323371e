import YamlEdit.Proofs.Insertion

/-!
# Additions to mappings

A new pair is put behind the last one, with a comma or on a line of its own. Main statement:
`Plan.addsPair_of_mapAdd`.

The new text does not always say that there is one more pair (`PairAppended`). Keys and values are
quoted as between lines, so that a comma in a key parts it from its value in brackets.
-/

namespace YamlEdit

namespace Plan

/-! ## The text of an addition -/

/-- How the text of a pair is put into a mapping: behind the last pair, or between empty
brackets. -/
inductive PutsPair (s : Snapshot) (mapping : Node) (key value : Fragment) : Splice → Prop where
  | behind {last : Node} (hflow : mapping.isFlow = true) (hinline : value.isInline = true)
      (hlast : mapping.children.getLast? = some last) :
      PutsPair s mapping key value
        (Splice.insert (s.stopOf last)
          (", ".toList ++ (key.text ++ ": ".toList ++ value.text.trim)))
  | inside (hflow : mapping.isFlow = true) (hinline : value.isInline = true)
      (hempty : mapping.children = []) :
      PutsPair s mapping key value
        (Flow.fill s mapping (key.text ++ ": ".toList ++ value.text.trim))
  | lineBehind {first last : Node} (hblock : mapping.isFlow = false)
      (hfirst : mapping.children.head? = some first)
      (hlast : mapping.children.getLast? = some last) :
      PutsPair s mapping key value
        (Block.addLines s last (Block.pairLines first.start.column key value))

/-- What an addition puts into the mapping at an address: a key on one line and a value, as they are
written. -/
inductive AddsPair (s : Snapshot) (a : Address) (k : Text) (v : Value) (splice : Splice) :
    Prop where
  | mk {mapping : Node} {key value : Fragment}
      (hmapping : s.tree.root.descendant? a = some mapping)
      (hkey : Fragment.ofValue (.string k) = .ok key) (hline : key.isMultiline = false)
      (hvalue : Fragment.ofValue v = .ok value) (h : PutsPair s mapping key value splice) :
      AddsPair s a k v splice

section Inversion

variable {source path k : Text} {s : Snapshot} {mapping : Node} {v : Value}
  {key value : Fragment} {splice : Splice}

theorem putsPair_of_flow (hflow : mapping.isFlow = true)
    (h : Flow.addPair s mapping key value = .ok splice) :
    PutsPair s mapping key value splice := by
  unfold Flow.addPair at h
  obtain ⟨content, hcontent, h⟩ := bind_eq_ok.mp h
  obtain ⟨hinline, rfl⟩ := inline_eq_ok hcontent
  cases h
  unfold Flow.append
  split
  · next last hlast => exact .behind hflow hinline hlast
  · next hlast => exact .inside hflow hinline (List.getLast?_eq_none_iff.mp hlast)

theorem putsPair_of_block (hblock : mapping.isFlow = false)
    (h : Block.addPair s mapping key value = .ok splice) :
    PutsPair s mapping key value splice := by
  unfold Block.addPair at h
  split at h
  · next first last hfirst hlast =>
      cases h
      exact .lineBehind hblock hfirst hlast
  · cases h

/-- **An addition puts a pair into the mapping that its path leads to.** -/
theorem addsPair_of_mapAdd {a : Address} (hread : Snapshot.ofText source = .ok s)
    (ha : s.addressOf path = some a) (h : mapAdd s path k v = .ok splice) :
    AddsPair s a k v splice := by
  obtain ⟨target, hresolve, hnode, -⟩ := Snapshot.resolve_of_addressOf hread ha
  unfold mapAdd at h
  obtain ⟨_, htarget, h⟩ := bind_eq_ok.mp h
  cases htarget.symm.trans hresolve
  dsimp only at h
  split at h
  · cases h
  · obtain ⟨key, hkey, h⟩ := bind_eq_ok.mp h
    split at h
    · cases h
    · next hline =>
        obtain ⟨value, hvalue, h⟩ := bind_eq_ok.mp h
        refine .mk hnode (lift_write_eq_ok.mp hkey) (by simpa using hline)
          (lift_write_eq_ok.mp hvalue) ?_
        split at h
        · next hflow => exact putsPair_of_flow hflow h
        · next hblock => exact putsPair_of_block (by simpa using hblock) h

end Inversion

end Plan

/-! ## What has to come of it -/

/-- What an addition should come to: one more pair behind the `count` nodes of a mapping, which
decodes to the key and the value, and everything else says what it said. -/
structure PairAppended (before after : Editor) (a : Address) (count : Nat) (k : Text)
    (v : Value) : Prop where
  pair : ∃ x, after.snapshot.outline =
    before.snapshot.outline.modify (Outline.appendChildren [.scalar k, x]) a
  key : after.snapshot.Decodes (a ++ [count]) (.string k)
  value : after.snapshot.Decodes (a ++ [count + 1]) v

/-- A comma in a key that is written without quotes makes two pairs out of one. -/
theorem mapAdd_of_key_with_comma_splits :
    ∃ e e' text,
      Editor.edit "\x7ba: 1\x7d\n".toList (.mapAdd [] "x, y".toList (.integer 2)) =
        some (e, e', text) ∧
      e.snapshot.addressOf [] = some [0, 0] ∧
      (e.snapshot.outline.at? [0, 0]).map Outline.signs = some
        (Outline.group (.mapping .flow) [.scalar "a".toList, .scalar "1".toList]).signs ∧
      text = "\x7ba: 1, x, y: 2\x7d\n".toList ∧
      ¬ PairAppended e e' [0, 0] 2 "x, y".toList (.integer 2) := by
  obtain ⟨e, e', text, hedit, hpath, hpairs, htext, hkey⟩ :=
    Editor.exists_edit "\x7ba: 1\x7d\n".toList
      (.mapAdd [] "x, y".toList (.integer 2))
    (P := fun e e' text => e.snapshot.addressOf [] = some [0, 0] ∧
      (e.snapshot.outline.at? [0, 0]).map Outline.signs = some
        (Outline.group (.mapping .flow) [.scalar "a".toList, .scalar "1".toList]).signs ∧
      text = "\x7ba: 1, x, y: 2\x7d\n".toList ∧
      (e'.snapshot.valueAt [0, 0, 2]).toOption.map (Value.same · (.string "x, y".toList)) =
        some false)
    (by decide +kernel)
  exact ⟨e, e', text, hedit, hpath, hpairs, htext,
    fun h => Snapshot.not_decodes_of_differs hkey h.key⟩

end YamlEdit
