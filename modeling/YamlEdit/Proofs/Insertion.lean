import YamlEdit.Proofs.Paths

/-!
# Insertions into sequences

A new item is put in with a comma, or on lines of its own; nothing is taken out of the text but what
stands inside empty brackets. Main statement: `Plan.putsIn_of_seqAdd`.

The new text does not always say that there is one more item (`ItemInserted`): a new item goes in
front of the `-` of the one that is there, which is not found behind a comment.
-/

namespace YamlEdit

namespace Plan

/-! ## The text of an insertion -/

/-- How a value is put into a sequence: in front of the item at the index, if there is one, or else
behind the last one. -/
inductive PutsIn (s : Snapshot) (sequence : Node) (v : Value) (index : Option Nat) :
    Splice → Prop where
  | inFront {next : Node} {f : Fragment} (hflow : sequence.isFlow = true)
      (hf : Fragment.ofValue v = .ok f) (hinline : f.isInline = true)
      (hnext : index.bind (sequence.children[·]?) = some next) :
      PutsIn s sequence v index (Splice.insert (s.startOf next) (f.text.trim ++ ", ".toList))
  | behind {last : Node} {f : Fragment} (hflow : sequence.isFlow = true)
      (hf : Fragment.ofValue v = .ok f) (hinline : f.isInline = true)
      (hnext : index.bind (sequence.children[·]?) = none)
      (hlast : sequence.children.getLast? = some last) :
      PutsIn s sequence v index (Splice.insert (s.stopOf last) (", ".toList ++ f.text.trim))
  | inside {f : Fragment} (hflow : sequence.isFlow = true) (hf : Fragment.ofValue v = .ok f)
      (hinline : f.isInline = true) (hempty : sequence.children = []) :
      PutsIn s sequence v index (Flow.fill s sequence f.text.trim)
  | lineInFront {next : Node} {marker : Option Nat} {before : Text} {f : Fragment}
      (hblock : sequence.isFlow = false) (hf : Fragment.ofValue v = .ok f)
      (hnext : index.bind (sequence.children[·]?) = some next)
      (hmarker : Extent.itemMarker s.source (s.startOf next) = .ok marker)
      (hbefore : s.linePrefix (marker.getD (s.startOf next)) = .ok before)
      (hblank : before.allBlank = true) :
      PutsIn s sequence v index
        (Splice.insert (marker.getD (s.startOf next) - Text.size before)
          (Block.itemLines sequence.start.column f))
  | pushedDown {next : Node} {marker : Option Nat} {before : Text} {f : Fragment}
      (hblock : sequence.isFlow = false) (hf : Fragment.ofValue v = .ok f)
      (hnext : index.bind (sequence.children[·]?) = some next)
      (hmarker : Extent.itemMarker s.source (s.startOf next) = .ok marker)
      (hbefore : s.linePrefix (marker.getD (s.startOf next)) = .ok before)
      (hshared : before.allBlank = false) :
      PutsIn s sequence v index
        (Splice.insert (marker.getD (s.startOf next))
          ((Block.itemLines sequence.start.column f).trimStart ++
            Text.spaces sequence.start.column))
  | lineBehind {last : Node} {f : Fragment} (hblock : sequence.isFlow = false)
      (hf : Fragment.ofValue v = .ok f) (hnext : index.bind (sequence.children[·]?) = none)
      (hlast : sequence.children.getLast? = some last) :
      PutsIn s sequence v index
        (Block.addLines s last (Block.itemLines sequence.start.column f))

section Inversion

variable {source path : Text} {s : Snapshot} {sequence : Node} {v : Value} {f : Fragment}
  {index : Option Nat} {splice : Splice}

theorem inline_eq_ok {content : Text} (h : Flow.inline f sequence = .ok content) :
    f.isInline = true ∧ content = f.text.trim := by
  unfold Flow.inline at h
  split at h
  · next hinline =>
      cases h
      exact ⟨hinline, rfl⟩
  · cases h

theorem putsIn_of_flow (hflow : sequence.isFlow = true) (hf : Fragment.ofValue v = .ok f)
    (h : Flow.addItem s sequence f index = .ok splice) : PutsIn s sequence v index splice := by
  unfold Flow.addItem at h
  obtain ⟨content, hcontent, h⟩ := bind_eq_ok.mp h
  obtain ⟨hinline, rfl⟩ := inline_eq_ok hcontent
  split at h
  · next next hnext =>
      cases h
      exact .inFront hflow hf hinline hnext
  · next hnext =>
      cases h
      unfold Flow.append
      split
      · next last hlast => exact .behind hflow hf hinline hnext hlast
      · next hlast => exact .inside hflow hf hinline (List.getLast?_eq_none_iff.mp hlast)

theorem putsIn_of_block (hblock : sequence.isFlow = false) (hf : Fragment.ofValue v = .ok f)
    (h : Block.addItem s sequence f index = .ok splice) : PutsIn s sequence v index splice := by
  unfold Block.addItem at h
  dsimp only at h
  split at h
  · next next hnext =>
      unfold Block.addItemBefore at h
      obtain ⟨marker, hmarker, h⟩ := bind_eq_ok.mp h
      obtain ⟨before, hbefore, h⟩ := bind_eq_ok.mp h
      have hmarker := lift_offset_eq_ok.mp hmarker
      dsimp only at h
      split at h
      · next hblank =>
          cases h
          exact .lineInFront hblock hf hnext hmarker hbefore hblank
      · next hshared =>
          cases h
          exact .pushedDown hblock hf hnext hmarker hbefore (by simpa using hshared)
  · next last hnext hlast =>
      cases h
      exact .lineBehind hblock hf hnext hlast
  · cases h

/-- **An insertion puts the value into the sequence that its path leads to.** -/
theorem putsIn_of_seqAdd {a : Address} (hread : Snapshot.ofText source = .ok s)
    (ha : s.addressOf path = some a) (h : seqAdd s path v index = .ok splice) :
    ∃ sequence, s.tree.root.descendant? a = some sequence ∧
      PutsIn s sequence v index splice := by
  obtain ⟨target, hresolve, hnode, -⟩ := Snapshot.resolve_of_addressOf hread ha
  refine ⟨target.node, hnode, ?_⟩
  unfold seqAdd at h
  obtain ⟨_, htarget, h⟩ := bind_eq_ok.mp h
  cases htarget.symm.trans hresolve
  dsimp only at h
  split at h
  · cases h
  · obtain ⟨f, hf, h⟩ := bind_eq_ok.mp h
    have hf := lift_write_eq_ok.mp hf
    split at h
    · next hflow => exact putsIn_of_flow hflow hf h
    · next hblock => exact putsIn_of_block (by simpa using hblock) hf h

end Inversion

end Plan

/-! ## What has to come of it -/

/-- The place of a new item among `count` others: the index, if there is an item, or else the
end. -/
def Outline.insertionPlace (index : Option Nat) (count : Nat) : Nat := min (index.getD count) count

/-- What an insertion should come to: one more item in the sequence, which decodes to the value, and
everything else says what it said. -/
structure ItemInserted (before after : Editor) (a : Address) (place : Nat) (v : Value) : Prop where
  item : ∃ x, after.snapshot.outline =
    before.snapshot.outline.modify (Outline.insertChild place x) a
  decodes : after.snapshot.Decodes (a ++ [place]) v

/-- An item whose `-` stands in front of a comment is parted from it. -/
theorem seqAdd_in_front_of_commented_item_misreads :
    ∃ e e' text,
      Editor.edit "- # c\n  x\n- b\n".toList (.seqAdd [] (.string "y".toList) (some 0)) =
        some (e, e', text) ∧
      e.snapshot.addressOf [] = some [0, 0] ∧
      (e.snapshot.outline.at? [0, 0]).map Outline.signs = some
        (Outline.group (.sequence .block) [.scalar "x".toList, .scalar "b".toList]).signs ∧
      text = "- # c\n- y\n  x\n- b\n".toList ∧
      ¬ ItemInserted e e' [0, 0] (Outline.insertionPlace (some 0) 2) (.string "y".toList) := by
  obtain ⟨e, e', text, hedit, hpath, hsigns, htext, hvalue⟩ :=
    Editor.exists_edit "- # c\n  x\n- b\n".toList (.seqAdd [] (.string "y".toList) (some 0))
    (P := fun e e' text => e.snapshot.addressOf [] = some [0, 0] ∧
      (e.snapshot.outline.at? [0, 0]).map Outline.signs = some
        (Outline.group (.sequence .block) [.scalar "x".toList, .scalar "b".toList]).signs ∧
      text = "- # c\n- y\n  x\n- b\n".toList ∧
      (e'.snapshot.valueAt [0, 0, 0]).toOption.map (Value.same · (.string "y".toList)) =
        some false)
    (by decide +kernel)
  refine ⟨e, e', text, hedit, hpath, hsigns, htext, fun h => ?_⟩
  obtain ⟨w, hw, hsame⟩ := h.decodes
  obtain ⟨w', hw', hother⟩ := toOption_map_eq_some.mp hvalue
  cases hw.symm.trans hw'
  cases hsame.symm.trans hother

end YamlEdit
