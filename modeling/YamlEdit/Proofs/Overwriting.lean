import YamlEdit.Proofs.PlanOffsets

/-!
# What an update takes out

An update takes out the old value, and, for a value of a block mapping that moves, the blanks in
front of it (`Plan.Overwrites`): never more than blanks, and none at all if there is a comment
between the key and the value. What it writes at an empty place keeps off from what is in front of
it.

White space is meant in the sense of Unicode here, and to the scanner only some of it ends a name
(`Text.isAnchorChar_of_isBlank`). So the end of the name of an anchor may be taken for a blank.
-/

namespace YamlEdit

/-- Of white space, the name of an anchor ends at spaces, tabs and the ends of lines. -/
theorem Text.isAnchorChar_of_isBlank {c : Char} (h : Text.isBlank c = true) :
    Token.isAnchorChar c = !Token.isSpaceOrBreak c := by
  have hnot : ∀ d : Char, Text.isBlank d = false → c ≠ d := by
    rintro d hd rfl
    rw [h] at hd
    cases hd
  have hflow : Token.isFlow c = false := by
    simp [Token.isFlow, hnot ',' (by decide), hnot '[' (by decide), hnot ']' (by decide),
      hnot '\x7b' (by decide), hnot '\x7d' (by decide)]
  have hend : Token.isEnd c = false := by
    simp [Token.isEnd, hnot '\x00' (by decide)]
  have hmark : (c != '\uFEFF') = true := by
    simp [hnot '\uFEFF' (by decide)]
  simp [Token.isAnchorChar, Token.isSpaceOrEnd, Token.isBreakOrEnd, Token.isSpaceOrBreak, hflow,
    hend, hmark]

namespace Plan

/-- A replacement of a node together with blanks in front of it. -/
structure Replacement.Covers (s : Snapshot) (node : Node) (blanks : Text) (r : Replacement) :
    Prop where
  ahead : s.source.slice r.start (s.startOf node) = .ok blanks
  blank : blanks.allBlank = true
  stop : r.stop = s.stopOf node

/-- Blanks at the end of what is between a key and its value, if there is no comment. -/
def EndsGap (s : Snapshot) (key node : Node) (blanks : Text) : Prop :=
  ∃ gap, s.source.slice (min (s.stopOf key) (s.startOf node)) (s.startOf node) = .ok gap ∧
    '#' ∉ gap ∧ blanks <:+ gap

/-- What an update takes out: the value `node`, child number `i` of `parent`, and `blanks` in front
of it. -/
structure Overwrites (s : Snapshot) (parent node : Node) (i : Nat) (blanks : Text)
    (splice : Splice) : Prop where
  ahead : s.source.slice splice.start (s.startOf node) = .ok blanks
  blank : blanks.allBlank = true
  finish : splice.finish = max splice.start (s.stopOf node)
  /-- Blanks only go from between a key and its value. -/
  gap : blanks ≠ [] →
    parent.kind = .mapping .block ∧ ∃ key, parent.pairedKey i = .ok key ∧ EndsGap s key node blanks
  /-- Where nothing is taken out, the new text does not touch what is in front of it. -/
  apart : splice.start = splice.finish →
    splice.start = 0 ∨ splice.content.head?.any Text.isBlank = true ∨
      (s.source.upTo splice.start).getLast?.any Text.isBlank = true

section Replacements

variable {s : Snapshot} {key node parent : Node} {f : Fragment} {r : Replacement}

theorem Replacement.covers_ofNode (h : s.source.IsBoundary (s.startOf node)) (content : Text) :
    (Replacement.ofNode s node content).Covers s node [] where
  ahead := by
    obtain ⟨x, y, hsource, hx⟩ := h
    exact Text.slice_eq_ok.mpr ⟨x, y, by simpa using hsource, hx, hx⟩
  blank := rfl
  stop := rfl

/-- **The value of a key** is replaced in its place, or together with the blanks in front of it. -/
theorem covers_of_replaceUnderKey (hnode : s.source.IsBoundary (s.startOf node))
    (h : replaceUnderKey s key node f = .ok r) :
    ∃ blanks, r.Covers s node blanks ∧ (blanks ≠ [] → EndsGap s key node blanks) := by
  obtain ⟨gap, hgap, rfl | ⟨hcomment, rfl⟩⟩ := replaceUnderKey_cases h
  · exact ⟨[], Replacement.covers_ofNode hnode _, fun h => absurd rfl h⟩
  · obtain ⟨blanks, hparts, hall, hblanks⟩ := Text.slice_trimEnd hgap
    have hsuffix : blanks <:+ gap := ⟨gap.trimEnd, hparts.symm⟩
    exact ⟨blanks, ⟨hblanks, hall, rfl⟩, fun _ => ⟨gap, hgap, hcomment, hsuffix⟩⟩

/-- **Every replacement of an entry takes out its value**, and no more than blanks in front of
it. -/
theorem covers_of_replaceEntry {path : Text} {i : Nat}
    (hnode : s.source.IsBoundary (s.startOf node))
    (h : replaceEntry s path parent node i f = .ok r) :
    ∃ blanks, r.Covers s node blanks ∧ (blanks ≠ [] → parent.kind = .mapping .block ∧
      ∃ key, parent.pairedKey i = .ok key ∧ EndsGap s key node blanks) := by
  have hstays : ∀ content, ∃ blanks, (Replacement.ofNode s node content).Covers s node blanks ∧
      (blanks ≠ [] → parent.kind = .mapping .block ∧
        ∃ key, parent.pairedKey i = .ok key ∧ EndsGap s key node blanks) := by
    intro content
    exact ⟨[], Replacement.covers_ofNode hnode content, fun h => absurd rfl h⟩
  unfold replaceEntry at h
  split at h
  · next hkind =>
      obtain ⟨key, hkey, h⟩ := bind_eq_ok.mp h
      obtain ⟨blanks, hcovers, hgap⟩ := covers_of_replaceUnderKey hnode h
      exact ⟨blanks, hcovers, fun hne => ⟨hkind, key, hkey, hgap hne⟩⟩
  · cases h
    exact hstays _
  · split at h
    · cases h
      exact hstays _
    · cases h
  · split at h
    · cases h
      exact hstays _
    · cases h
  · cases h

/-- **What is put at an empty place keeps off** from what is in front of it. -/
theorem apart_of_splice {splice : Splice} (h : r.splice s = .ok splice) :
    splice.start = r.start ∧ splice.finish = max r.start r.stop ∧
      (splice.start = splice.finish →
        splice.start = 0 ∨ splice.content.head?.any Text.isBlank = true ∨
          (s.source.upTo splice.start).getLast?.any Text.isBlank = true) := by
  unfold Replacement.splice at h
  split at h
  · next hfull =>
      cases h
      refine ⟨rfl, rfl, fun hempty => .inr (.inl ?_)⟩
      have hempty : r.start = max r.start r.stop := hempty
      exact hfull.resolve_left (by omega)
  · obtain ⟨before, hbefore, h⟩ := bind_eq_ok.mp h
    obtain ⟨back, hsource, hsize⟩ := Text.takeBytes_eq_ok.mp (lift_offset_eq_ok.mp hbefore)
    have hfront : s.source.upTo r.start = before := by
      rw [hsource, ← hsize, Text.upTo_append]
    cases h
    refine ⟨rfl, rfl, fun _ => ?_⟩
    show r.start = 0 ∨ _ ∨ (s.source.upTo r.start).getLast?.any Text.isBlank = true
    rw [hfront]
    cases hlast : before.getLast? with
    | none =>
        left
        rw [← hsize, List.getLast?_eq_none_iff.mp hlast]
        rfl
    | some c =>
        right
        by_cases hc : Text.isBlank c = true
        · right
          rw [Option.any_some, hc]
        · left
          simp [Splice.replace, hc]
          decide

end Replacements

/-- **An update overwrites the old value and blanks.** No character of the name of an anchor is
taken if these blanks are spaces, tabs and line breaks, and only then. -/
theorem overwrites_of_update {source path : Text} {s : Snapshot} {v : Value} {splice : Splice}
    (hread : Snapshot.ofText source = .ok s)
    (hplan : Plan.operation s (.update path v) = .ok splice) :
    ∃ target parent i blanks, s.resolve path = .ok target ∧
      target.entry .update = .ok (parent, i) ∧ Overwrites s parent target.node i blanks splice ∧
      ((∀ c ∈ blanks, Token.isAnchorChar c = false) ↔ blanks.all Token.isSpaceOrBreak = true) := by
  have hs := Snapshot.within_of_ofText hread
  obtain ⟨target, hresolve, h⟩ := bind_eq_ok.mp hplan
  obtain ⟨⟨parent, i⟩, hentry, h⟩ := bind_eq_ok.mp h
  obtain ⟨f, -, h⟩ := bind_eq_ok.mp h
  obtain ⟨r, hr, hsplice⟩ := bind_eq_ok.mp h
  have htarget : s.tree.Holds target.node :=
    ((yields_iff.mp (hs.sound.resolve path)).1 _ hresolve).node
  have hboundary : s.source.IsBoundary (s.startOf target.node) := by
    rw [hs.source_eq]
    exact hs.startOf htarget
  obtain ⟨blanks, hcovers, hgap⟩ := covers_of_replaceEntry hboundary hr
  obtain ⟨hstart, hfinish, hapart⟩ := apart_of_splice hsplice
  refine ⟨target, parent, i, blanks, hresolve, hentry, ⟨?_, hcovers.blank, ?_, hgap, hapart⟩, ?_⟩
  · rw [hstart]
    exact hcovers.ahead
  · rw [hfinish, hstart, hcovers.stop]
  · rw [List.all_eq_true]
    constructor
    · intro h c hc
      have hchar := Text.isAnchorChar_of_isBlank (List.all_eq_true.mp hcovers.blank c hc)
      rw [h c hc] at hchar
      simpa using hchar.symm
    · intro h c hc
      rw [Text.isAnchorChar_of_isBlank (List.all_eq_true.mp hcovers.blank c hc), h c hc]
      rfl

/-- A value on a line of its own goes with the line feed in front of it. -/
theorem overwrites_of_update_detached :
    ∃ e splice, Editor.load "a:\n  1\n".toList = .ok e ∧
      Plan.operation e.snapshot (.update "a".toList (.integer 2)) = .ok splice ∧
      ∃ target parent i blanks, e.snapshot.resolve "a".toList = .ok target ∧
        target.entry .update = .ok (parent, i) ∧
        Overwrites e.snapshot parent target.node i blanks splice ∧
        ((∀ c ∈ blanks, Token.isAnchorChar c = false) ↔
          blanks.all Token.isSpaceOrBreak = true) := by
  obtain ⟨e, hload, hplan⟩ := Editor.exists_load "a:\n  1\n".toList
    (P := fun e => (Plan.operation e.snapshot (.update "a".toList (.integer 2))).toOption =
      some ⟨2, some 6, " 2".toList⟩)
    (by decide +kernel)
  have hplan := toOption_eq_some.mp hplan
  exact ⟨e, _, hload, hplan, overwrites_of_update (Editor.load_eq_ok hload).1 hplan⟩

end Plan

/-- A no-break space at the end of the name of an anchor goes with the blanks in front of the
value. -/
theorem update_cuts_name_of_anchor :
    ∃ e e' text, Editor.edit "a: &x\u00a0 1\n".toList
        (.update "a".toList (.mapping [(.string "b".toList, .integer 2)])) = some (e, e', text) ∧
      Token.anchorNames (Token.scan "a: &x\u00a0 1\n".toList).tokens = ["x\u00a0".toList] ∧
      text = "a: &x\n  b: 2\n".toList ∧
      Token.anchorNames (Token.scan text).tokens = ["x".toList] :=
  Editor.exists_edit "a: &x\u00a0 1\n".toList
    (.update "a".toList (.mapping [(.string "b".toList, .integer 2)]))
    (P := fun _ _ text =>
      Token.anchorNames (Token.scan "a: &x\u00a0 1\n".toList).tokens = ["x\u00a0".toList] ∧
      text = "a: &x\n  b: 2\n".toList ∧
      Token.anchorNames (Token.scan text).tokens = ["x".toList])
    (by decide +kernel)

end YamlEdit
