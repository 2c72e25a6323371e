import YamlEdit.Plan.Operation
import YamlEdit.Proofs.Inversion

/-!
# What operations plan

Where the path of an operation leads to a node and the values of it can be written, what is planned
is a change of one collection, in brackets or in block style.
-/

namespace YamlEdit

namespace Plan

section Operations

variable {s : Snapshot} {path key : Text} {v : Value} {target : Target} {parent first : Node}
  {i : Nat} {k f : Fragment}

/-- The removal of an entry, which starts with its key if it has one. -/
theorem delete_eq (hpath : s.resolve path = .ok target)
    (hentry : target.entry .delete = .ok (parent, i))
    (hfirst : (if parent.isMapping then parent.pairedKey i else pure target.node) = .ok first) :
    delete s path =
      if parent.isFlow then
        Flow.remove s parent first target.node (if parent.isMapping then i / 2 else i)
      else Block.remove s parent first target.node i := by
  unfold delete
  rw [hpath, ok_bind, hentry, ok_bind]
  dsimp only
  by_cases hmapping : parent.isMapping = true
  · rw [if_pos hmapping] at hfirst
    rw [if_pos hmapping, hfirst, ok_bind]
  · rw [if_neg hmapping] at hfirst
    obtain rfl : target.node = first := Except.ok.inj hfirst
    rw [if_neg hmapping, pure_bind]

/-- The replacement of an entry. -/
theorem update_eq (hpath : s.resolve path = .ok target)
    (hentry : target.entry .update = .ok (parent, i)) (hf : Fragment.ofValue v = .ok f) :
    update s path v = (replaceEntry s path parent target.node i f >>= (·.splice s)) := by
  have hwrite : (liftM (Fragment.ofValue v) : EditError.Result Fragment) = .ok f :=
    lift_write_eq_ok.mpr hf
  unfold update
  rw [hpath, ok_bind, hentry, ok_bind]
  dsimp only
  rw [hwrite, ok_bind]

/-- The replacement of a key. -/
theorem rename_eq (hpath : s.resolve path = .ok target)
    (hentry : target.entry .rename = .ok (parent, i)) (hmapping : parent.isMapping = true)
    (hk : Fragment.ofValue (.string key) = .ok k) (hline : k.isMultiline = false)
    (hfirst : parent.pairedKey i = .ok first) :
    rename s path key = .ok (Splice.replace (s.startOf first) (s.stopOf first) k.text) := by
  have hwrite : (liftM (Fragment.ofValue (.string key)) : EditError.Result Fragment) = .ok k :=
    lift_write_eq_ok.mpr hk
  unfold rename
  rw [hpath, ok_bind, hentry, ok_bind]
  dsimp only
  rw [if_neg (by simp [hmapping]), hwrite, ok_bind, if_neg (by simp [hline]), hfirst, ok_bind]
  rfl

/-- The addition of an item. -/
theorem seqAdd_eq (hpath : s.resolve path = .ok target) (hsequence : target.node.isSequence = true)
    (hf : Fragment.ofValue v = .ok f) (index : Option Nat) :
    seqAdd s path v index =
      if target.node.isFlow then Flow.addItem s target.node f index
      else Block.addItem s target.node f index := by
  have hwrite : (liftM (Fragment.ofValue v) : EditError.Result Fragment) = .ok f :=
    lift_write_eq_ok.mpr hf
  unfold seqAdd
  rw [hpath, ok_bind]
  dsimp only
  rw [if_neg (by simp [hsequence]), hwrite, ok_bind]

/-- The addition of a pair. -/
theorem mapAdd_eq (hpath : s.resolve path = .ok target) (hmapping : target.node.isMapping = true)
    (hk : Fragment.ofValue (.string key) = .ok k) (hline : k.isMultiline = false)
    (hf : Fragment.ofValue v = .ok f) :
    mapAdd s path key v =
      if target.node.isFlow then Flow.addPair s target.node k f
      else Block.addPair s target.node k f := by
  have hwriteKey : (liftM (Fragment.ofValue (.string key)) : EditError.Result Fragment) = .ok k :=
    lift_write_eq_ok.mpr hk
  have hwrite : (liftM (Fragment.ofValue v) : EditError.Result Fragment) = .ok f :=
    lift_write_eq_ok.mpr hf
  unfold mapAdd
  rw [hpath, ok_bind]
  dsimp only
  rw [if_neg (by simp [hmapping]), hwriteKey, ok_bind, if_neg (by simp [hline]), hwrite, ok_bind]

end Operations

/-! ## Values under keys -/

/-- **How the value of a key in block style is replaced**: in its place, or, if there is no comment
between the two, from where the blanks in front of it start. -/
theorem replaceUnderKey_cases {s : Snapshot} {key node : Node} {f : Fragment} {r : Replacement}
    (h : replaceUnderKey s key node f = .ok r) :
    ∃ gap, s.source.slice (min (s.stopOf key) (s.startOf node)) (s.startOf node) = .ok gap ∧
      (r = .ofNode s node (f.indented
          (if f.isContainer then node.start.column else Indentation.nested key.start.column)
          false) ∨
        '#' ∉ gap ∧ r = ⟨min (s.stopOf key) (s.startOf node) + Text.size gap.trimEnd,
          s.stopOf node,
          if f.isContainer then '\n' :: f.indented (Indentation.nested key.start.column) true
          else ' ' :: f.indented (Indentation.nested key.start.column) false⟩) := by
  unfold replaceUnderKey at h
  obtain ⟨gap, hgap, h⟩ := bind_eq_ok.mp h
  refine ⟨gap, lift_offset_eq_ok.mp hgap, ?_⟩
  dsimp only at h
  split at h
  · next hcontainer =>
      rw [if_pos hcontainer, if_pos hcontainer]
      split at h
      · cases h
        exact .inl rfl
      · next hcomment =>
          cases h
          exact .inr ⟨by simpa using hcomment, rfl⟩
  · next hscalar =>
      rw [if_neg hscalar, if_neg hscalar]
      split at h
      · next hmove =>
          cases h
          exact .inr ⟨by simpa using hmove.1, rfl⟩
      · cases h
        exact .inl rfl

end Plan

end YamlEdit
