import YamlEdit.Proofs.OffsetErrors

/-!
# Sound splices

Planners make their splices in three ways only, none of which ends in front of its start
(`Plan.ordered_operation`). Where flow collections end with their brackets the splices start and
stop at boundaries as well, so what is in front of a splice and what is behind it is left alone.

Main statement: `Plan.splice_of_operation`.
-/

namespace YamlEdit

open EditError (Result)

/-! ## Splices are ranges -/

/-- A splice that does not end in front of its start. -/
def Splice.Ordered (splice : Splice) : Prop := splice.start ≤ splice.finish

namespace Splice

theorem ordered_replace (start stop : Nat) (content : Text) :
    (replace start stop content).Ordered :=
  Nat.le_max_left start stop

theorem ordered_remove (start stop : Nat) : (remove start stop).Ordered :=
  ordered_replace start stop []

theorem ordered_insert (place : Nat) (content : Text) : (insert place content).Ordered :=
  Nat.le_refl place

/-- **What a sound splice does to a text.** The part between its offsets is replaced, and the text
in front of it and behind it stays. -/
theorem apply_of_ordered {C : Prop} {source : Text} {splice : Splice} (h : splice.Ordered)
    (hfits : splice.Fits C source) (hfinish : source.IsBoundary splice.finish) :
    ∃ x y z, source = x ++ y ++ z ∧ Text.size x = splice.start ∧
      Text.size (x ++ y) = splice.finish ∧
      splice.apply source = .ok (x ++ splice.content ++ z) := by
  obtain ⟨y, hslice⟩ := Text.slice_of_isBoundary hfits.start hfinish h
  obtain ⟨x, z, rfl, hx, hxy⟩ := Text.slice_eq_ok.mp hslice
  refine ⟨x, y, z, rfl, hx, (Text.size_append x y).trans hxy, ?_⟩
  obtain ⟨text, htext⟩ := hfits.apply
  rw [htext, apply_eq htext, written, ← hxy, ← hx, ← Text.size_append, Text.onFrom_append,
    List.append_assoc x y z, Text.upTo_append]

end Splice

/-! ## Planners -/

namespace Plan

/-- A plan whose splice is ordered, if there is one. -/
def Ordered (plan : Result Splice) : Prop := Yields (fun _ => True) Splice.Ordered plan

section Ordered

variable {s : Snapshot}

theorem Ordered.bind {α : Type} {x : Result α} {f : α → Result Splice}
    (h : ∀ a, Ordered (f a)) : Ordered (x >>= f) := by
  cases x with
  | ok a => exact h a
  | error e => trivial

theorem ordered_ite {c : Prop} [Decidable c] {plan plan' : Result Splice} (h : Ordered plan)
    (h' : Ordered plan') : Ordered (if c then plan else plan') := by
  split
  · exact h
  · exact h'

theorem Block.ordered_addLines (last : Node) (content : Text) :
    (Block.addLines s last content).Ordered :=
  Splice.ordered_insert _ _

theorem Block.ordered_remove (parent first last : Node) (index : Nat) :
    Ordered (Block.remove s parent first last index) := by
  unfold Block.remove
  refine .bind fun start => .bind fun before => ordered_ite (Splice.ordered_remove _ _) ?_
  split
  · exact .bind fun stop => Splice.ordered_remove _ _
  · exact Splice.ordered_replace _ _ _

theorem Block.ordered_addPair (mapping : Node) (key value : Fragment) :
    Ordered (Block.addPair s mapping key value) := by
  unfold Block.addPair
  split
  · exact Block.ordered_addLines _ _
  · trivial

theorem Block.ordered_addItem (sequence : Node) (item : Fragment) (index : Option Nat) :
    Ordered (Block.addItem s sequence item index) := by
  unfold Block.addItem
  dsimp only
  split
  · unfold Block.addItemBefore
    exact .bind fun marker => .bind fun before =>
      ordered_ite (Splice.ordered_insert _ _) (Splice.ordered_insert _ _)
  · exact Block.ordered_addLines _ _
  · trivial

theorem Flow.ordered_append (container : Node) (content : Text) :
    (Flow.append s container content).Ordered := by
  unfold Flow.append
  split
  · exact Splice.ordered_insert _ _
  · exact Splice.ordered_replace _ _ _

theorem Flow.ordered_addItem (sequence : Node) (item : Fragment) (index : Option Nat) :
    Ordered (Flow.addItem s sequence item index) := by
  unfold Flow.addItem
  refine .bind fun content => ?_
  split
  · exact Splice.ordered_insert _ _
  · exact Flow.ordered_append _ _

theorem Flow.ordered_remove (parent first last : Node) (position : Nat) :
    Ordered (Flow.remove s parent first last position) := by
  unfold Flow.remove
  refine ordered_ite (Splice.ordered_remove _ _) (ordered_ite ?_ ?_)
  · unfold Flow.removeWithNext
    dsimp only
    split
    · exact Splice.ordered_remove _ _
    · exact .bind fun before => ordered_ite (Splice.ordered_remove _ _) (Splice.ordered_remove _ _)
  · unfold Flow.removeLast
    exact .bind fun before =>
      ordered_ite (Splice.ordered_remove _ _) (Splice.ordered_remove _ _)

theorem Replacement.ordered_splice (r : Replacement) : Ordered (r.splice s) := by
  unfold Replacement.splice
  exact ordered_ite (Splice.ordered_replace _ _ _)
    (.bind fun before => Splice.ordered_replace _ _ _)

/-- **No planner makes a splice that ends in front of its start.** -/
theorem ordered_operation (s : Snapshot) (o : Operation) : Ordered (operation s o) := by
  cases o with
  | delete path =>
      have hremove : ∀ {first parent last : Node} {position index : Nat},
          Ordered (if parent.isFlow then Flow.remove s parent first last position
            else Block.remove s parent first last index) :=
        ordered_ite (Flow.ordered_remove _ _ _ _) (Block.ordered_remove _ _ _ _)
      refine .bind fun target => .bind fun entry => ordered_ite ?_ ?_
      · exact .bind fun first => hremove
      · exact .bind fun first => hremove
  | update path value =>
      exact .bind fun target => .bind fun entry => .bind fun f => .bind fun r =>
        Replacement.ordered_splice r
  | rename path newName =>
      refine .bind fun target => .bind fun entry => ordered_ite trivial ?_
      exact .bind fun name => ordered_ite trivial (.bind fun key => Splice.ordered_replace _ _ _)
  | mapAdd path key value =>
      refine .bind fun target => ordered_ite trivial (.bind fun key => ordered_ite trivial ?_)
      exact .bind fun value =>
        ordered_ite (.bind fun content => Flow.ordered_append _ _) (Block.ordered_addPair _ _ _)
  | seqAdd path value index =>
      refine .bind fun target => ordered_ite trivial (.bind fun item => ?_)
      exact ordered_ite (Flow.ordered_addItem _ _ _) (Block.ordered_addItem _ _ _)

end Ordered

end Plan

/-! ## Closed collections -/

/-- A text can be looked at for a character in front of an offset. -/
theorem Text.endsAt_iff {t : Text} {n : Nat} {c : Char} :
    t.EndsAt n c ↔ (t.takeBytes n).toOption.any (·.getLast? == some c) = true := by
  simp only [Option.any_eq_true, toOption_eq_some, beq_iff_eq, takeBytes_eq_ok]
  constructor
  · rintro ⟨x, y, rfl, rfl⟩
    exact ⟨x ++ [c], ⟨y, by simp, by rw [size_append, size_cons, size_nil, Nat.add_zero]⟩, by simp⟩
  · rintro ⟨_, ⟨y, rfl, rfl⟩, hlast⟩
    obtain ⟨x, rfl⟩ := List.getLast?_eq_some_iff.mp hlast
    exact ⟨x, y, by simp, by rw [size_append, size_cons, size_nil, Nat.add_zero]⟩

instance (t : Text) (n : Nat) (c : Char) : Decidable (t.EndsAt n c) :=
  decidable_of_iff _ Text.endsAt_iff.symm

namespace Node

mutual

/-- Whether a node and all nodes below it pass a check. -/
def check (p : Node → Bool) : Node → Bool
  | ⟨kind, start, stop, anchor, children⟩ =>
    p ⟨kind, start, stop, anchor, children⟩ && checkAll p children

/-- Whether nodes and all nodes below them pass a check. -/
def checkAll (p : Node → Bool) : List Node → Bool
  | [] => true
  | n :: rest => check p n && checkAll p rest

end

variable {p : Node → Bool}

theorem check_of_mem {l : List Node} (h : checkAll p l = true) : ∀ n ∈ l, check p n = true := by
  induction l with
  | nil => exact nofun
  | cons n rest ih =>
      rw [checkAll, Bool.and_eq_true] at h
      exact List.forall_mem_cons.mpr ⟨h.1, ih h.2⟩

/-- A check of a node is one of all that can be reached from it. -/
theorem of_check {n d : Node} {a : Address} (h : n.check p = true) (hd : n.descendant? a = some d) :
    p d = true := by
  induction a generalizing n with
  | nil =>
      cases hd
      obtain ⟨kind, start, stop, anchor, children⟩ := d
      rw [check, Bool.and_eq_true] at h
      exact h.1
  | cons i rest ih =>
      obtain ⟨c, hc, hbelow⟩ := descendant?_cons_eq_some.mp hd
      obtain ⟨kind, start, stop, anchor, children⟩ := n
      rw [check, Bool.and_eq_true] at h
      exact ih (check_of_mem h.2 c (List.mem_of_getElem? hc)) hbelow

end Node

/-- Every collection in flow style ends right behind its closing bracket. -/
def Snapshot.Closed (s : Snapshot) : Prop :=
  ∀ n, s.tree.Holds n → n.isFlow = true →
    s.source.EndsAt (s.stopOf n) (closingBracket n.isMapping)

/-- A check for that. -/
def Snapshot.closedCheck (s : Snapshot) : Bool :=
  s.tree.root.check fun n =>
    !n.isFlow || decide (s.source.EndsAt (s.stopOf n) (closingBracket n.isMapping))

theorem Snapshot.closed_of_check {s : Snapshot} (h : s.closedCheck = true) : s.Closed := by
  rintro n ⟨a, hn⟩ hflow
  have hpasses := Node.of_check h hn
  rw [hflow] at hpasses
  exact of_decide_eq_true hpasses

/-- Where all collections are closed no operation empties one that is not. -/
theorem Snapshot.Closed.not_emptiesUnclosed {source : Text} {s : Snapshot} (hclosed : s.Closed)
    (hs : s.Within source) (o : Operation) : ¬ Plan.EmptiesUnclosed s o := by
  rintro ⟨hresolve, hentry, hflow, -, hunclosed⟩
  have hreaches := (yields_iff.mp (hs.sound.resolve _)).1 _ hresolve
  have hyields := hreaches.yields_entry (Q := fun _ => True) (fun _ => trivial) .delete
  obtain ⟨hparent, -⟩ := (yields_iff.mp hyields).1 _ hentry
  exact hunclosed (hclosed _ hparent hflow)

/-- **Planned splices are sound.** -/
theorem Plan.splice_of_operation {source : Text} {s : Snapshot} {o : Operation} {splice : Splice}
    (h : Snapshot.ofText source = .ok s) (hclosed : s.Closed)
    (hplan : Plan.operation s o = .ok splice) :
    splice.start ≤ splice.finish ∧ splice.finish ≤ Text.size source ∧
      source.IsBoundary splice.start ∧ source.IsBoundary splice.finish ∧
      ∃ x y z, source = x ++ y ++ z ∧ Text.size x = splice.start ∧
        Text.size (x ++ y) = splice.finish ∧
        splice.apply source = .ok (x ++ splice.content ++ z) := by
  have hs := Snapshot.within_of_ofText h
  have hordered := (yields_iff.mp (Plan.ordered_operation s o)).1 splice hplan
  have hfits := (yields_iff.mp (hs.operation o)).1 splice hplan
  -- a splice may stop inside a character only where it empties brackets that are not closed
  have hfinish : source.IsBoundary splice.finish :=
    hfits.finish.resolve_right fun h => hclosed.not_emptiesUnclosed hs o h.1
  exact ⟨hordered, hfinish.le_size, hfits.start, hfinish,
    Splice.apply_of_ordered hordered hfits hfinish⟩

/-- The only item is taken out of brackets that stand behind a letter of two bytes. -/
theorem Plan.splice_of_operation_only_item :
    ∃ s splice, Snapshot.ofText "é: [ü]\n".toList = .ok s ∧ s.Closed ∧
      Plan.operation s (.delete "é.0".toList) = .ok splice ∧
      ∃ x y z, "é: [ü]\n".toList = x ++ y ++ z ∧ Text.size x = splice.start ∧
        Text.size (x ++ y) = splice.finish ∧
        splice.apply "é: [ü]\n".toList = .ok (x ++ splice.content ++ z) := by
  obtain ⟨e, hload, hclosed, hplan⟩ := Editor.exists_load "é: [ü]\n".toList
    (P := fun e => e.snapshot.closedCheck = true ∧
      (Plan.operation e.snapshot (.delete "é.0".toList)).toOption = some ⟨5, some 7, []⟩)
    (by decide +kernel)
  have hread := (Editor.load_eq_ok hload).1
  have hclosed := Snapshot.closed_of_check hclosed
  have hplan := toOption_eq_some.mp hplan
  obtain ⟨-, -, -, -, hparts⟩ := Plan.splice_of_operation hread hclosed hplan
  exact ⟨e.snapshot, _, hread, hclosed, hplan, hparts⟩

end YamlEdit
