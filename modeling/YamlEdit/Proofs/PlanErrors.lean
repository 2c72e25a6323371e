import YamlEdit.Edit.Editor
import YamlEdit.Proofs.Inversion

/-!
# What planners fail with

A planner that has its nodes fails at an offset, at a value that cannot be written, at a value that
does not fit between brackets, or at a block collection that is empty. What is to be shown about the
errors of an edit is shown for these (`EditError.Allows`), and holds for all planners then.
-/

namespace YamlEdit

open EditError (Result)

/-- Errors among which there are those of the planners. -/
structure EditError.Allows (Q : EditError → Prop) : Prop where
  badOffset : ∀ e, Q (.badOffset e)
  unwritable : ∀ e, Q (.unwritable e)
  complexInFlow : ∀ container start, Q (.unsupported (.complexInFlow container start))

section Parts

variable {ε α β : Type} {Q : EditError → Prop} {P : β → Prop} {f : α → Result β}

/-- A part of an edit that fails in a way of its own. -/
theorem yields_mapError {g : ε → EditError} (hg : ∀ e, Q (g e)) {x : Except ε α}
    (hf : ∀ a, Yields Q P (f a)) : Yields Q P (x.mapError g >>= f) := by
  cases x with
  | error e => exact hg e
  | ok a => exact hf a

theorem yields_offset (hQ : EditError.Allows Q) {x : Except BadOffset α}
    (hf : ∀ a, Yields Q P (f a)) : Yields Q P ((liftM x : Result α) >>= f) :=
  yields_mapError hQ.badOffset hf

theorem yields_write (hQ : EditError.Allows Q) {x : Except Value.WriteFault α}
    (hf : ∀ a, Yields Q P (f a)) : Yields Q P ((liftM x : Result α) >>= f) :=
  yields_mapError hQ.unwritable hf

end Parts

/-- The value of a mapping has a key in front of it, or the tree is at fault. -/
theorem Node.yields_pairedKey {Q : EditError → Prop} {mapping : Node} {i : Nat}
    (h : (i % 2 = 1 ∧ ∃ node, mapping.children[i]? = some node) ∨
      Q (.shape (.keyNotValue i mapping.start))) :
    Yields Q (fun _ => True) (mapping.pairedKey i) := by
  unfold Node.pairedKey
  rcases h with ⟨hodd, node, hnode⟩ | hfault
  · obtain ⟨hlt, -⟩ := List.getElem?_eq_some_iff.mp hnode
    have hkey : i - 1 < mapping.children.length := by omega
    rw [if_neg (by omega), List.getElem?_eq_getElem hkey]
    trivial
  · dsimp only
    split
    · exact hfault
    · split
      · trivial
      · exact hfault

namespace Plan

variable {Q : EditError → Prop} {s : Snapshot} {parent first last node mapping sequence next : Node}
  {i position : Nat} {key value item f : Fragment}

theorem yields_linePrefix (hQ : EditError.Allows Q) {α : Type} {P : α → Prop} {place : Nat}
    {g : Text → Result α} (hg : ∀ t, Yields Q P (g t)) : Yields Q P (s.linePrefix place >>= g) :=
  yields_offset hQ hg

/-! ## Block collections -/

theorem Block.yields_entryStart (hQ : EditError.Allows Q) {α : Type} {P : α → Prop}
    {g : Nat → Result α} (hg : ∀ n, Yields Q P (g n)) :
    Yields Q P (entryStart s parent first >>= g) := by
  unfold entryStart
  split
  · exact hg _
  · have hmarker : Yields Q (fun _ => True)
        (do return (← Extent.itemMarker s.source (s.startOf first)).getD (s.startOf first) :
          Result Nat) :=
      yields_offset hQ fun _ => trivial
    exact hmarker.bind fun n _ => hg n

theorem Block.yields_remove (hQ : EditError.Allows Q) :
    Yields Q (fun _ => True) (Block.remove s parent first last i) := by
  unfold Block.remove
  refine yields_entryStart hQ fun start => yields_linePrefix hQ fun line => ?_
  split
  · trivial
  · split
    · refine yields_entryStart hQ fun _ => ?_
      trivial
    · trivial

theorem Block.yields_addPair
    (h : mapping.children = [] → Q (.shape (.emptyBlockMapping mapping.start))) :
    Yields Q (fun _ => True) (Block.addPair s mapping key value) := by
  unfold Block.addPair
  cases hchildren : mapping.children with
  | nil => exact h hchildren
  | cons first rest =>
      rw [List.head?_cons, List.getLast?_cons]
      trivial

theorem Block.yields_addItem (hQ : EditError.Allows Q)
    (h : sequence.children = [] → Q (.shape (.emptyBlockSequence sequence.start)))
    (index : Option Nat) :
    Yields Q (fun _ => True) (Block.addItem s sequence item index) := by
  unfold Block.addItem
  dsimp only
  split
  · unfold Block.addItemBefore
    refine yields_offset hQ fun marker => yields_linePrefix hQ fun before => ?_
    dsimp only
    split <;> trivial
  · trivial
  · next hlast => exact h (List.getLast?_eq_none_iff.mp hlast)

/-! ## Flow collections -/

theorem Flow.yields_remove (hQ : EditError.Allows Q) :
    Yields Q (fun _ => True) (Flow.remove s parent first last position) := by
  unfold Flow.remove
  dsimp only
  split
  · trivial
  · split
    · unfold removeWithNext
      dsimp only
      split
      · trivial
      · refine yields_linePrefix hQ fun before => ?_
        split <;> trivial
    · unfold removeLast
      refine yields_offset hQ fun before => ?_
      dsimp only
      split <;> trivial

theorem Flow.yields_inline (hQ : EditError.Allows Q) {α : Type} {P : α → Prop}
    {g : Text → Result α} (hg : ∀ t, Yields Q P (g t)) : Yields Q P (inline f parent >>= g) := by
  unfold inline
  split
  · exact hg _
  · exact hQ.complexInFlow _ _

theorem Flow.yields_addPair (hQ : EditError.Allows Q) :
    Yields Q (fun _ => True) (Flow.addPair s mapping key value) :=
  yields_inline hQ fun _ => trivial

theorem Flow.yields_addItem (hQ : EditError.Allows Q) (index : Option Nat) :
    Yields Q (fun _ => True) (Flow.addItem s sequence item index) := by
  refine yields_inline hQ fun content => ?_
  split <;> trivial

/-- An entry is taken out of a collection in either style. -/
theorem yields_remove (hQ : EditError.Allows Q) :
    Yields Q (fun _ => True) (if parent.isFlow then Flow.remove s parent first last position
      else Block.remove s parent first last i) := by
  split
  · exact Flow.yields_remove hQ
  · exact Block.yields_remove hQ

/-! ## Replacements -/

theorem yields_replaceUnderKey (hQ : EditError.Allows Q) {key : Node} :
    Yields Q (fun _ => True) (replaceUnderKey s key node f) := by
  unfold replaceUnderKey
  refine yields_offset hQ fun gap => ?_
  dsimp only
  split
  · split <;> trivial
  · split <;> trivial

theorem Replacement.yields_splice (hQ : EditError.Allows Q) {r : Replacement} :
    Yields Q (fun _ => True) (Replacement.splice s r) := by
  unfold Replacement.splice
  split
  · trivial
  · refine yields_offset hQ fun before => ?_
    trivial

end Plan

end YamlEdit
