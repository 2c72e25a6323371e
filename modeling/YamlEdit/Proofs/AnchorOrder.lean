import Mathlib.Data.List.Lex
import YamlEdit.Proofs.Locations

/-!
# What the table of anchors holds

The table of a tree lists the anchors of values in the order of the text: a node comes in front of
those below it, and what is below a child in front of what is below the children behind it. As
addresses this is the lexicographic order (`Address.Precedes`), and the walk lists its entries in it
(`Node.pairwise_anchorsFrom`). So the entry of a name is the last of its nodes.

Main statement: `Tree.resolve_exact`. It is about nodes of any shape, whether or not a text has such
a tree.
-/

namespace YamlEdit

/-- Whether the node at one address comes in front of the node at another when the tree is gone
through from the root: it is above it, or below an earlier child of a node above both. -/
def Address.Precedes (a b : Address) : Prop := List.Lex (· < ·) a b

namespace Node

/-- Whether the node at an address has this anchor and is reached through values only. -/
def AnchoredValue (root : Node) (name : Text) (b : Address) : Prop :=
  ∃ d, root.descendant? b = some d ∧ d.anchor = some name ∧ root.ThroughValues b

/-- What is listed below the children of a node lies below one of them. -/
theorem exists_of_mem_anchorsInside {a : Address} {kind : Kind} {k : Nat} {l : List Node}
    {entry : Text × Address} (h : entry ∈ anchorsInside a kind k l) :
    ∃ i r, k ≤ i ∧ entry.2 = a ++ i :: r := by
  obtain ⟨i, c, -, -, hmem⟩ := mem_anchorsInside.mp h
  obtain ⟨r, d, hb, -⟩ := mem_anchorsFrom_iff.mp hmem
  exact ⟨k + i, r, Nat.le_add_right k i, by rw [hb, List.append_assoc]; rfl⟩

/-- What is below a child comes in front of what is below the children behind it. -/
theorem precedes_of_mem_anchorsInside {a : Address} {kind : Kind} {k : Nat} {c : Node}
    {l : List Node} {x y : Text × Address} (hx : x ∈ c.anchorsFrom (a ++ [k]))
    (hy : y ∈ anchorsInside a kind (k + 1) l) : Address.Precedes x.2 y.2 := by
  obtain ⟨r, d, hb, -⟩ := mem_anchorsFrom_iff.mp (show (x.1, x.2) ∈ _ from hx)
  obtain ⟨i, r', hi, hb'⟩ := exists_of_mem_anchorsInside hy
  have hbelow : List.Lex (· < ·) (k :: r) (i :: r') := .rel hi
  rw [hb, hb', List.append_assoc]
  exact List.Lex.append_left (· < ·) hbelow a

mutual

/-- **The walk goes through the tree in order.** -/
theorem pairwise_anchorsFrom (a : Address) (n : Node) :
    (n.anchorsFrom a).Pairwise fun x y => Address.Precedes x.2 y.2 := by
  obtain ⟨kind, start, stop, anchor, children⟩ := n
  rw [anchorsFrom, List.pairwise_append]
  refine ⟨?_, pairwise_anchorsInside a kind 0 children, ?_⟩
  · cases anchor with
    | none => exact .nil
    | some name => exact List.pairwise_singleton _ _
  · -- the node itself comes first
    intro x hx y hy
    obtain ⟨name, -, rfl⟩ : ∃ name, anchor = some name ∧ (name, a) = x := by simpa using hx
    obtain ⟨i, r, -, hb⟩ := exists_of_mem_anchorsInside hy
    have hbelow := List.Lex.append_left (· < ·) (List.Lex.nil (a := i) (l := r)) a
    rwa [List.append_nil, ← hb] at hbelow

theorem pairwise_anchorsInside (a : Address) (kind : Kind) (k : Nat) (l : List Node) :
    (anchorsInside a kind k l).Pairwise fun x y => Address.Precedes x.2 y.2 := by
  cases l with
  | nil =>
      rw [anchorsInside]
      exact .nil
  | cons c rest =>
      rw [anchorsInside, List.pairwise_append]
      refine ⟨?_, pairwise_anchorsInside a kind (k + 1) rest, fun x hx y hy => ?_⟩
      · split
        · exact pairwise_anchorsFrom (a ++ [k]) c
        · exact .nil
      · split at hx
        · exact precedes_of_mem_anchorsInside hx hy
        · cases hx

end

end Node

namespace AnchorTable

variable {table : AnchorTable} {root : Node} {name : Text} {b : Address}

/-- The entries of a tree's table are its anchored values. -/
theorem mem_ofRoot : (name, b) ∈ (ofRoot root).anchors ↔ root.AnchoredValue name b := by
  rw [ofRoot, Node.mem_anchorsFrom_iff]
  constructor
  · rintro ⟨r, d, hb, h⟩
    obtain rfl : b = r := by simpa using hb
    exact ⟨d, h⟩
  · rintro ⟨d, h⟩
    exact ⟨b, d, rfl, h⟩

theorem get?_eq_none_iff : table.get? name = none ↔ ∀ b, (name, b) ∉ table.anchors := by
  rw [get?, List.lookup_eq_none_iff]
  constructor
  · intro h b hmem
    simpa using h (name, b) (List.mem_reverse.mpr hmem)
  · rintro h ⟨own, b⟩ hmem
    rw [bne_iff_ne]
    rintro rfl
    exact h b (List.mem_reverse.mp hmem)

/-- What is found is in the table, and nothing with the same name comes behind it. -/
theorem last_of_get? (hordered : table.anchors.Pairwise fun x y => Address.Precedes x.2 y.2)
    (h : table.get? name = some b) :
    (name, b) ∈ table.anchors ∧
      ∀ c, (name, c) ∈ table.anchors → c = b ∨ Address.Precedes c b := by
  refine ⟨mem_of_get? h, fun c hc => ?_⟩
  obtain ⟨later, earlier, hl, hother⟩ := List.lookup_eq_some_iff.mp h
  have hl : table.anchors = earlier.reverse ++ (name, b) :: later.reverse := by
    rw [← List.reverse_reverse table.anchors, hl]
    simp
  rw [hl] at hc hordered
  rcases List.mem_append.mp hc with hc | hc
  · exact .inr ((List.pairwise_append.mp hordered).2.2 _ hc _ List.mem_cons_self)
  rcases List.mem_cons.mp hc with heq | hc
  · cases heq
    exact .inl rfl
  · simpa using hother _ (List.mem_reverse.mp hc)

/-- **The last entry counts.** -/
theorem get?_eq_some_iff (hordered : table.anchors.Pairwise fun x y => Address.Precedes x.2 y.2) :
    table.get? name = some b ↔ (name, b) ∈ table.anchors ∧
      ∀ c, (name, c) ∈ table.anchors → c = b ∨ Address.Precedes c b := by
  refine ⟨last_of_get? hordered, fun ⟨hmem, hlast⟩ => ?_⟩
  cases hfound : table.get? name with
  | none => exact absurd hmem (get?_eq_none_iff.mp hfound b)
  | some c =>
      -- each of the two is the last one
      obtain ⟨hc, hlast'⟩ := last_of_get? hordered hfound
      rcases hlast c hc with rfl | hbefore
      · rfl
      rcases hlast' b hmem with rfl | hbehind
      · rfl
      · exact absurd hbehind (List.lex_asymm Nat.lt_asymm hbefore)

theorem mem_names_iff : name ∈ table.names ↔ ∃ b, (name, b) ∈ table.anchors := by
  simp [names, List.mem_eraseDups]

end AnchorTable

namespace Tree

/-- **The table of anchors is exact.** A name is in it if and only if some value carries it as its
anchor, and its entry is the address of the last such node. The address leads to the node, which is
what a name resolves to; a name does not resolve if and only if no value carries it, and that is the
only way in which it does not. -/
theorem resolve_exact (root : Node) (name : Text) :
    (name ∈ (ofRoot root).anchors.names ↔ ∃ b, root.AnchoredValue name b) ∧
      (∀ b, (ofRoot root).anchors.get? name = some b ↔ root.AnchoredValue name b ∧
        ∀ c, root.AnchoredValue name c → c = b ∨ Address.Precedes c b) ∧
      (∀ b, (ofRoot root).anchors.get? name = some b →
        ∃ d, root.descendant? b = some d ∧ d.anchor = some name ∧
          (ofRoot root).resolve name = .ok (b, d)) ∧
      ∀ e, (ofRoot root).resolve name = .error e ↔
        e = .unknownAnchor name ∧ ¬ ∃ b, root.AnchoredValue name b := by
  have hentry : ∀ b, (ofRoot root).anchors.get? name = some b ↔ root.AnchoredValue name b ∧
      ∀ c, root.AnchoredValue name c → c = b ∨ Address.Precedes c b := by
    intro b
    simp only [← AnchorTable.mem_ofRoot]
    exact AnchorTable.get?_eq_some_iff (Node.pairwise_anchorsFrom [] root)
  -- the address of an entry leads to the node that carries the name
  have hleads : ∀ b, (ofRoot root).anchors.get? name = some b →
      ∃ d, root.descendant? b = some d ∧ d.anchor = some name ∧
        (ofRoot root).resolve name = .ok (b, d) := by
    intro b hfound
    obtain ⟨⟨d, hd, hanchor, -⟩, -⟩ := (hentry b).mp hfound
    refine ⟨d, hd, hanchor, ?_⟩
    simp only [resolve, hfound, show (ofRoot root).root.descendant? b = some d from hd]
  refine ⟨?_, hentry, hleads, fun e => ?_⟩
  · simp only [← AnchorTable.mem_ofRoot]
    exact AnchorTable.mem_names_iff
  cases hfound : (ofRoot root).anchors.get? name with
  | none =>
      have hnone : ¬ ∃ b, root.AnchoredValue name b := by
        simp only [← AnchorTable.mem_ofRoot, not_exists]
        exact AnchorTable.get?_eq_none_iff.mp hfound
      simp [resolve, hfound, hnone, eq_comm]
  | some b =>
      obtain ⟨hvalue, -⟩ := (hentry b).mp hfound
      obtain ⟨d, -, -, hresolve⟩ := hleads b hfound
      rw [hresolve]
      exact ⟨nofun, fun h => absurd ⟨b, hvalue⟩ h.2⟩

end Tree

end YamlEdit
