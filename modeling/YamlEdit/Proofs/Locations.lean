import Mathlib.Logic.Relation
import YamlEdit.Proofs.Nodes
import YamlEdit.Proofs.Paths

/-!
# Where searches end

A search goes down the tree and jumps to the anchors of aliases. It can jump anywhere, but it never
jumps twice in a row: the node that carries an anchor is neither an alias nor a wrapper
(`Node.Regular`). So the moves that bring a search to rest go down a rank
(`Tree.moves_wellFounded`), and the place where it rests is a node of the tree with everything that
a location needs (`Tree.Placed`). Each step of a selector keeps that (`Tree.Sound.follow`).

All this only uses that the events were well nested and that mappings hold whole pairs, which is
what the outline of the tree says (`Tree.Sound`).
-/

namespace YamlEdit

/-! ## Nodes with anchors -/

namespace Node

/-- Scalars and aliases hold nothing, and only scalars and collections carry anchors. -/
structure Regular (n : Node) : Prop where
  leaf : n.scalar?.isSome ∨ n.alias?.isSome → n.children = []
  anchored : n.anchor.isSome → n.alias? = none ∧ n.kind.isWrapper = false

end Node

namespace TreeBuilder

/-- Every node that the builder makes is regular. -/
theorem gives_regular (m : SourceMap) : Gives m Node.Regular fun _ => True where
  scalar h := by
    obtain ⟨_, _, _, _, _, -, -, -, rfl⟩ := scalar_eq h
    exact ⟨fun _ => rfl, fun _ => ⟨rfl, rfl⟩⟩
  aliasNode h := by
    obtain ⟨_, _, -, -, rfl⟩ := aliasNode_eq h
    exact ⟨fun _ => rfl, nofun⟩
  opened _ := trivial
  child _ := trivial
  closed {c} _ _ _ h _ _ := by
    obtain ⟨style, _, _, -, -, rfl, -, -⟩ := close_eq h
    cases hmapping : c.isMapping
    · exact ⟨nofun, fun _ => ⟨rfl, rfl⟩⟩
    · exact ⟨nofun, fun _ => ⟨rfl, rfl⟩⟩
  document _ := ⟨nofun, nofun⟩

end TreeBuilder

namespace Node

/-- What is at an address says what the outline says there. -/
theorem at?_of_descendant? {n d : Node} {a : Address} (hn : n.All Regular)
    (h : n.descendant? a = some d) : n.outline.at? a = some d.outline := by
  induction a generalizing n with
  | nil =>
      cases h
      rfl
  | cons i rest ih =>
      obtain ⟨c, hc, hd⟩ := descendant?_cons_eq_some.mp h
      have hrest := ih (hn.inner c (List.mem_of_getElem? hc)) hd
      have hleaf := hn.here.leaf
      obtain ⟨kind, start, stop, anchor, children⟩ := n
      have hgroup : ∀ bracket, Outline.at? (.group bracket (outlines children)) (i :: rest) =
          some d.outline := by
        intro bracket
        refine Outline.at?_cons_eq_some.mpr ⟨bracket, _, c.outline, rfl, ?_, hrest⟩
        rw [outlines_eq_map, List.getElem?_map, show children[i]? = some c from hc]
        rfl
      -- a node with children is no leaf
      cases kind with
      | scalar text =>
          obtain rfl : children = [] := hleaf (.inl rfl)
          cases hc
      | aliasTo name =>
          obtain rfl : children = [] := hleaf (.inr rfl)
          cases hc
      | _ => exact hgroup _

end Node

/-- The kind of a node that holds what is in a bracket. -/
def Bracket.kind : Bracket → Kind
  | .stream => .stream
  | .document => .document
  | .sequence style => .sequence style
  | .mapping style => .mapping style

/-- Which children of a node are values: the first document of a stream, the content of a document,
every item of a sequence, and of the children of a mapping, where keys and values take turns, each
second one. -/
inductive Kind.HoldsValue : Kind → Nat → Prop where
  | document : HoldsValue .stream 0
  | content : HoldsValue .document 0
  | item (style : Style) (i : Nat) : HoldsValue (.sequence style) i
  | value (style : Style) {i : Nat} (hodd : i % 2 = 1) : HoldsValue (.mapping style) i

/-- **Anchors are looked for below values**, and nowhere else. -/
theorem Kind.searchesChild_iff {kind : Kind} {i : Nat} :
    kind.searchesChild i = true ↔ kind.HoldsValue i := by
  constructor
  · intro h
    cases kind with
    | stream =>
        obtain rfl : i = 0 := by simpa [searchesChild] using h
        exact .document
    | document =>
        obtain rfl : i = 0 := by simpa [searchesChild] using h
        exact .content
    | sequence style => exact .item style i
    | mapping style => exact .value style (by simpa [searchesChild] using h)
    | scalar text => cases h
    | aliasTo name => cases h
  · intro h
    cases h with
    | document | content | item => rfl
    | value style hodd => simpa [searchesChild] using hodd

/-- The values of a mapping have odd numbers. -/
theorem Kind.HoldsValue.odd {kind : Kind} {i : Nat} (h : kind.HoldsValue i)
    (hmapping : kind.isMapping = true) : i % 2 = 1 := by
  cases h with
  | document | content | item => cases hmapping
  | value _ hodd => exact hodd

namespace Node

theorem kind_of_outline {n : Node} {bracket : Bracket} {l : List Outline}
    (h : n.outline = .group bracket l) : n.kind = bracket.kind := by
  obtain ⟨kind, start, stop, anchor, children⟩ := n
  cases kind <;> simp only [outline, Outline.group.injEq, reduceCtorEq] at h
  all_goals
    obtain ⟨rfl, -⟩ := h
    rfl

/-! ## The table of anchors -/

/-- Whether an address is reached through values only: past no key, and past no document but the
first one. -/
def ThroughValues : Node → Address → Prop
  | _, [] => True
  | n, i :: rest => n.kind.HoldsValue i ∧ ∃ c, n.children[i]? = some c ∧ c.ThroughValues rest

theorem mem_anchorsInside {a : Address} {kind : Kind} {k : Nat} {l : List Node}
    {entry : Text × Address} :
    entry ∈ anchorsInside a kind k l ↔
      ∃ i c, l[i]? = some c ∧ kind.searchesChild (k + i) = true ∧
        entry ∈ c.anchorsFrom (a ++ [k + i]) := by
  induction l generalizing k with
  | nil => simp [anchorsInside]
  | cons c rest ih =>
      rw [anchorsInside, List.mem_append, ih]
      constructor
      · rintro (h | ⟨i, d, hd, hsearched, hmem⟩)
        · split at h
          · next hsearched => exact ⟨0, c, rfl, hsearched, h⟩
          · cases h
        · rw [Nat.add_right_comm] at hsearched hmem
          exact ⟨i + 1, d, hd, hsearched, hmem⟩
      · rintro ⟨i, d, hd, hsearched, hmem⟩
        cases i with
        | zero =>
            cases hd
            refine .inl ?_
            rw [if_pos (by simpa using hsearched)]
            simpa using hmem
        | succ i =>
            refine .inr ⟨i, d, hd, ?_, ?_⟩
            · rwa [Nat.add_right_comm]
            · rwa [Nat.add_right_comm]

/-- A node's own anchor comes first, and then those below it. -/
theorem mem_anchorsFrom {a : Address} {n : Node} {entry : Text × Address} :
    entry ∈ n.anchorsFrom a ↔
      n.anchor = some entry.1 ∧ entry.2 = a ∨
        ∃ i c, n.children[i]? = some c ∧ n.kind.searchesChild i = true ∧
          entry ∈ c.anchorsFrom (a ++ [i]) := by
  obtain ⟨kind, start, stop, anchor, children⟩ := n
  obtain ⟨name, address⟩ := entry
  rw [anchorsFrom, List.mem_append, mem_anchorsInside]
  simp only [Nat.zero_add]
  refine or_congr ?_ Iff.rfl
  cases anchor with
  | none => simp
  | some own => simp [eq_comm]

/-- **The table holds the nodes with anchors that are reached through values only.** -/
theorem mem_anchorsFrom_iff {a b : Address} {n : Node} {name : Text} :
    (name, b) ∈ n.anchorsFrom a ↔
      ∃ r d, b = a ++ r ∧ n.descendant? r = some d ∧ d.anchor = some name ∧
        n.ThroughValues r := by
  constructor
  · intro h
    rcases mem_anchorsFrom.mp h with ⟨hanchor, hb⟩ | ⟨i, c, hc, hsearched, hmem⟩
    · exact ⟨[], n, by simpa using hb, rfl, hanchor, trivial⟩
    · obtain ⟨r, d, rfl, hd, hanchor, hvalues⟩ := mem_anchorsFrom_iff.mp hmem
      exact ⟨i :: r, d, by simp, descendant?_cons_eq_some.mpr ⟨c, hc, hd⟩, hanchor,
        Kind.searchesChild_iff.mp hsearched, c, hc, hvalues⟩
  · rintro ⟨r, d, rfl, hd, hanchor, hvalues⟩
    induction r generalizing n a with
    | nil =>
        cases hd
        exact mem_anchorsFrom.mpr (.inl ⟨hanchor, by simp⟩)
    | cons i r ih =>
        obtain ⟨hvalue, c, hc, hvalues⟩ := hvalues
        obtain ⟨c', hc', hd⟩ := descendant?_cons_eq_some.mp hd
        cases hc.symm.trans hc'
        have hmem := ih (a := a ++ [i]) hd hvalues
        rw [List.append_assoc, List.singleton_append] at hmem
        exact mem_anchorsFrom.mpr (.inr ⟨i, c, hc, Kind.searchesChild_iff.mpr hvalue, hmem⟩)
termination_by sizeOf n
decreasing_by
  obtain ⟨kind, start, stop, anchor, children⟩ := n
  have hlt : sizeOf c < sizeOf children := List.sizeOf_lt_of_mem (List.mem_of_getElem? hc)
  simp only [Node.mk.sizeOf_spec]
  omega

end Node

namespace AnchorTable

/-- A name that is found is in the table. -/
theorem mem_of_get? {table : AnchorTable} {name : Text} {a : Address}
    (h : table.get? name = some a) : (name, a) ∈ table.anchors := by
  obtain ⟨l₁, l₂, hl, -⟩ := List.lookup_eq_some_iff.mp h
  rw [← List.mem_reverse, hl]
  simp

end AnchorTable

/-! ## Addresses of nodes -/

namespace Node

theorem descendant?_of_append {n d : Node} {a b : Address} (h : n.descendant? (a ++ b) = some d) :
    ∃ e, n.descendant? a = some e ∧ e.descendant? b = some d := by
  induction a generalizing n with
  | nil => exact ⟨n, rfl, h⟩
  | cons i rest ih =>
      obtain ⟨c, hc, hd⟩ := descendant?_cons_eq_some.mp h
      obtain ⟨e, he, hd⟩ := ih hd
      exact ⟨e, descendant?_cons_eq_some.mpr ⟨c, hc, he⟩, hd⟩

theorem descendant?_concat {n m c : Node} {a : Address} {i : Nat} (h : n.descendant? a = some m)
    (hc : m.children[i]? = some c) : n.descendant? (a ++ [i]) = some c := by
  rw [descendant?_append h]
  exact descendant?_cons_eq_some.mpr ⟨c, hc, rfl⟩

/-- The last step of a way through values leads to one. -/
theorem ThroughValues.last {n m : Node} {a : Address} {i : Nat} (h : n.ThroughValues (a ++ [i]))
    (hm : n.descendant? a = some m) : m.kind.HoldsValue i := by
  induction a generalizing n with
  | nil =>
      cases hm
      exact h.1
  | cons j rest ih =>
      obtain ⟨-, c, hc, h⟩ := h
      obtain ⟨c', hc', hm⟩ := descendant?_cons_eq_some.mp hm
      cases hc.symm.trans hc'
      exact ih h hm

end Node

/-- How many moves a search can make that comes to a node of this kind. -/
def Kind.rank : Kind → Nat
  | .stream => 3
  | .document => 2
  | .aliasTo _ => 1
  | _ => 0

theorem Kind.two_le_rank {kind : Kind} (h : kind.isWrapper = true) : 2 ≤ kind.rank := by
  cases kind <;> simp_all [rank, isWrapper]

/-- Whether the search has met an alias to an anchor that is not in the table. -/
def LocateError.IsUnknown (e : LocateError) : Prop := ∃ name, e = .unknownAnchor name

namespace Tree

variable {t : Tree} {n : Node} {a b : Address}

/-- A tree of well-nested events whose mappings hold whole pairs, with its anchors. -/
structure Sound (t : Tree) : Prop where
  nested : ∃ contents : List Outline, (∀ o ∈ contents, o.IsNode) ∧
    t.root.outline = .stream contents
  regular : t.root.All Node.Regular
  anchors : t.anchors = .ofRoot t.root

/-- One move of a search that is not at rest: into a wrapper that holds something, or to the anchor
of an alias. -/
inductive Moves (t : Tree) : Address → Address → Prop where
  | unwrap {a : Address} {n : Node} (hn : t.root.descendant? a = some n)
      (hwrapper : n.kind.isWrapper = true) (hfull : n.children ≠ []) : Moves t a (a ++ [0])
  | anchor {a b : Address} {n : Node} {name : Text} (hn : t.root.descendant? a = some n)
      (halias : n.alias? = some name) (hanchor : t.anchors.get? name = some b) : Moves t a b

/-- A location with everything that it needs. It is the place of a node that is written, past
wrappers and aliases; what is recorded as its parent is the node above it; and it is no key. -/
structure Placed (t : Tree) (l : Location) : Prop where
  rests : ∃ n, t.root.descendant? l.target = some n ∧ n.alias? = none ∧
    (n.kind.isWrapper = true → n.children = [])
  above : ∀ {p}, l.parent = some p → l.target ≠ [] ∧ p = l.target.dropLast
  value : ∀ {p m}, l.parent = some p → t.root.descendant? p = some m → m.isMapping = true →
    ∃ i, l.index? = some i ∧ i % 2 = 1

/-! ## Searches come to rest -/

/-- The node at an address is the stream, a document, or a node inside a document. -/
theorem Sound.cases (ht : t.Sound) (h : t.root.descendant? a = some n) :
    a = [] ∧ n.kind = .stream ∨ (∃ i, a = [i]) ∧ n.kind = .document ∨ n.outline.IsNode := by
  obtain ⟨contents, hcontents, hroot⟩ := ht.nested
  have hat := Node.at?_of_descendant? ht.regular h
  rw [hroot] at hat
  cases a with
  | nil => exact .inl ⟨rfl, Node.kind_of_outline (Option.some.inj hat).symm⟩
  | cons i rest =>
      refine .inr ?_
      obtain ⟨_, _, child, ho, hi, hrest⟩ := Outline.at?_cons_eq_some.mp hat
      cases ho
      rw [Outline.documents, List.getElem?_map] at hi
      obtain ⟨content, hcontent, rfl⟩ := Option.map_eq_some_iff.mp hi
      have hisNode := hcontents content (List.mem_of_getElem? hcontent)
      cases rest with
      | nil => exact .inl ⟨⟨i, rfl⟩, Node.kind_of_outline (Option.some.inj hrest).symm⟩
      | cons j rest =>
          refine .inr ?_
          obtain ⟨_, _, child, ho, hj, hrest⟩ := Outline.at?_cons_eq_some.mp hrest
          cases ho
          obtain rfl : content = child := by
            cases j with
            | zero => exact Option.some.inj hj
            | succ j => cases hj
          exact hisNode.at? hrest

theorem rank_lt_two (h : n.outline.IsNode) : n.kind.rank < 2 := by
  have hwrapper := Node.isWrapper_of_isNode h
  cases hkind : n.kind <;> simp_all [Kind.rank, Kind.isWrapper]

/-- What is in a wrapper has a lower rank. -/
theorem Sound.rank_child (ht : t.Sound) (h : t.root.descendant? a = some n) {c : Node} {i : Nat}
    (hc : n.children[i]? = some c) (hwrapper : n.kind.isWrapper = true) :
    c.kind.rank < n.kind.rank := by
  have hchild := ht.cases (Node.descendant?_concat h hc)
  rcases ht.cases h with ⟨rfl, hkind⟩ | ⟨⟨j, rfl⟩, hkind⟩ | hisNode
  · -- below the stream there are documents
    rcases hchild with ⟨h, -⟩ | ⟨-, hc⟩ | hisNode
    · cases h
    · rw [hkind, hc]
      decide
    · have hrank := rank_lt_two hisNode
      rw [hkind]
      show c.kind.rank < 3
      omega
  · -- below a document there is its content
    rcases hchild with ⟨h, -⟩ | ⟨⟨_, h⟩, -⟩ | hisNode
    · cases h
    · cases h
    · rw [hkind]
      exact rank_lt_two hisNode
  · rw [Node.isWrapper_of_isNode hisNode] at hwrapper
    cases hwrapper

/-- An anchor that is found is in the tree, at a node where a search rests, and it is the anchor of
a value. -/
theorem Sound.anchored (ht : t.Sound) {name : Text} (h : t.anchors.get? name = some b) :
    ∃ d, t.root.descendant? b = some d ∧ d.anchor = some name ∧ d.alias? = none ∧
      d.kind.isWrapper = false ∧ t.root.ThroughValues b := by
  have hmem := AnchorTable.mem_of_get? h
  rw [ht.anchors] at hmem
  obtain ⟨r, d, hb, hd, hanchor, hvalues⟩ := Node.mem_anchorsFrom_iff.mp hmem
  obtain rfl : b = r := by simpa using hb
  obtain ⟨halias, hwrapper⟩ := (ht.regular.descendant? hd).here.anchored (by rw [hanchor]; rfl)
  exact ⟨d, hd, hanchor, halias, hwrapper, hvalues⟩

/-- How many moves a search can make from a place. -/
def rank (t : Tree) (a : Address) : Nat :=
  match t.root.descendant? a with
  | some n => n.kind.rank
  | none => 0

/-- Every move goes down the rank. -/
theorem Sound.rank_lt (ht : t.Sound) (h : t.Moves a b) : t.rank b < t.rank a := by
  cases h with
  | @unwrap n hn hwrapper hfull =>
      obtain ⟨c, rest, hchildren⟩ := List.exists_cons_of_ne_nil hfull
      have hc : n.children[0]? = some c := by rw [hchildren]; rfl
      have hlt := ht.rank_child hn hc hwrapper
      simpa only [rank, hn, Node.descendant?_concat hn hc] using hlt
  | @anchor _ n name hn halias hanchor =>
      obtain ⟨d, hd, -, hd', hwrapper, -⟩ := ht.anchored hanchor
      have hn' : n.kind.rank = 1 := by
        unfold Node.alias? at halias
        split at halias
        · next hkind => rw [hkind]; rfl
        · cases halias
      have hd' : d.kind.rank = 0 := by
        unfold Node.alias? at hd'
        cases hkind : d.kind <;> simp_all [Kind.rank, Kind.isWrapper]
      simp only [rank, hn, hd, hn', hd']
      decide

/-- **A search comes to rest**: no chain of moves is endless, whatever the aliases refer to. -/
theorem Sound.moves_wellFounded (ht : t.Sound) : WellFounded fun b a => t.Moves a b :=
  Subrelation.wf (fun h => ht.rank_lt h) (InvImage.wf t.rank Nat.lt_wfRel.wf)

/-- Going down through wrappers with fuel for all of them. -/
theorem Sound.unwrap (ht : t.Sound) (fuel : Nat) (h : t.root.descendant? a = some n)
    (hfuel : n.kind.rank ≤ fuel + 1) :
    ∃ b d, t.unwrap fuel a = .ok (b, d) ∧ t.root.descendant? b = some d ∧
      (d.kind.isWrapper = true → d.children = []) ∧ Relation.ReflTransGen t.Moves a b ∧
      (n.kind.isWrapper = false → b = a) := by
  induction fuel generalizing a n with
  | zero =>
      refine ⟨a, n, ?_, h, fun hwrapper => ?_, .refl, fun _ => rfl⟩
      · rw [Tree.unwrap, node_of_descendant? h]
        rfl
      · have := Kind.two_le_rank hwrapper
        omega
  | succ fuel ih =>
      rw [Tree.unwrap, node_of_descendant? h]
      show ∃ b d, (if n.kind.isWrapper = true ∧ (!n.children.isEmpty) = true then
        t.unwrap fuel (a ++ [0]) else Except.ok (a, n)) = _ ∧ _
      split
      · next hwrapper =>
          obtain ⟨c, rest, hchildren⟩ : ∃ c rest, n.children = c :: rest :=
            List.exists_cons_of_ne_nil (by simpa using hwrapper.2)
          have hc : n.children[0]? = some c := by rw [hchildren]; rfl
          have hlt := ht.rank_child h hc hwrapper.1
          obtain ⟨b, d, hunwrap, hd, hempty, hmoves, -⟩ :=
            ih (Node.descendant?_concat h hc) (by omega)
          refine ⟨b, d, hunwrap, hd, hempty, .head (.unwrap h hwrapper.1 ?_) hmoves, ?_⟩
          · rw [hchildren]
            exact List.cons_ne_nil c rest
          · intro hnot
            cases hwrapper.1.symm.trans hnot
      · next hrests =>
          refine ⟨a, n, rfl, h, fun hwrapper => ?_, .refl, fun _ => rfl⟩
          by_contra hfull
          exact hrests ⟨hwrapper, by simpa using hfull⟩

/-- A search that is at rest stays there. -/
theorem unwrap_succ {fuel : Nat} {d : Node} (h : t.unwrap fuel a = .ok (b, d))
    (hrests : d.kind.isWrapper = true → d.children = []) : t.unwrap (fuel + 1) a = .ok (b, d) := by
  induction fuel generalizing a with
  | zero =>
      rw [Tree.unwrap, bind_eq_ok] at h
      obtain ⟨n, hn, h⟩ := h
      cases h
      rw [Tree.unwrap, hn]
      show (if d.kind.isWrapper = true ∧ (!d.children.isEmpty) = true then
        t.unwrap 0 (b ++ [0]) else Except.ok (b, d)) = _
      rw [if_neg (by rintro ⟨hwrapper, hfull⟩; rw [hrests hwrapper] at hfull; cases hfull)]
  | succ fuel ih =>
      rw [Tree.unwrap, bind_eq_ok] at h
      obtain ⟨n, hn, h⟩ := h
      rw [Tree.unwrap, hn]
      show (if n.kind.isWrapper = true ∧ (!n.children.isEmpty) = true then
        t.unwrap (fuel + 1) (a ++ [0]) else Except.ok (a, n)) = _
      split at h
      · next hwrapper => rw [if_pos hwrapper, ih h]
      · next hwrapper =>
          rw [if_neg hwrapper]
          exact h

/-- **The bound on a search through wrappers does not end it**: with any greater one it ends at the
same place. -/
theorem Sound.unwrap_eq (ht : t.Sound) {fuel : Nat} (hfuel : 2 ≤ fuel)
    (h : t.root.descendant? a = some n) : t.unwrap fuel a = t.unwrap 2 a := by
  obtain ⟨b, d, hunwrap, -, hrests, -⟩ := ht.unwrap 2 h (by
    cases n.kind <;> simp [Kind.rank])
  rw [hunwrap]
  induction hfuel with
  | refl => exact hunwrap
  | step _ ih => exact unwrap_succ ih hrests

/-- What is recorded above a place: nothing, or the node above, of which it is no key. -/
def Hangs (t : Tree) (a : Address) (parent : Option Address) : Prop :=
  ∀ {p}, parent = some p → ∃ i, a = p ++ [i] ∧
    ∀ {m}, t.root.descendant? p = some m → m.isMapping = true → i % 2 = 1

theorem placed_of_hangs {parent : Option Address} (h : t.root.descendant? a = some n)
    (halias : n.alias? = none) (hempty : n.kind.isWrapper = true → n.children = [])
    (hparent : t.Hangs a parent) : t.Placed ⟨a, parent⟩ where
  rests := ⟨n, h, halias, hempty⟩
  above {p} hp := by
    obtain ⟨i, rfl, -⟩ := hparent hp
    simp
  value {p m} hp hm hmapping := by
    obtain rfl : parent = some p := hp
    obtain ⟨i, rfl, hodd⟩ := hparent rfl
    exact ⟨i, List.getLast?_concat, hodd hm hmapping⟩

theorem Sound.resolve (ht : t.Sound) (name : Text) :
    Yields LocateError.IsUnknown (fun p => t.anchors.get? name = some p.1 ∧
      t.root.descendant? p.1 = some p.2 ∧ p.2.alias? = none ∧ p.2.kind.isWrapper = false ∧
      t.root.ThroughValues p.1) (t.resolve name) := by
  unfold Tree.resolve
  cases hanchor : t.anchors.get? name with
  | none => exact ⟨name, rfl⟩
  | some b =>
      obtain ⟨d, hd, -, halias, hwrapper, hvalues⟩ := ht.anchored hanchor
      dsimp only
      rw [hd]
      exact ⟨rfl, hd, halias, hwrapper, hvalues⟩

/-- **A search settles at a place with everything that it needs**, after some moves, unless it meets
an alias to an unknown anchor. -/
theorem Sound.settle (ht : t.Sound) {parent : Option Address}
    (h : t.root.descendant? a = some n) (hwrapper : parent ≠ none → n.kind.isWrapper = false)
    (hparent : t.Hangs a parent) :
    Yields LocateError.IsUnknown (fun l => t.Placed l ∧ Relation.ReflTransGen t.Moves a l.target ∧
      (l.parent = none → parent = none)) (t.settle a parent) := by
  obtain ⟨b, d, hunwrap, hd, hempty, hmoves, hsame⟩ := ht.unwrap 2 h (by
    cases n.kind <;> simp [Kind.rank])
  unfold Tree.settle
  rw [hunwrap, ok_bind]
  dsimp only
  cases halias : d.alias? with
  | none =>
      refine ⟨placed_of_hangs hd halias hempty ?_, hmoves, id⟩
      intro p hp
      obtain rfl : b = a := hsame (hwrapper (by rw [hp]; exact Option.some_ne_none p))
      exact hparent hp
  | some name =>
      refine (ht.resolve name).bind fun p hp => ?_
      obtain ⟨c, e⟩ := p
      obtain ⟨hanchor, he, halias', hwrapper', hvalues⟩ := hp
      -- the stream carries no anchor, so there is a node above the one that does
      have hc : c ≠ [] := by
        rintro rfl
        cases he
        obtain ⟨_, -, hroot⟩ := ht.nested
        rw [Node.kind_of_outline hroot] at hwrapper'
        cases hwrapper'
      obtain ⟨q, i, rfl⟩ : ∃ q i, c = q ++ [i] :=
        ⟨c.dropLast, c.getLast hc, (List.dropLast_concat_getLast hc).symm⟩
      have hq : Address.parent? (q ++ [i]) = some q := by simp [Address.parent?]
      show t.Placed ⟨q ++ [i], Address.parent? (q ++ [i])⟩ ∧ _
      refine ⟨placed_of_hangs he halias' (fun hnot => by cases hwrapper'.symm.trans hnot) ?_,
        hmoves.tail (.anchor hd halias hanchor), ?_⟩
      · rintro p hp
        cases hq.symm.trans hp
        exact ⟨i, rfl, fun hm hmapping => (hvalues.last hm).odd hmapping⟩
      · intro hp
        cases hq.symm.trans hp

/-! ## Steps of a selector -/

/-- Whether a node is in the tree. -/
def Holds (t : Tree) (n : Node) : Prop := ∃ a, t.root.descendant? a = some n

theorem Holds.child {c : Node} {i : Nat} (h : t.Holds n) (hc : n.children[i]? = some c) :
    t.Holds c := by
  obtain ⟨a, ha⟩ := h
  exact ⟨a ++ [i], Node.descendant?_concat ha hc⟩

/-- What a node refers to is in the tree. -/
theorem Sound.deref (ht : t.Sound) (h : t.Holds n) :
    Yields LocateError.IsUnknown t.Holds (t.deref n) := by
  unfold Tree.deref
  cases n.alias? with
  | none => exact h
  | some name => exact (ht.resolve name).bind fun p hp => ⟨p.1, hp.2.1⟩

/-- A number of a child of a node, which is no key. -/
def IsEntry (n : Node) (i : Nat) : Prop :=
  (∃ c, n.children[i]? = some c) ∧ n.kind.isWrapper = false ∧ (n.isMapping = true → i % 2 = 1)

theorem isEntry_of_lt {i : Nat} (hlt : i < n.children.length) (hsequence : n.isSequence = true) :
    IsEntry n i := by
  unfold Node.isSequence at hsequence
  refine ⟨⟨_, List.getElem?_eq_getElem hlt⟩, ?_, ?_⟩
  · cases hkind : n.kind <;> simp_all [Kind.isSequence, Kind.isWrapper]
  · unfold Node.isMapping
    cases hkind : n.kind <;> simp_all [Kind.isSequence, Kind.isMapping]

/-- The value for a key is behind the key. -/
theorem of_valueIndex? {name : Text} {k i : Nat} {l : List Node}
    (h : valueIndex? name k l = some i) : k ≤ i ∧ i - k < l.length ∧ (i - k) % 2 = 1 := by
  fun_induction valueIndex? name k l with
  | case1 k key value rest hkey =>
      cases h
      simp
  | case2 k key value rest hkey ih =>
      obtain ⟨hle, hlt, hodd⟩ := ih h
      simp only [List.length_cons]
      omega
  | case3 => cases h

theorem Sound.stepKey (ht : t.Sound) (h : t.Holds n) (hmapping : n.isMapping = true)
    (name : Text) :
    Yields LocateError.IsUnknown (fun r => ∀ i, r = some i → IsEntry n i) (stepKey n name) := by
  obtain ⟨a, ha⟩ := h
  have hkind : ∃ style, n.kind = .mapping style := by
    unfold Node.isMapping at hmapping
    cases hkind : n.kind <;> simp_all [Kind.isMapping]
  obtain ⟨style, hkind⟩ := hkind
  have heven : n.children.length % 2 = 0 := by
    rcases ht.cases ha with ⟨-, h⟩ | ⟨-, h⟩ | hisNode
    · cases hkind.symm.trans h
    · cases hkind.symm.trans h
    · obtain ⟨kind, start, stop, anchor, children⟩ := n
      cases hkind
      cases hisNode with
      | mapping style paired inner => rwa [Node.outlines_eq_map, List.length_map] at paired
  rw [Tree.stepKey, if_pos heven]
  intro i hi
  obtain ⟨-, hlt, hodd⟩ := of_valueIndex? hi
  refine ⟨⟨_, List.getElem?_eq_getElem hlt⟩, by rw [hkind]; rfl, fun _ => hodd⟩

/-- A search among children asks about each of them. -/
theorem yields_findChild {p : Node → Except LocateError Bool} {k : Nat} {l : List Node}
    (hp : ∀ c ∈ l, Yields LocateError.IsUnknown (fun _ => True) (p c)) :
    Yields LocateError.IsUnknown (fun r => ∀ i, r = some i → k ≤ i ∧ i - k < l.length)
      (findChild p k l) := by
  induction l generalizing k with
  | nil => exact forall_none
  | cons c rest ih =>
      rw [findChild]
      refine (hp c List.mem_cons_self).bind fun found _ => ?_
      cases found with
      | true =>
          intro i hi
          cases hi
          simp
      | false =>
          refine (ih fun c hc => hp c (List.mem_cons_of_mem _ hc)).mono fun r hr i hi => ?_
          obtain ⟨hle, hlt⟩ := hr i hi
          simp only [List.length_cons]
          omega

theorem Sound.matchesFilter (ht : t.Sound) {c : Node} (h : t.Holds c) (name value : Text) :
    Yields LocateError.IsUnknown (fun _ => True) (t.matchesFilter name value c) := by
  unfold Tree.matchesFilter
  refine (ht.deref h).bind fun element helement => ?_
  cases hmapping : element.isMapping with
  | false => trivial
  | true =>
      refine (ht.stepKey helement hmapping name).bind fun r hr => ?_
      cases r with
      | none => trivial
      | some i =>
          obtain ⟨⟨held, hheld⟩, -⟩ := hr i rfl
          dsimp only
          rw [hheld]
          exact (ht.deref (helement.child hheld)).bind fun _ _ => trivial

/-- **A step leads to an entry** of the node, if it leads anywhere. -/
theorem Sound.step (ht : t.Sound) (h : t.Holds n) (segment : Segment) :
    Yields LocateError.IsUnknown (fun r => ∀ i, r = some i → IsEntry n i) (t.step n segment) := by
  have hfind : ∀ {p : Node → Except LocateError Bool}, n.isSequence = true →
      (∀ c ∈ n.children, Yields LocateError.IsUnknown (fun _ => True) (p c)) →
      Yields LocateError.IsUnknown (fun r => ∀ i, r = some i → IsEntry n i)
        (findChild p 0 n.children) := by
    intro p hsequence hp
    exact (yields_findChild hp).mono fun r hr i hi => isEntry_of_lt (hr i hi).2 hsequence
  have hchild : ∀ c ∈ n.children, t.Holds c := by
    intro c hc
    obtain ⟨i, hi⟩ := List.mem_iff_getElem?.mp hc
    exact h.child hi
  cases segment with
  | key name =>
      rw [Tree.step]
      split
      · next hmapping => exact ht.stepKey h hmapping name
      · split
        · next hsequence =>
            exact hfind hsequence fun c hc => (ht.deref (hchild c hc)).bind fun _ _ => trivial
        · exact forall_none
  | index k =>
      rw [Tree.step]
      intro i hi
      split at hi
      · next hlt =>
          cases hi
          exact isEntry_of_lt hlt.2 hlt.1
      · cases hi
  | filter name value =>
      rw [Tree.step]
      split
      · next hsequence =>
          exact hfind hsequence fun c hc => ht.matchesFilter (hchild c hc) name value.text
      · exact forall_none

/-- What is in a node that is no wrapper is none. -/
theorem Sound.isNode_child (ht : t.Sound) (h : t.root.descendant? a = some n)
    (hwrapper : n.kind.isWrapper = false) {c : Node} {i : Nat} (hc : n.children[i]? = some c) :
    c.outline.IsNode := by
  rcases ht.cases h with ⟨-, hkind⟩ | ⟨-, hkind⟩ | hisNode
  · rw [hkind] at hwrapper
    cases hwrapper
  · rw [hkind] at hwrapper
    cases hwrapper
  · exact hisNode.at? (Node.at?_of_descendant? (ht.regular.descendant? h) (a := [i])
      (Node.descendant?_cons_eq_some.mpr ⟨c, hc, rfl⟩))

/-- **A search keeps to places with everything that they need**, step by step. -/
theorem Sound.follow (ht : t.Sound) {segments : List Segment} {l : Location} (hl : t.Placed l) :
    Yields LocateError.IsUnknown
      (fun r => ∀ l', r = some l' → t.Placed l' ∧
        (l'.parent = none → segments = [] ∧ l.parent = none))
      (t.follow segments l) := by
  induction segments generalizing l with
  | nil =>
      rintro l' hl'
      cases hl'
      exact ⟨hl, fun hnone => ⟨rfl, hnone⟩⟩
  | cons segment rest ih =>
      obtain ⟨n, hn, -⟩ := hl.rests
      rw [Tree.follow, node_of_descendant? hn]
      refine (ht.step ⟨_, hn⟩ segment).bind fun r hr => ?_
      cases r with
      | none => exact forall_none
      | some i =>
          obtain ⟨⟨c, hc⟩, hwrapper, hodd⟩ := hr i rfl
          have hisNode := ht.isNode_child hn hwrapper hc
          refine (ht.settle (Node.descendant?_concat hn hc)
            (fun _ => Node.isWrapper_of_isNode hisNode) ?_).bind fun l' hl' => ?_
          · rintro p hp
            cases hp
            refine ⟨i, rfl, fun hm hmapping => ?_⟩
            cases hn.symm.trans hm
            exact hodd hmapping
          · obtain ⟨hplaced, -, hparent⟩ := hl'
            refine (ih hplaced).mono fun r hr l'' hl'' => ?_
            obtain ⟨hplaced', hnone⟩ := hr l'' hl''
            exact ⟨hplaced', fun hl'' => absurd (hparent (hnone hl'').2) (Option.some_ne_none _)⟩

/-- **A selector leads to a place with everything that it needs**, if it leads anywhere, and only
the selector without a step leads to one with nothing above it. -/
theorem Sound.locate (ht : t.Sound) (s : Selector) :
    Yields LocateError.IsUnknown
      (fun r => ∀ l, r = some l → t.Placed l ∧ (l.parent = none → s.segments = []))
      (t.locate s) := by
  refine (ht.settle (a := []) rfl (fun h => absurd rfl h) nofun).bind fun l hl => ?_
  refine (ht.follow hl.1).mono fun r hr l' hl' => ?_
  obtain ⟨hplaced, hnone⟩ := hr l' hl'
  exact ⟨hplaced, fun habove => (hnone habove).1⟩

end Tree

end YamlEdit
