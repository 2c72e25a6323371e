import YamlEdit.Proofs.Splicing
import YamlEdit.Proofs.TreeOfEvents

/-!
# Paths of keys and indices

A path of mapping keys and sequence indices that meets no alias leads down the outline alone.
`Outline.walk` follows it there, and the search in the tree agrees
(`Snapshot.resolve_of_addressOf`).
Because only keys on the way are looked at, such a path leads to the same address after what it
leads to has been replaced (`Outline.walk_replace`), unless an alias is put there. The value at such
a path is read from the text of the node at its address alone (`Snapshot.value_eq_valueAt`).
-/

namespace YamlEdit

namespace Outline

/-! ## Walking down an outline -/

/-- The decoded text of a scalar. -/
def text? : Outline → Option Text
  | scalar text => some text
  | _ => none

/-- Whether this is a reference. -/
def isReference : Outline → Bool
  | reference _ => true
  | _ => false

/-- The number of the value for a key, among the children of a mapping from number `index` on. -/
def valueIndex? (name : Text) : (index : Nat) → List Outline → Option Nat
  | index, key :: _ :: rest =>
    if key.text? = some name then some (index + 1) else valueIndex? name (index + 2) rest
  | _, _ => none

/-- The number of the child that a key or an index leads to. -/
def step? (o : Outline) : Segment → Option Nat
  | .key name =>
    match o with
    | group (.mapping _) l => valueIndex? name 0 l
    | _ => none
  | .index i =>
    match o with
    | group (.sequence _) l => if i < l.length then some i else none
    | _ => none
  | .filter _ _ => none

/-- The address that keys and indices lead to, references not being followed. -/
def walk : List Segment → Outline → Option Address
  | [], _ => some []
  | segment :: rest, o =>
    match o.step? segment with
    | none => none
    | some i =>
      match o.children[i]? with
      | none => none
      | some child => if child.isReference then none else (i :: ·) <$> walk rest child

theorem walk_cons_eq_some {segment : Segment} {rest : List Segment} {o : Outline} {a : Address} :
    walk (segment :: rest) o = some a ↔
      ∃ i child b, o.step? segment = some i ∧ o.children[i]? = some child ∧
        child.isReference = false ∧ walk rest child = some b ∧ a = i :: b := by
  rw [walk]
  constructor
  · intro h
    split at h
    · cases h
    · next i hi =>
        split at h
        · cases h
        · next child hchild =>
            split at h
            · cases h
            · next href =>
                obtain ⟨b, hb, rfl⟩ := Option.map_eq_some_iff.mp h
                exact ⟨i, child, b, hi, hchild, by simpa using href, hb, rfl⟩
  · rintro ⟨i, child, b, hi, hchild, href, hb, rfl⟩
    simp [hi, hchild, href, hb]

/-- A walk ends at something. -/
theorem at?_of_walk {segments : List Segment} {o : Outline} {a : Address}
    (h : walk segments o = some a) : ∃ x, o.at? a = some x := by
  induction segments generalizing o a with
  | nil =>
      cases h
      exact ⟨o, rfl⟩
  | cons segment rest ih =>
      obtain ⟨i, child, b, -, hchild, -, hb, rfl⟩ := walk_cons_eq_some.mp h
      obtain ⟨x, hx⟩ := ih hb
      exact ⟨x, by rw [at?, hchild]; exact hx⟩

theorem lt_of_valueIndex? {name : Text} {k i : Nat} {l : List Outline}
    (h : valueIndex? name k l = some i) : k < i := by
  fun_induction valueIndex? name k l with
  | case1 k key value rest hkey => cases h; omega
  | case2 k key value rest hkey ih => have := ih h; omega
  | case3 => cases h

/-- The value for a key does not decide where it is found. -/
theorem valueIndex?_modify {name : Text} {f : Outline → Outline} {k i : Nat} {l : List Outline}
    (h : valueIndex? name k l = some i) : valueIndex? name k (l.modify (i - k) f) = some i := by
  fun_induction valueIndex? name k l with
  | case1 k key value rest hkey =>
      cases h
      rw [show k + 1 - k = 0 + 1 by omega, List.modify_succ_cons, List.modify_zero_cons,
        valueIndex?, if_pos hkey]
  | case2 k key value rest hkey ih =>
      have hlt := lt_of_valueIndex? h
      rw [show i - k = (i - (k + 2) + 1) + 1 by omega, List.modify_succ_cons,
        List.modify_succ_cons, valueIndex?, if_neg hkey]
      exact ih h
  | case3 => cases h

/-- A step leads to the same child after that child is changed. -/
theorem step?_modify {bracket : Bracket} {l : List Outline} {segment : Segment} {i : Nat}
    {f : Outline → Outline} (h : (group bracket l).step? segment = some i) :
    (group bracket (l.modify i f)).step? segment = some i := by
  cases segment with
  | key name =>
      cases bracket with
      | mapping => exact valueIndex?_modify h
      | _ => cases h
  | index n =>
      cases bracket with
      | sequence =>
          simp only [step?] at h ⊢
          rwa [List.length_modify]
      | _ => cases h
  | filter => cases h

/-- **A path leads to what replaces its target**, unless that is a reference. -/
theorem walk_replace {segments : List Segment} {o x : Outline} {a : Address}
    (h : walk segments o = some a) (ha : a ≠ []) :
    walk segments (o.replace a x) = if x.isReference then none else some a := by
  induction segments generalizing o a with
  | nil =>
      cases h
      exact absurd rfl ha
  | cons segment rest ih =>
      obtain ⟨i, child, b, hi, hchild, href, hb, rfl⟩ := walk_cons_eq_some.mp h
      cases o with
      | scalar text => cases hchild
      | reference name => cases hchild
      | group bracket l =>
          replace hchild : l[i]? = some child := hchild
          have hget : (l.modify i (fun c => c.replace b x))[i]? = some (child.replace b x) := by
            rw [List.getElem?_modify_eq, hchild]
            rfl
          have hstep : ((group bracket l).replace (i :: b) x).step? segment = some i :=
            step?_modify hi
          rw [walk, hstep]
          show (match (l.modify i (fun c => c.replace b x))[i]? with
            | none => none
            | some child => if child.isReference then none else (i :: ·) <$> walk rest child) = _
          rw [hget]
          cases b with
          | nil =>
              -- the child itself is replaced, so nothing is left to walk
              show (if x.isReference then none else (i :: ·) <$> walk rest x) = _
              cases rest with
              | nil => rfl
              | cons s r =>
                  obtain ⟨_, _, _, -, -, -, -, hcons⟩ := walk_cons_eq_some.mp hb
                  cases hcons
          | cons j c =>
              obtain ⟨y, hy⟩ := at?_of_walk hb
              obtain ⟨bracket', l', child', rfl, -, -⟩ := at?_cons_eq_some.mp hy
              -- the child is a collection before and after, and no reference
              show (if (group _ _).isReference then none else (i :: ·) <$> walk rest _) = _
              rw [ih hb (List.cons_ne_nil j c)]
              cases x.isReference <;> rfl

/-- What an address leads to, taken in two parts. -/
theorem at?_append {o y : Outline} {a : Address} (h : o.at? a = some y) (b : Address) :
    o.at? (a ++ b) = y.at? b := by
  induction a generalizing o with
  | nil =>
      obtain rfl : o = y := by simpa [at?] using h
      rfl
  | cons i rest ih =>
      obtain ⟨bracket, l, child, rfl, hi, hy⟩ := at?_cons_eq_some.mp h
      rw [List.cons_append, at?, show (group bracket l).children[i]? = some child from hi]
      exact ih hy

/-- An address that leads to something does so in steps. -/
theorem at?_of_append {o x : Outline} {a b : Address} (h : o.at? (a ++ b) = some x) :
    ∃ y, o.at? a = some y := by
  induction a generalizing o with
  | nil => exact ⟨o, rfl⟩
  | cons i rest ih =>
      obtain ⟨bracket, l, child, rfl, hi, hx⟩ := at?_cons_eq_some.mp h
      obtain ⟨y, hy⟩ := ih hx
      exact ⟨y, at?_cons_eq_some.mpr ⟨bracket, l, child, rfl, hi, hy⟩⟩

/-- A change further down changes what is at an address. -/
theorem at?_modify_append {f : Outline → Outline} {o y : Outline} {a : Address}
    (h : o.at? a = some y) (b : Address) : (o.modify f (a ++ b)).at? a = some (y.modify f b) := by
  induction a generalizing o with
  | nil =>
      obtain rfl : o = y := by simpa [at?] using h
      rfl
  | cons i rest ih =>
      obtain ⟨bracket, l, child, rfl, hi, hy⟩ := at?_cons_eq_some.mp h
      refine at?_cons_eq_some.mpr ⟨bracket, _, child.modify f (rest ++ b), rfl, ?_, ih hy⟩
      rw [List.getElem?_modify_eq, hi]
      rfl

theorem IsNode.at? {o x : Outline} {a : Address} (ho : o.IsNode) (h : o.at? a = some x) :
    x.IsNode := by
  induction a generalizing o with
  | nil =>
      obtain rfl : o = x := by simpa [Outline.at?] using h
      exact ho
  | cons i rest ih =>
      obtain ⟨bracket, l, child, rfl, hi, hx⟩ := at?_cons_eq_some.mp h
      have hmem : child ∈ l := List.mem_of_getElem? hi
      cases ho with
      | sequence _ inner => exact ih (inner child hmem) hx
      | mapping _ _ inner => exact ih (inner child hmem) hx

end Outline

/-! ## Nodes and their outlines -/

namespace Node

/-- A collection that says something holds nodes that say it. -/
theorem children_of_outline {n : Node} {bracket : Bracket} {l : List Outline}
    (h : n.outline = .group bracket l) : n.children.map outline = l := by
  obtain ⟨kind, start, stop, anchor, children⟩ := n
  cases kind <;> simp only [outline, Outline.group.injEq, reduceCtorEq] at h
  all_goals rw [← outlines_eq_map]; exact h.2

theorem descendant?_of_at? {n : Node} {a : Address} {x : Outline} (h : n.outline.at? a = some x) :
    ∃ d, n.descendant? a = some d ∧ d.outline = x := by
  induction a generalizing n with
  | nil =>
      obtain rfl : n.outline = x := by simpa [Outline.at?] using h
      exact ⟨n, rfl, rfl⟩
  | cons i rest ih =>
      obtain ⟨bracket, l, child, ho, hi, hx⟩ := Outline.at?_cons_eq_some.mp h
      rw [← children_of_outline ho, List.getElem?_map] at hi
      obtain ⟨c, hc, rfl⟩ := Option.map_eq_some_iff.mp hi
      obtain ⟨d, hd, hdx⟩ := ih hx
      exact ⟨d, by rw [descendant?, hc]; exact hd, hdx⟩

theorem text?_outline (n : Node) : n.outline.text? = n.scalar? := by
  obtain ⟨kind, start, stop, anchor, children⟩ := n
  cases kind <;> rfl

theorem isReference_outline (n : Node) : n.outline.isReference = n.alias?.isSome := by
  obtain ⟨kind, start, stop, anchor, children⟩ := n
  cases kind <;> rfl

/-- A node that is no wrapper by what it says. -/
theorem isWrapper_of_isNode {n : Node} (h : n.outline.IsNode) : n.kind.isWrapper = false := by
  obtain ⟨kind, start, stop, anchor, children⟩ := n
  cases kind with
  | stream => exact nomatch h
  | document => exact nomatch h
  | _ => rfl

theorem isMapping_of_outline {n : Node} {style : Style} {l : List Outline}
    (h : n.outline = .group (.mapping style) l) : n.isMapping = true := by
  obtain ⟨kind, start, stop, anchor, children⟩ := n
  cases kind <;> first | rfl | cases h

theorem isSequence_of_outline {n : Node} {style : Style} {l : List Outline}
    (h : n.outline = .group (.sequence style) l) : n.isSequence = true := by
  obtain ⟨kind, start, stop, anchor, children⟩ := n
  cases kind <;> first | rfl | cases h

theorem descendant?_append {n d : Node} {a : Address} (h : n.descendant? a = some d)
    (b : Address) : n.descendant? (a ++ b) = d.descendant? b := by
  induction a generalizing n with
  | nil =>
      cases h
      rfl
  | cons i rest ih =>
      rw [descendant?] at h
      rw [List.cons_append, descendant?]
      cases hi : n.children[i]? with
      | none =>
          rw [hi] at h
          cases h
      | some child =>
          rw [hi] at h
          exact ih h

/-- The key of a pair is the child in front of the value. -/
theorem children_of_pairedKey {mapping key : Node} {i : Nat} (h : mapping.pairedKey i = .ok key) :
    mapping.children[i - 1]? = some key := by
  unfold Node.pairedKey at h
  dsimp only at h
  split at h
  · cases h
  · split at h
    · next hkey =>
        cases h
        exact hkey
    · cases h

end Node

/-! ## The search in the tree -/

namespace Tree

variable {t : Tree} {n : Node}

theorem valueIndex?_outline (name : Text) (k : Nat) (l : List Node) :
    Outline.valueIndex? name k (l.map Node.outline) = valueIndex? name k l := by
  fun_induction valueIndex? name k l with
  | case1 k key value rest hkey =>
      rw [List.map_cons, List.map_cons, Outline.valueIndex?, Node.text?_outline, if_pos hkey]
  | case2 k key value rest hkey ih =>
      rw [List.map_cons, List.map_cons, Outline.valueIndex?, Node.text?_outline, if_neg hkey]
      exact ih
  | case3 l k h =>
      match l with
      | [] => rfl
      | [_] => rfl
      | key :: value :: rest => exact absurd rfl (h key value rest)

/-- A key or an index leads the search to the child that it leads to in the outline. -/
theorem step_of_step? {segment : Segment} {i : Nat} (hn : n.outline.IsNode)
    (h : n.outline.step? segment = some i) : t.step n segment = .ok (some i) := by
  cases segment with
  | key name =>
      cases ho : n.outline with
      | group bracket l =>
          rw [ho] at h hn
          cases hn with
          | mapping style paired inner =>
              have hchildren := Node.children_of_outline ho
              rw [step, if_pos (Node.isMapping_of_outline ho), stepKey, if_pos]
              · rw [← valueIndex?_outline, hchildren]
                exact congrArg _ h
              · rw [← hchildren, List.length_map] at paired
                exact paired
          | sequence style inner => cases h
      | scalar text => rw [ho] at h; cases h
      | reference name => rw [ho] at h; cases h
  | index k =>
      cases ho : n.outline with
      | group bracket l =>
          rw [ho] at h hn
          cases hn with
          | sequence style inner =>
              have hchildren := Node.children_of_outline ho
              simp only [Outline.step?, Option.ite_none_right_eq_some, Option.some.injEq] at h
              obtain ⟨hlt, rfl⟩ := h
              rw [← hchildren, List.length_map] at hlt
              rw [step, if_pos ⟨Node.isSequence_of_outline ho, hlt⟩]
          | mapping style paired inner => cases h
      | scalar text => rw [ho] at h; cases h
      | reference name => rw [ho] at h; cases h
  | filter name value => cases h

theorem node_of_descendant? {a : Address} (h : t.root.descendant? a = some n) :
    t.node a = .ok n := by
  rw [node, h]

theorem descendant?_of_node {a : Address} (h : t.node a = .ok n) :
    t.root.descendant? a = some n := by
  unfold node at h
  split at h
  · next hn =>
      cases h
      exact hn
  · cases h

/-- The search goes down through a wrapper that says something. -/
theorem unwrap_wrapper {fuel : Nat} {a : Address} {bracket : Bracket} {o : Outline}
    {l : List Outline} (h : t.root.descendant? a = some n)
    (ho : n.outline = .group bracket (o :: l))
    (hbracket : bracket = .stream ∨ bracket = .document) :
    t.unwrap (fuel + 1) a = t.unwrap fuel (a ++ [0]) := by
  have hchildren := Node.children_of_outline ho
  have hwrapper : n.kind.isWrapper = true := by
    obtain ⟨kind, start, stop, anchor, children⟩ := n
    rcases hbracket with rfl | rfl <;> cases kind <;> first | rfl | cases ho
  have hnonempty : (!n.children.isEmpty) = true := by
    cases hl : n.children with
    | nil =>
        rw [hl] at hchildren
        cases hchildren
    | cons c r => rfl
  rw [unwrap, node_of_descendant? h]
  exact if_pos ⟨hwrapper, hnonempty⟩

/-- A node that is no alias is where the search settles. -/
theorem settle_of_unwrap {a a' : Address} {parent : Option Address}
    (h : t.unwrap 2 a = .ok (a', n)) (href : n.outline.isReference = false) :
    t.settle a parent = .ok ⟨a', parent⟩ := by
  rw [Node.isReference_outline] at href
  have halias : n.alias? = none := by simpa using href
  unfold settle
  refine bind_eq_ok.mpr ⟨(a', n), h, ?_⟩
  dsimp only
  rw [halias]
  rfl

/-- A node that is no wrapper and no alias is where the search settles. -/
theorem settle_of_isNode {a : Address} {parent : Option Address}
    (h : t.root.descendant? a = some n) (hn : n.outline.IsNode)
    (href : n.outline.isReference = false) : t.settle a parent = .ok ⟨a, parent⟩ := by
  refine settle_of_unwrap ?_ href
  rw [unwrap, node_of_descendant? h]
  show (if n.kind.isWrapper = true ∧ _ then _ else Except.ok (a, n)) = _
  rw [if_neg]
  rw [Node.isWrapper_of_isNode hn]
  exact fun hw => nomatch hw.1

/-- The search starts at the content of the first document. -/
theorem settle_root {rest : List Outline} (houtline : t.root.outline = .stream (n.outline :: rest))
    (hn : t.root.descendant? [0, 0] = some n) (href : n.outline.isReference = false) :
    t.settle [] none = .ok ⟨[0, 0], none⟩ := by
  obtain ⟨d, hd, hdo⟩ := Node.descendant?_of_at? (n := t.root) (a := [0])
    (x := .group .document [n.outline]) (by rw [houtline]; rfl)
  refine settle_of_unwrap ?_ href
  rw [unwrap_wrapper rfl houtline (.inl rfl)]
  show t.unwrap 1 [0] = _
  rw [unwrap_wrapper hd hdo (.inr rfl)]
  show (t.node [0, 0] >>= fun n => pure ([0, 0], n)) = _
  rw [node_of_descendant? hn]
  rfl

/-- **The search follows a walk.** -/
theorem follow_of_walk {segments : List Segment} {here a : Address} {parent : Option Address}
    (h : t.root.descendant? here = some n) (hn : n.outline.IsNode)
    (hwalk : n.outline.walk segments = some a) :
    t.follow segments ⟨here, parent⟩ =
      .ok (some ⟨here ++ a, if a = [] then parent else some (here ++ a).dropLast⟩) := by
  induction segments generalizing n here parent a with
  | nil =>
      cases hwalk
      simp [follow]
  | cons segment rest ih =>
      obtain ⟨i, child, b, hi, hchild, href, hb, rfl⟩ := Outline.walk_cons_eq_some.mp hwalk
      -- the child of the outline is the outline of a child
      have hat : n.outline.at? [i] = some child := by
        rw [Outline.at?, hchild]
        rfl
      obtain ⟨d, hd, rfl⟩ := Node.descendant?_of_at? hat
      have hchild' : t.root.descendant? (here ++ [i]) = some d := by
        rw [Node.descendant?_append h]
        exact hd
      have hisNode := hn.at? hat
      rw [follow, node_of_descendant? h]
      show (t.step n segment >>= _) = _
      rw [step_of_step? hn hi]
      show (t.settle (here ++ [i]) (some here) >>= fun l => t.follow rest l) = _
      rw [settle_of_isNode hchild' hisNode href]
      show t.follow rest ⟨here ++ [i], some here⟩ = _
      rw [ih hchild' hisNode hb]
      cases b with
      | nil => simp
      | cons j c => simp

end Tree

/-! ## Paths in a text -/

namespace Snapshot

/-- The address that a path of keys and indices leads to, no alias being on the way or at its
end. -/
def addressOf (s : Snapshot) (path : Text) : Option Address :=
  match Selector.parse path with
  | .error _ => none
  | .ok selector =>
    match s.outline.at? [0, 0] with
    | none => none
    | some content =>
      if content.isReference then none else ([0, 0] ++ ·) <$> content.walk selector.segments

theorem addressOf_eq_some {s : Snapshot} {path : Text} {a : Address} :
    s.addressOf path = some a ↔
      ∃ selector content b, Selector.parse path = .ok selector ∧
        s.outline.at? [0, 0] = some content ∧ content.isReference = false ∧
        content.walk selector.segments = some b ∧ a = [0, 0] ++ b := by
  unfold addressOf
  constructor
  · intro h
    split at h
    · cases h
    · next selector hselector =>
        split at h
        · cases h
        · next content hcontent =>
            split at h
            · cases h
            · next href =>
                obtain ⟨b, hb, rfl⟩ := Option.map_eq_some_iff.mp h
                exact ⟨selector, content, b, hselector, hcontent, by simpa using href, hb, rfl⟩
  · rintro ⟨selector, content, b, hselector, hcontent, href, hb, rfl⟩
    simp [hselector, hcontent, href, hb]

/-- What a path leads to is in the outline. -/
theorem at?_of_addressOf {s : Snapshot} {path : Text} {a : Address}
    (h : s.addressOf path = some a) : ∃ x, s.outline.at? a = some x := by
  obtain ⟨selector, content, b, -, hcontent, -, hb, rfl⟩ := addressOf_eq_some.mp h
  rw [Outline.at?_append hcontent]
  exact Outline.at?_of_walk hb

/-- The search for a path of keys and indices ends at its address. -/
theorem locate_of_addressOf {source path : Text} {s : Snapshot} {a : Address}
    (h : Snapshot.ofText source = .ok s) (ha : s.addressOf path = some a) :
    ∃ selector b, Selector.parse path = .ok selector ∧ a = [0, 0] ++ b ∧
      s.tree.locate selector = .ok (some ⟨a, if b = [] then none else some a.dropLast⟩) := by
  obtain ⟨selector, content, b, hselector, hcontent, href, hb, rfl⟩ := addressOf_eq_some.mp ha
  obtain ⟨-, contents, hnodes, houtline⟩ := reading_eq h
  refine ⟨selector, b, hselector, rfl, ?_⟩
  -- the content of the first document is where the search starts
  obtain ⟨o, rest, rfl⟩ : ∃ o rest, contents = o :: rest := by
    cases contents with
    | nil =>
        rw [houtline] at hcontent
        cases hcontent
    | cons o rest => exact ⟨o, rest, rfl⟩
  obtain rfl : o = content := by
    rw [houtline] at hcontent
    exact Option.some.inj hcontent
  obtain ⟨n, hn, rfl⟩ := Node.descendant?_of_at? hcontent
  rw [Tree.locate, Tree.settle_root houtline hn href]
  exact Tree.follow_of_walk hn (hnodes _ List.mem_cons_self) hb

section Resolve

variable {path : Text} {s : Snapshot} {selector : Selector} {target : Node}

/-- The search ends at what has nothing above it. -/
theorem resolve_of_locate {a : Address} (hselector : Selector.parse path = .ok selector)
    (hlocate : s.tree.locate selector = .ok (some ⟨a, none⟩))
    (hnode : s.tree.root.descendant? a = some target) :
    s.resolve path = .ok ⟨target, none, none⟩ := by
  unfold resolve
  rw [hselector]
  show (EditError.instMonadLiftExceptLocateErrorResult.monadLift (s.tree.locate selector) >>=
    _) = _
  rw [hlocate]
  show (EditError.instMonadLiftExceptLocateErrorResult.monadLift (s.tree.node a) >>= _) = _
  rw [Tree.node_of_descendant? hnode]
  rfl

/-- The search ends at an entry of a collection. -/
theorem resolve_of_locate_entry {a : Address} {i : Nat} {parent : Node}
    (hselector : Selector.parse path = .ok selector)
    (hlocate : s.tree.locate selector = .ok (some ⟨a ++ [i], some a⟩))
    (hnode : s.tree.root.descendant? (a ++ [i]) = some target)
    (hparent : s.tree.root.descendant? a = some parent) :
    s.resolve path = .ok ⟨target, some parent, some i⟩ := by
  unfold resolve
  rw [hselector]
  show (EditError.instMonadLiftExceptLocateErrorResult.monadLift (s.tree.locate selector) >>=
    _) = _
  rw [hlocate]
  show (EditError.instMonadLiftExceptLocateErrorResult.monadLift (s.tree.node (a ++ [i])) >>=
    _) = _
  rw [Tree.node_of_descendant? hnode]
  show (EditError.instMonadLiftExceptLocateErrorResult.monadLift (s.tree.node a) >>= _) = _
  rw [Tree.node_of_descendant? hparent]
  show Except.ok (⟨target, some parent, (a ++ [i]).getLast?⟩ : Target) = _
  rw [List.getLast?_concat]

end Resolve

/-- **Looking up a path** of keys and indices gives the node at its address, with the collection
that it is in. -/
theorem resolve_of_addressOf {source path : Text} {s : Snapshot} {a : Address}
    (h : Snapshot.ofText source = .ok s) (ha : s.addressOf path = some a) :
    ∃ target, s.resolve path = .ok target ∧ s.tree.root.descendant? a = some target.node ∧
      ∀ b i, a = b ++ [i] → b ≠ [0] →
        ∃ parent, s.tree.root.descendant? b = some parent ∧ target.parent = some parent ∧
          target.index = some i := by
  obtain ⟨selector, b, hselector, rfl, hlocate⟩ := locate_of_addressOf h ha
  obtain ⟨x, hx⟩ := at?_of_addressOf ha
  obtain ⟨target, hnode, -⟩ := Node.descendant?_of_at? hx
  rcases List.eq_nil_or_concat b with rfl | ⟨c, i, rfl⟩
  · -- the content of the document, above which there is only the document
    refine ⟨⟨target, none, none⟩, resolve_of_locate hselector hlocate hnode, hnode, ?_⟩
    intro b i hbi hb0
    have hlast : [0] ++ [0] = b ++ [i] := hbi
    exact absurd (List.append_inj_left' hlast rfl).symm hb0
  · have hne : c.concat i ≠ [] := by simp
    have hlast : [0, 0] ++ c.concat i = ([0, 0] ++ c) ++ [i] := by simp
    rw [if_neg hne, hlast, List.dropLast_concat] at hlocate
    rw [hlast] at hx hnode ⊢
    obtain ⟨y, hy⟩ := Outline.at?_of_append hx
    obtain ⟨parent, hparent, -⟩ := Node.descendant?_of_at? hy
    refine ⟨⟨target, some parent, some i⟩,
      resolve_of_locate_entry hselector hlocate hnode hparent, hnode, ?_⟩
    intro b j hbj _
    obtain ⟨rfl, hij⟩ := List.append_inj' hbj rfl
    cases hij
    exact ⟨parent, hparent, rfl, rfl⟩

/-- The style of the collection that an address is an entry of. -/
def entryStyle? (s : Snapshot) (a : Address) : Option Style :=
  (s.tree.root.descendant? a.dropLast).bind fun parent => parent.kind.style?

/-- What the node at an address decodes to. -/
def valueAt (s : Snapshot) (a : Address) : EditError.Result Value := do
  s.valueOf (← s.tree.node a)

/-- Whether the node at an address decodes to a value. -/
def Decodes (s : Snapshot) (a : Address) (v : Value) : Prop :=
  ∃ w, s.valueAt a = .ok w ∧ Value.same w v = true

/-- What decodes to another value does not decode to this one. -/
theorem not_decodes_of_differs {s : Snapshot} {a : Address} {v : Value}
    (h : (s.valueAt a).toOption.map (Value.same · v) = some false) : ¬ s.Decodes a v := by
  rintro ⟨w, hw, hsame⟩
  obtain ⟨w', hw', hdiffers⟩ := toOption_map_eq_some.mp h
  cases hw.symm.trans hw'
  cases hsame.symm.trans hdiffers

/-- An entry of a collection has an address below that of the collection. -/
theorem eq_append_of_entryStyle? {source path : Text} {s : Snapshot} {a : Address} {style : Style}
    (h : Snapshot.ofText source = .ok s) (ha : s.addressOf path = some a)
    (hstyle : s.entryStyle? a = some style) : ∃ b i, a = b ++ [i] ∧ b ≠ [0] := by
  obtain ⟨selector, content, b, -, -, -, -, rfl⟩ := addressOf_eq_some.mp ha
  refine ⟨([0, 0] ++ b).dropLast, ([0, 0] ++ b).getLast (by simp),
    (List.dropLast_concat_getLast (by simp)).symm, ?_⟩
  intro hdoc
  unfold entryStyle? at hstyle
  rw [hdoc] at hstyle
  obtain ⟨-, contents, -, houtline⟩ := reading_eq h
  obtain ⟨d, hd, hstyle⟩ := Option.bind_eq_some_iff.mp hstyle
  have hchild : s.tree.root.children[0]? = some d := by
    rw [Node.descendant?] at hd
    split at hd
    · next child hchild =>
        cases hd
        exact hchild
    · cases hd
  -- what is above the content is a document, which has no style
  have hdocument : ∃ o : Outline, d.outline = .group .document [o] := by
    have hmap := congrArg (·[0]?) (Node.children_of_outline houtline)
    simp only [Outline.documents, List.getElem?_map, hchild, Option.map_some] at hmap
    obtain ⟨o, -, ho⟩ := Option.map_eq_some_iff.mp hmap.symm
    exact ⟨o, ho.symm⟩
  obtain ⟨o, ho⟩ := hdocument
  obtain ⟨kind, start, stop, anchor, children⟩ := d
  cases kind with
  | document => cases hstyle
  | _ => cases ho

/-- An entry of a collection is found together with the collection. -/
theorem entry_of_addressOf {source path : Text} {s : Snapshot} {a : Address} {style : Style}
    (hread : Snapshot.ofText source = .ok s) (ha : s.addressOf path = some a)
    (hstyle : s.entryStyle? a = some style)
    (action : EntryAction) :
    ∃ target parent i, s.resolve path = .ok target ∧ target.entry action = .ok (parent, i) ∧
      s.tree.root.descendant? a = some target.node ∧
      s.tree.root.descendant? a.dropLast = some parent ∧ parent.kind.style? = some style ∧
      a.getLast? = some i := by
  obtain ⟨b, i, rfl, hb⟩ := eq_append_of_entryStyle? hread ha hstyle
  obtain ⟨target, hresolve, hnode, hentry⟩ := resolve_of_addressOf hread ha
  obtain ⟨parent, hparent, hp, hindex⟩ := hentry b i rfl hb
  rw [entryStyle?, List.dropLast_concat, hparent] at hstyle
  replace hstyle : parent.kind.style? = some style := hstyle
  refine ⟨target, parent, i, hresolve, ?_, hnode, ?_, hstyle, List.getLast?_concat⟩
  · rw [Target.entry, hp, hindex]
    dsimp only
    rw [if_neg]
    intro hwrapper
    cases hkind : parent.kind <;> simp [hkind, Kind.isWrapper, Kind.style?] at hwrapper hstyle
  · rw [List.dropLast_concat, hparent]

/-- The entry is the child of the collection that the last part of the address tells. -/
theorem child_of_addressOf {source path : Text} {s : Snapshot} {a : Address} {i : Nat}
    {style : Style} (hread : Snapshot.ofText source = .ok s)
    (ha : s.addressOf path = some (a ++ [i])) (hstyle : s.entryStyle? (a ++ [i]) = some style)
    (action : EntryAction) :
    ∃ target parent, s.resolve path = .ok target ∧ target.entry action = .ok (parent, i) ∧
      s.tree.root.descendant? a = some parent ∧ parent.children[i]? = some target.node := by
  obtain ⟨target, parent, j, hresolve, hentry, hnode, hparent, -, hj⟩ :=
    entry_of_addressOf hread ha hstyle action
  rw [List.dropLast_concat] at hparent
  obtain rfl : i = j := Option.some.inj (List.getLast?_concat.symm.trans hj)
  refine ⟨target, parent, hresolve, hentry, hparent, ?_⟩
  rw [Node.descendant?_append hparent, Node.descendant?] at hnode
  split at hnode
  · next hchild =>
      cases hnode
      exact hchild
  · cases hnode

theorem find_of_addressOf {source path : Text} {e : Editor} {a : Address}
    (h : Snapshot.ofText source = .ok e.snapshot) (ha : e.snapshot.addressOf path = some a) :
    ∃ n, e.snapshot.tree.root.descendant? a = some n ∧ e.find path = .ok n := by
  obtain ⟨target, htarget, hnode, -⟩ := resolve_of_addressOf h ha
  refine ⟨target.node, hnode, ?_⟩
  rw [Editor.find, htarget]
  rfl

/-- **The value at a path of keys and indices** is the one at its address, read from the text of the
node there. -/
theorem value_eq_valueAt {source path : Text} {e : Editor} {a : Address}
    (h : Snapshot.ofText source = .ok e.snapshot) (ha : e.snapshot.addressOf path = some a) :
    e.value path = e.snapshot.valueAt a := by
  obtain ⟨n, hn, hfind⟩ := find_of_addressOf h ha
  rw [Editor.value, hfind, valueAt, Tree.node_of_descendant? hn]
  rfl

end Snapshot

namespace Value

/-- The parts of a value: items, or keys and values taking turns. -/
def parts : Value → List Value
  | sequence vs => vs
  | mapping es => es.flatMap fun e => [e.1, e.2]
  | tagged _ v => v.parts
  | _ => []

/-- The part of a value at an address. -/
def at? (v : Value) : Address → Option Value
  | [] => some v
  | i :: rest =>
    match v.parts[i]? with
    | some part => part.at? rest
    | none => none

end Value

/-- The text of a mapping starts behind the `?` of its first key: without that, the key is a
document and the rest another one. -/
theorem Editor.value_fails_behind_question_mark :
    ∃ e d, Editor.load "? a\n: b\n".toList = .ok e ∧ Value.parse "? a\n: b\n".toList = .ok d ∧
      e.snapshot.addressOf [] = some ([0, 0] ++ []) ∧ d.at? [] = some d ∧
      ∀ w, e.value [] ≠ .ok w := by
  obtain ⟨e, hload, hpath, hvalue⟩ := Editor.exists_load "? a\n: b\n".toList
    (P := fun e => e.snapshot.addressOf [] = some ([0, 0] ++ []) ∧
      (e.value []).toOption.isSome = false)
    (by decide +kernel)
  have hsome : (Value.parse "? a\n: b\n".toList).toOption.isSome = true := by
    decide +kernel
  obtain ⟨d, hd⟩ := Option.isSome_iff_exists.mp hsome
  refine ⟨e, d, hload, toOption_eq_some.mp hd, hpath, rfl, fun w hw => ?_⟩
  rw [hw] at hvalue
  cases hvalue

end YamlEdit
