import YamlEdit.Proofs.InternalErrors
import YamlEdit.Proofs.Labels

/-!
# What aliases resolve to

The anchors of a text and the nodes of its tree that carry one are in the same order, so the node on
which `&name` is written is the one with the number of that name (`Snapshot.Owns`). In a text with
one document whose anchors have different names, an alias resolves to the node on which the name
that it writes is written, or to nothing if that node is reached past a key only; and the nodes have
the names that are written on them. All this holds exactly when the name that is looked for in front
of the mark of an event is the one that the parser has read (`Editor.aliases_resolve_iff`).
-/

namespace YamlEdit

namespace Node

/-! ## Anchors in the order of the text -/

mutual

/-- The names of anchors with the addresses of their nodes, in the order of the text; `address` is
the node's own. -/
def anchoredFrom (address : Address) : Node → List (Text × Address)
  | ⟨_, _, _, anchor, children⟩ =>
    anchor.toList.map (·, address) ++ anchoredInside address 0 children

/-- The same below nodes that are children from number `index` on. -/
def anchoredInside (address : Address) (index : Nat) : List Node → List (Text × Address)
  | [] => []
  | child :: rest =>
    child.anchoredFrom (address ++ [index]) ++ anchoredInside address (index + 1) rest

end

/-- The anchors of a tree, those of keys as well. -/
def anchored (root : Node) : List (Text × Address) := root.anchoredFrom []

theorem anchoredFrom_eq (a : Address) (n : Node) :
    n.anchoredFrom a = n.anchor.toList.map (·, a) ++ anchoredInside a 0 n.children := by
  obtain ⟨kind, start, stop, anchor, children⟩ := n
  rw [anchoredFrom]

theorem mem_anchoredInside {a : Address} {k : Nat} {l : List Node} {entry : Text × Address} :
    entry ∈ anchoredInside a k l ↔
      ∃ (i : Nat) (c : Node), l[i]? = some c ∧ entry ∈ c.anchoredFrom (a ++ [k + i]) := by
  induction l generalizing k with
  | nil => simp [anchoredInside]
  | cons c rest ih =>
      rw [anchoredInside, List.mem_append, ih]
      constructor
      · rintro (h | ⟨i, d, hd, hmem⟩)
        · exact ⟨0, c, rfl, h⟩
        · rw [Nat.add_right_comm] at hmem
          exact ⟨i + 1, d, hd, hmem⟩
      · rintro ⟨i, d, hd, hmem⟩
        cases i with
        | zero =>
            cases hd
            exact .inl hmem
        | succ i =>
            refine .inr ⟨i, d, hd, ?_⟩
            rwa [Nat.add_right_comm]

/-- **The list holds the nodes with anchors.** -/
theorem mem_anchoredFrom_iff {a b : Address} {n : Node} {name : Text} :
    (name, b) ∈ n.anchoredFrom a ↔
      ∃ r d, b = a ++ r ∧ n.descendant? r = some d ∧ d.anchor = some name := by
  rw [anchoredFrom_eq, List.mem_append, mem_anchoredInside]
  constructor
  · rintro (h | ⟨i, c, hc, hmem⟩)
    · obtain ⟨own, hown, heq⟩ := List.mem_map.mp h
      cases heq
      exact ⟨[], n, by simp, rfl, Option.mem_toList.mp hown⟩
    · rw [Nat.zero_add] at hmem
      obtain ⟨r, d, rfl, hd, hanchor⟩ := mem_anchoredFrom_iff.mp hmem
      exact ⟨i :: r, d, by simp, descendant?_cons_eq_some.mpr ⟨c, hc, hd⟩, hanchor⟩
  · rintro ⟨r, d, rfl, hd, hanchor⟩
    cases r with
    | nil =>
        cases hd
        exact .inl (List.mem_map.mpr ⟨name, Option.mem_toList.mpr hanchor, by simp⟩)
    | cons i r =>
        obtain ⟨c, hc, hd⟩ := descendant?_cons_eq_some.mp hd
        refine .inr ⟨i, c, hc, ?_⟩
        rw [Nat.zero_add]
        exact mem_anchoredFrom_iff.mpr ⟨r, d, by simp, hd, hanchor⟩
termination_by sizeOf n
decreasing_by
  all_goals
    obtain ⟨kind, start, stop, anchor, children⟩ := n
    have hlt : sizeOf c < sizeOf children := List.sizeOf_lt_of_mem (List.mem_of_getElem? hc)
    simp only [Node.mk.sizeOf_spec]
    omega

theorem anchors_ownMentions (n : Node) : Mention.anchors n.ownMentions = n.anchor.toList := by
  rw [ownMentions]
  cases n.anchor <;> cases n.alias? <;> rfl

mutual

/-- Alone, the names are those of the anchors in the tree. -/
theorem anchoredFrom_names (a : Address) (n : Node) :
    (n.anchoredFrom a).map (·.1) = n.names := by
  obtain ⟨kind, start, stop, anchor, children⟩ := n
  rw [anchoredFrom, names, mentions, List.map_append, anchoredInside_names a 0 children,
    Mention.anchors_append, anchors_ownMentions]
  cases anchor <;> rfl

theorem anchoredInside_names (a : Address) (k : Nat) (l : List Node) :
    (anchoredInside a k l).map (·.1) = Mention.anchors (mentionsIn l) := by
  cases l with
  | nil =>
      rw [anchoredInside, mentionsIn]
      rfl
  | cons c rest =>
      rw [anchoredInside, mentionsIn, List.map_append, Mention.anchors_append,
        anchoredFrom_names (a ++ [k]) c, anchoredInside_names a (k + 1) rest]
      rfl

end

/-! ## Keys -/

/-- Whether an address is that of a mapping key, or leads past one. -/
def InKey (root : Node) (b : Address) : Prop :=
  ∃ c i r m, b = c ++ i :: r ∧ root.descendant? c = some m ∧ m.isMapping = true ∧ i % 2 = 0

theorem ThroughValues.of_append {n : Node} {a b : Address} (h : n.ThroughValues (a ++ b)) :
    n.ThroughValues a := by
  induction a generalizing n with
  | nil => trivial
  | cons i rest ih =>
      obtain ⟨hvalue, c, hc, h⟩ := h
      exact ⟨hvalue, c, hc, ih h⟩

theorem ThroughValues.concat {n m c : Node} {a : Address} {i : Nat} (h : n.ThroughValues a)
    (hm : n.descendant? a = some m) (hvalue : m.kind.HoldsValue i)
    (hc : m.children[i]? = some c) : n.ThroughValues (a ++ [i]) := by
  induction a generalizing n with
  | nil =>
      cases hm
      exact ⟨hvalue, c, hc, trivial⟩
  | cons j rest ih =>
      obtain ⟨hj, d, hd, h⟩ := h
      obtain ⟨d', hd', hm⟩ := descendant?_cons_eq_some.mp hm
      cases hd.symm.trans hd'
      exact ⟨hj, d, hd, ih h hm⟩

/-- No key is reached through values. -/
theorem not_inKey_of_throughValues {root : Node} {b : Address} (h : root.ThroughValues b) :
    ¬ root.InKey b := by
  rintro ⟨c, i, r, m, rfl, hm, hmapping, heven⟩
  rw [List.append_cons] at h
  have hodd := (h.of_append.last hm).odd hmapping
  omega

end Node

namespace Tree

variable {t : Tree} {n d : Node} {a b : Address}

/-- A document holds one node. -/
theorem Sound.document_child (ht : t.Sound) {i j : Nat} (h : t.root.descendant? [i, j] = some n) :
    j = 0 := by
  obtain ⟨contents, -, hroot⟩ := ht.nested
  have hat := Node.at?_of_descendant? ht.regular h
  rw [hroot] at hat
  obtain ⟨_, _, child, ho, hi, hrest⟩ := Outline.at?_cons_eq_some.mp hat
  cases ho
  rw [Outline.documents, List.getElem?_map] at hi
  obtain ⟨content, -, rfl⟩ := Option.map_eq_some_iff.mp hi
  obtain ⟨_, _, child, ho, hj, -⟩ := Outline.at?_cons_eq_some.mp hrest
  cases ho
  cases j with
  | zero => rfl
  | succ j => cases hj

/-- What is no value, in a single document, is a key. -/
theorem Sound.holdsValue (ht : t.Sound) (hone : t.root.children.length = 1) {c : Node} {i : Nat}
    (hn : t.root.descendant? a = some n) (hc : n.children[i]? = some c)
    (hkey : n.isMapping = true → i % 2 = 1) : n.kind.HoldsValue i := by
  have hchild := Node.descendant?_concat hn hc
  rcases ht.cases hn with ⟨rfl, hkind⟩ | ⟨⟨j, rfl⟩, hkind⟩ | hisNode
  · cases hn
    have hlt : i < t.root.children.length := (List.getElem?_eq_some_iff.mp hc).1
    obtain rfl : i = 0 := by omega
    rw [hkind]
    exact .document
  · obtain rfl := ht.document_child hchild
    rw [hkind]
    exact .content
  · have hleaf := (ht.regular.descendant? hn).here.leaf
    have hwrapper := Node.isWrapper_of_isNode hisNode
    cases hkind : n.kind with
    | stream | document =>
        rw [hkind] at hwrapper
        cases hwrapper
    | sequence style => exact .item style i
    | mapping style => exact .value style (hkey (by rw [Node.isMapping, hkind]; rfl))
    | scalar text | aliasTo name =>
        rw [hleaf (by simp [Node.scalar?, Node.alias?, hkind])] at hc
        cases hc

/-- **In a single document**, what is reached through values only is all that is not reached past a
key. -/
theorem Sound.throughValues_iff (ht : t.Sound) (hone : t.root.children.length = 1)
    (hd : t.root.descendant? b = some d) : t.root.ThroughValues b ↔ ¬ t.root.InKey b := by
  refine ⟨Node.not_inKey_of_throughValues, fun hkey => ?_⟩
  -- along the address: what is reached so far, and what is left
  suffices h : ∀ done left, b = done ++ left → t.root.ThroughValues done →
      t.root.ThroughValues b from h [] b rfl trivial
  intro done left
  induction left generalizing done with
  | nil =>
      rintro rfl hdone
      rwa [List.append_nil]
  | cons i left ih =>
      intro hb hdone
      rw [hb] at hd
      obtain ⟨n, hn, hd⟩ := Node.descendant?_of_append hd
      obtain ⟨c, hc, -⟩ := Node.descendant?_cons_eq_some.mp hd
      have hvalue := ht.holdsValue hone hn hc fun hmapping => by
        by_contra heven
        exact hkey ⟨done, i, left, n, hb, hn, hmapping, by omega⟩
      exact ih (done ++ [i]) (by rw [hb, List.append_cons]) (hdone.concat hn hvalue hc)

end Tree

/-! ## Names and their nodes -/

namespace Snapshot

/-- The names that the text of a snapshot gives to anchors, in their order. -/
def anchorNames (s : Snapshot) : List Text := Token.anchorNames (Token.scan s.source).tokens

/-- Whether a name is written on the node at an address: its place among the names in the text is
the place of the node among those that carry an anchor. -/
def Owns (s : Snapshot) (b : Address) (name : Text) : Prop :=
  ∃ (k : Nat) (own : Text), s.tree.root.anchored[k]? = some (own, b) ∧
    s.anchorNames[k]? = some name

/-- Every node that carries an anchor has the name that is written on it. -/
def LabelsOwn (s : Snapshot) : Prop :=
  ∀ b d, s.tree.root.descendant? b = some d → ∀ name, d.anchor = some name ↔ s.Owns b name

/-- Every alias resolves to the node on which the name that it writes is written, unless that node
is or lies in a key. -/
def AliasesResolve (s : Snapshot) : Prop :=
  ∀ a n name, s.tree.root.descendant? a = some n → n.alias? = some name →
    ∃ rest b d, s.source.dropBytes (s.offset n.start) = .ok ('*' :: rest) ∧
      s.Owns b (rest.takeWhile Token.isAnchorChar) ∧ s.tree.root.descendant? b = some d ∧
      (¬ s.tree.root.InKey b → s.tree.resolve name = .ok (b, d)) ∧
      (s.tree.root.InKey b → s.tree.resolve name = .error (.unknownAnchor name))

/-- The names in the tree are those in the text. -/
def NamesAgree (s : Snapshot) : Prop :=
  ∀ (k : Nat) (name : Text), s.tree.root.names[k]? = some name → s.anchorNames[k]? = some name

section Agree

variable {s : Snapshot} {b : Address} {d : Node} {k : Nat} {name : Text}

theorem names_getElem? (root : Node) (k : Nat) :
    root.names[k]? = (root.anchored[k]?).map (·.1) := by
  rw [← List.getElem?_map, Node.anchored, Node.anchoredFrom_names]

/-- An anchor with its number is a node with that anchor. -/
theorem descendant?_of_anchored {root : Node} (h : root.anchored[k]? = some (name, b)) :
    ∃ d, root.descendant? b = some d ∧ d.anchor = some name := by
  obtain ⟨r, d, rfl, hd, hanchor⟩ := Node.mem_anchoredFrom_iff.mp (List.mem_of_getElem? h)
  exact ⟨d, hd, hanchor⟩

theorem exists_anchored {root : Node} (hd : root.descendant? b = some d)
    (hanchor : d.anchor = some name) : ∃ k : Nat, root.anchored[k]? = some (name, b) :=
  List.mem_iff_getElem?.mp (Node.mem_anchoredFrom_iff.mpr ⟨b, d, rfl, hd, hanchor⟩)

/-- **Nodes have the names that are written on them** if and only if the names in the tree are those
in the text. -/
theorem labelsOwn_iff (hnamed : s.tree.root.names.length ≤ s.anchorNames.length) :
    s.LabelsOwn ↔ s.NamesAgree := by
  constructor
  · intro h k own hown
    obtain ⟨hlt, -⟩ := List.getElem?_eq_some_iff.mp hown
    rw [names_getElem?, Option.map_eq_some_iff] at hown
    obtain ⟨⟨own, b⟩, hk, rfl⟩ := hown
    obtain ⟨d, hd, hanchor⟩ := descendant?_of_anchored hk
    have hname : s.anchorNames[k]? = some s.anchorNames[k] := List.getElem?_eq_getElem (by omega)
    have hlabel := (h b d hd _).mpr ⟨k, own, hk, hname⟩
    rw [hname, ← hlabel, hanchor]
  · intro h b d hd name
    constructor
    · intro hanchor
      obtain ⟨k, hk⟩ := exists_anchored hd hanchor
      exact ⟨k, name, hk, h k name (by rw [names_getElem?, hk]; rfl)⟩
    · rintro ⟨k, own, hk, hname⟩
      obtain ⟨d', hd', hanchor⟩ := descendant?_of_anchored hk
      cases hd.symm.trans hd'
      have hown := h k own (by rw [names_getElem?, hk]; rfl)
      cases hname.symm.trans hown
      exact hanchor

/-- The table of anchors has the node of a name that is reached through values. -/
theorem get?_of_anchored (ht : s.tree.Sound) (hdistinct : s.anchorNames.Nodup) (h : s.NamesAgree)
    (hk : s.tree.root.anchored[k]? = some (name, b)) :
    (s.tree.root.ThroughValues b → s.tree.anchors.get? name = some b) ∧
      (¬ s.tree.root.ThroughValues b → s.tree.anchors.get? name = none) := by
  -- there is only one node with this name
  have hunique : ∀ b', (name, b') ∈ s.tree.anchors.anchors →
      b' = b ∧ s.tree.root.ThroughValues b' := by
    intro b' hmem
    rw [ht.anchors] at hmem
    obtain ⟨r, d, rfl, hd, hanchor, hvalues⟩ := Node.mem_anchorsFrom_iff.mp hmem
    obtain ⟨k', hk'⟩ := exists_anchored hd hanchor
    have hname := h k name (by rw [names_getElem?, hk]; rfl)
    have hname' := h k' name (by rw [names_getElem?, hk']; rfl)
    obtain ⟨hlt, -⟩ := List.getElem?_eq_some_iff.mp hname
    obtain rfl : k = k' := (List.getElem?_inj hlt hdistinct).mp (hname.trans hname'.symm)
    cases hk.symm.trans hk'
    exact ⟨rfl, by simpa using hvalues⟩
  cases hfound : s.tree.anchors.get? name with
  | none =>
      refine ⟨fun hvalues => ?_, fun _ => rfl⟩
      obtain ⟨d, hd, hanchor⟩ := descendant?_of_anchored hk
      have hmem : (name, b) ∈ s.tree.anchors.anchors := by
        rw [ht.anchors]
        exact Node.mem_anchorsFrom_iff.mpr ⟨b, d, rfl, hd, hanchor, hvalues⟩
      have hne := List.lookup_eq_none_iff.mp hfound (name, b) (List.mem_reverse.mpr hmem)
      simp at hne
  | some b' =>
      obtain ⟨rfl, hvalues⟩ := hunique b' (AnchorTable.mem_of_get? hfound)
      exact ⟨fun _ => rfl, fun hnot => absurd hvalues hnot⟩

/-- **Aliases resolve to the node on which their name is written**, if the names agree. -/
theorem aliasesResolve_of_namesAgree (ht : s.tree.Sound) (hone : s.tree.root.children.length = 1)
    (hdistinct : s.anchorNames.Nodup) (hmap : s.map = SourceMap.ofText s.source) (h : s.NamesAgree)
    (hreferences : ∀ name start, .reference name start ∈ s.tree.root.mentions →
      Mention.Refers s.source s.tree.root.names name start) : s.AliasesResolve := by
  intro a n name hn halias
  have hmem : .reference name n.start ∈ s.tree.root.mentions :=
    Node.mem_mentions_of_descendant? hn (by simp [Node.ownMentions, halias])
  obtain ⟨rest, k, hrest, ⟨-, hwritten⟩, hname⟩ := hreferences name n.start hmem
  -- what is written is the name that the node with its number has
  obtain hsame : rest.takeWhile Token.isAnchorChar = name :=
    Option.some.inj (hwritten.symm.trans (h k name hname))
  rw [names_getElem?, Option.map_eq_some_iff] at hname
  obtain ⟨⟨own, b⟩, hk, rfl⟩ := hname
  obtain ⟨d, hd, -⟩ := descendant?_of_anchored hk
  obtain ⟨hfound, hnone⟩ := get?_of_anchored ht hdistinct h hk
  have hvalues := ht.throughValues_iff hone hd
  refine ⟨rest, b, d, ?_, ⟨k, own, hk, hwritten⟩, hd, fun hkey => ?_, fun hkey => ?_⟩
  · rw [offset, hmap]
    exact hrest
  · simp only [Tree.resolve, hfound (hvalues.mpr hkey), hd]
  · simp only [Tree.resolve, hnone (fun h => hvalues.mp h hkey)]

/-- The anchor of every name in the tree is that of an event, and has a name in the text. -/
theorem exists_event {events : List (Event × Span)} (hmarked : Event.Marked s.source events)
    (hnamed : Mention.Named s.source events s.tree.root.mentions)
    (hk : k < s.tree.root.names.length) :
    ∃ y ∈ events, y.1.anchorNumber = k + 1 ∧ ∃ name : Text, s.anchorNames[k]? = some name := by
  have hlength : s.tree.root.names.length = (Event.anchorNumbers events).length := hnamed.length
  have hnumber : k + 1 ∈ Event.anchorNumbers events := by
    rw [hmarked.numbered, List.mem_range'_1]
    omega
  obtain ⟨y, hy, hnumber⟩ : ∃ y ∈ events, y.1.anchorNumber = k + 1 := by
    simpa [Event.anchorNumbers] using hnumber
  obtain ⟨name, -, hname⟩ := hmarked.named y hy (by omega)
  rw [hnumber] at hname
  exact ⟨y, hy, hnumber, name, hname⟩

/-- The names agree if and only if the name that is found for an event is the one that the parser
has read. -/
theorem namesAgree_iff {events : List (Event × Span)} (hmarked : Event.Marked s.source events)
    (hnamed : Mention.Named s.source events s.tree.root.mentions) :
    s.NamesAgree ↔ ∀ y ∈ events, ∀ name,
      Token.Names (Token.scan s.source).tokens y.1.anchorNumber name →
        Event.Shows s.source y name := by
  constructor
  · rintro h y hy name ⟨hnumber, hname⟩
    obtain ⟨k, hk⟩ := Nat.exists_eq_succ_of_ne_zero hnumber
    obtain ⟨own, hown, hk'⟩ := hnamed.found y hy k hk
    rw [hk] at hname
    exact (Event.shows_iff hown hnumber).mpr (Option.some.inj ((h k own hk').symm.trans hname))
  · intro h k own hown
    obtain ⟨hlt, -⟩ := List.getElem?_eq_some_iff.mp hown
    obtain ⟨y, hy, hnumber, name, hname⟩ := exists_event hmarked hnamed hlt
    obtain ⟨own', hfound, hk⟩ := hnamed.found y hy k hnumber
    cases hown.symm.trans hk
    have hnames : Token.Names (Token.scan s.source).tokens y.1.anchorNumber name := by
      rw [hnumber]
      exact ⟨Nat.succ_ne_zero k, hname⟩
    obtain rfl := (Event.shows_iff hfound (by omega)).mp (h y hy name hnames)
    exact hname

end Agree

end Snapshot

namespace Editor

/-- **What aliases resolve to**, in a text with one document whose anchors have different names.
Nodes have the names that are written on them, and an alias resolves to the node on which its name
is written, unless that is a key or lies in one, if and only if the name that is looked for in front
of each node is the one that the parser has read there. -/
theorem aliases_resolve_iff {source : Text} {events : List (Event × Span)} {e : Editor}
    (hevents : Event.ofDocument source = .ok events) (hload : load source = .ok e)
    (hone : e.snapshot.tree.root.children.length = 1)
    (hdistinct : e.snapshot.anchorNames.Nodup) :
    (e.snapshot.LabelsOwn ∧ e.snapshot.AliasesResolve) ↔ ∀ y ∈ events, ∀ name,
      Token.Names (Token.scan source).tokens y.1.anchorNumber name →
        Event.Shows source y name := by
  obtain ⟨hread, -⟩ := load_eq_ok hload
  have hsound := (Snapshot.sound_of_ofText hread).tree
  obtain ⟨events', root, hevents', hroot, hs⟩ := Snapshot.ofText_eq_ok hread
  cases hevents.symm.trans hevents'
  generalize hsnapshot : e.snapshot = s at *
  obtain rfl : s.source = source := by rw [hs]; rfl
  have hmarked := Event.marked_of_ofDocument hevents
  have hnamed : Mention.Named s.source events s.tree.root.mentions := by
    have htree : s.tree.root = root := by rw [hs]; rfl
    rw [htree]
    exact Node.named_of_ofEvents hevents hroot
  have hlength : s.tree.root.names.length ≤ s.anchorNames.length := by
    by_contra hlt
    obtain ⟨y, -, -, name, hname⟩ := Snapshot.exists_event (k := s.anchorNames.length) hmarked
      hnamed (by omega)
    simp at hname
  rw [← Snapshot.namesAgree_iff hmarked hnamed, Snapshot.labelsOwn_iff hlength]
  refine ⟨fun h => h.1, fun h => ⟨h, ?_⟩⟩
  exact Snapshot.aliasesResolve_of_namesAgree hsound hone hdistinct (by rw [hs]; rfl) h
    hnamed.references

/-- An anchor on a value and one on a key: the alias to the first one resolves to the value, and the
alias to the second one to nothing. -/
theorem aliases_resolve_iff_past_key :
    ∃ events e, Event.ofDocument "x: &a v\n&b k: *a\ny: *b\n".toList = .ok events ∧
      load "x: &a v\n&b k: *a\ny: *b\n".toList = .ok e ∧
      e.snapshot.tree.root.children.length = 1 ∧ e.snapshot.anchorNames.Nodup ∧
      (∀ y ∈ events, ∀ name,
        Token.Names (Token.scan "x: &a v\n&b k: *a\ny: *b\n".toList).tokens y.1.anchorNumber name →
          Event.Shows "x: &a v\n&b k: *a\ny: *b\n".toList y name) ∧
      e.snapshot.LabelsOwn ∧ e.snapshot.AliasesResolve ∧
      (e.snapshot.tree.resolve "a".toList).map (·.1) = .ok [0, 0, 1] ∧
      e.snapshot.tree.root.InKey [0, 0, 2] ∧
      e.snapshot.tree.resolve "b".toList = .error (.unknownAnchor "b".toList) := by
  obtain ⟨e, hload, hone, hnames, hvalue, hkey, hmapping⟩ :=
    exists_load "x: &a v\n&b k: *a\ny: *b\n".toList
      (P := fun e => e.snapshot.tree.root.children.length = 1 ∧
        e.snapshot.anchorNames = ["a".toList, "b".toList] ∧
        (e.snapshot.tree.resolve "a".toList).map (·.1) = .ok [0, 0, 1] ∧
        e.snapshot.tree.anchors.get? "b".toList = none ∧
        (e.snapshot.tree.root.descendant? [0, 0]).any (·.isMapping) = true)
      (by decide +kernel)
  obtain ⟨events, hevents, hfound⟩ := (Option.any_eq_true _ _).mp
    (show (Event.ofDocument "x: &a v\n&b k: *a\ny: *b\n".toList).toOption.any (fun events =>
      events.all fun y => y.1.anchorNumber == 0 ||
        (Event.nameAt (SourceMap.ofText "x: &a v\n&b k: *a\ny: *b\n".toList) y).toOption ==
          (Token.anchorNames (Token.scan "x: &a v\n&b k: *a\ny: *b\n".toList).tokens)[
            y.1.anchorNumber - 1]?) = true by decide +kernel)
  have hevents := toOption_eq_some.mp hevents
  have hdistinct : e.snapshot.anchorNames.Nodup := by rw [hnames]; decide
  have hshows : ∀ y ∈ events, ∀ name,
      Token.Names (Token.scan "x: &a v\n&b k: *a\ny: *b\n".toList).tokens y.1.anchorNumber name →
        Event.Shows "x: &a v\n&b k: *a\ny: *b\n".toList y name := by
    rintro y hy name ⟨hnumber, hname⟩
    have hy := List.all_eq_true.mp hfound y hy
    rw [hname, beq_false_of_ne hnumber, Bool.false_or, beq_iff_eq, toOption_eq_some] at hy
    exact (Event.shows_iff hy hnumber).mpr rfl
  obtain ⟨hlabels, haliases⟩ := (aliases_resolve_iff hevents hload hone hdistinct).mpr hshows
  obtain ⟨m, hm, hmapping⟩ := (Option.any_eq_true _ _).mp hmapping
  exact ⟨events, e, hevents, hload, hone, hdistinct, hshows, hlabels, haliases, hvalue,
    ⟨[0, 0], 2, [], m, rfl, hm, hmapping, rfl⟩, by simp only [Tree.resolve, hkey]⟩

/-- **A mapping that starts with an anchored key** gets the name of the key: the alias to the key
resolves to the mapping, where it should resolve to nothing. -/
theorem aliases_misled_by_anchored_key :
    ∃ e, load "- &m\n  &k key: v\n- *k\n".toList = .ok e ∧
      e.snapshot.tree.root.children.length = 1 ∧ e.snapshot.anchorNames.Nodup ∧
      e.snapshot.Owns [0, 0, 0] "m".toList ∧ e.snapshot.Owns [0, 0, 0, 0] "k".toList ∧
      e.snapshot.tree.root.InKey [0, 0, 0, 0] ∧
      (e.snapshot.tree.resolve "k".toList).map (·.1) = .ok [0, 0, 0] ∧
      ¬ e.snapshot.LabelsOwn ∧ ¬ e.snapshot.AliasesResolve := by
  obtain ⟨e, hload, hone, hnames, hanchored, halias, hresolve, hmapping⟩ :=
    exists_load "- &m\n  &k key: v\n- *k\n".toList
      (P := fun e => e.snapshot.tree.root.children.length = 1 ∧
        e.snapshot.anchorNames = ["m".toList, "k".toList] ∧
        e.snapshot.tree.root.anchored = [("k".toList, [0, 0, 0]), ("k".toList, [0, 0, 0, 0])] ∧
        (e.snapshot.tree.root.descendant? [0, 0, 1]).any (fun n => n.alias? == some "k".toList &&
          (e.snapshot.source.dropBytes (e.snapshot.offset n.start)).toOption ==
            some "*k\n".toList) = true ∧
        (e.snapshot.tree.resolve "k".toList).map (·.1) = .ok [0, 0, 0] ∧
        (e.snapshot.tree.root.descendant? [0, 0, 0]).any (fun n => n.isMapping &&
          n.anchor == some "k".toList) = true)
      (by decide +kernel)
  obtain ⟨m, hm, hmapping⟩ := (Option.any_eq_true _ _).mp hmapping
  rw [Bool.and_eq_true, beq_iff_eq] at hmapping
  obtain ⟨hmapping, hlabel⟩ := hmapping
  have howns : e.snapshot.Owns [0, 0, 0] "m".toList :=
    ⟨0, "k".toList, by rw [hanchored]; rfl, by rw [hnames]; rfl⟩
  have hkey : e.snapshot.tree.root.InKey [0, 0, 0, 0] :=
    ⟨[0, 0, 0], 0, [], m, rfl, hm, hmapping, rfl⟩
  refine ⟨e, hload, hone, by rw [hnames]; decide, howns,
    ⟨1, "k".toList, by rw [hanchored]; rfl, by rw [hnames]; rfl⟩, hkey, hresolve, fun h => ?_,
    fun h => ?_⟩
  · -- the mapping has the name of its key
    rw [(h _ m hm _).mpr howns] at hlabel
    cases hlabel
  · -- the name that the alias writes is the second one, and it is written on the key
    obtain ⟨n, hn, halias⟩ := (Option.any_eq_true _ _).mp halias
    rw [Bool.and_eq_true, beq_iff_eq, beq_iff_eq, toOption_eq_some] at halias
    obtain ⟨rest, b, d, hrest, ⟨k, own, hk, hname⟩, -, -, hunknown⟩ := h _ n _ hn halias.1
    cases halias.2.symm.trans hrest
    rw [hnames] at hname
    obtain rfl : k = 1 := by
      match k with
      | 0 => cases hname
      | 1 => rfl
      | k + 2 => cases hname
    rw [hanchored] at hk
    cases hk
    rw [hunknown hkey] at hresolve
    cases hresolve

end Editor

end YamlEdit
