import YamlEdit.Proofs.InternalErrors
import YamlEdit.Proofs.PathGrammar

/-!
# Paths made of names

The way down from a node to one below it is a list of steps: the key of each value and the number
of each item. Written with dots between them the steps are a path (`Selector.pathOf`), and the path
is read as these steps if the keys are words that neither look like an index nor hold a character
that ends a key (`Selector.parse_pathOf`).

Main statement: `Snapshot.locate_pathOf`. The search for the path ends at the node itself.
-/

namespace YamlEdit

/-! ## Writing a path -/

/-- A step that can stand in a path as it is: a word, or a number of 64 bits, as the numbers of all
items of a list in memory are. -/
def Segment.IsPlain : Segment → Prop
  | key name =>
      name ≠ [] ∧ (∀ c ∈ name, c ≠ '.' ∧ c ≠ '[') ∧ ∀ c ∈ name.head?, Text.isDigit c = false
  | index i => i < UInt64.size
  | filter _ _ => False

instance : DecidablePred Segment.IsPlain
  -- through booleans: over the propositions an instance may be found that goes through all letters
  | .key name => decidable_of_iff (name ≠ [] ∧ (name.all fun c => c != '.' && c != '[') = true ∧
      (name.head?.all fun c => !Text.isDigit c) = true)
    (by cases h : name.head? <;> simp [Segment.IsPlain, h])
  | .index i => inferInstanceAs (Decidable (i < UInt64.size))
  | .filter _ _ => isFalse id

namespace Selector

/-- The path of some steps: what they are displayed as, with dots between them. -/
def pathOf (segments : List Segment) : Text := ['.'].intercalate (segments.map Segment.display)

variable {division : Division} {segments : List Segment}

/-- A piece in front of what spells steps. -/
theorem Spells.cons {t rest : Text} {piece : Piece} {step : Option Segment}
    (hbegins : Begins t piece rest) (hmeans : Means division piece step)
    (h : Spells division rest segments) : Spells division t (step.toList ++ segments) := by
  obtain ⟨pieces, steps, hsplits, hall, rfl⟩ := h
  refine ⟨piece :: pieces, step :: steps, .cons hbegins hsplits, .cons hmeans hall, ?_⟩
  cases step <;> rfl

/-- Whether a step is read as it is displayed, in front of a dot or at the end of the path: it is one
piece. -/
def IsDisplayed (division : Division) (segment : Segment) : Prop :=
  ∀ rest : Text, (∀ c ∈ rest.head?, c = '.') →
    ∃ piece, Begins (segment.display ++ rest) piece rest ∧ Means division piece (some segment)

theorem isDisplayed_of_isPlain (division : Division) {segment : Segment} (h : segment.IsPlain) :
    IsDisplayed division segment := by
  intro rest hrest
  cases segment with
  | key name =>
      obtain ⟨hsome, hword, hhead⟩ := h
      exact ⟨.word name, .word rfl hsome hhead hword fun c hc => .inl (hrest c hc), .key⟩
  | index i =>
      have hdigits : Begins (Text.ofNat i ++ rest) (.digits (Text.ofNat i)) rest := by
        refine .digits rfl (Text.ofNat_ne_nil i) (fun c => Text.isDigit_of_mem_ofNat) ?_
        intro c hc
        rw [hrest c hc]
        decide
      have hmeans : Means division (.digits (Text.ofNat i))
          (some (.index (Nat.ofDigitChars 10 (Text.ofNat i) 0))) :=
        .index (by rw [Text.ofDigitChars_ofNat]; exact h)
      rw [Text.ofDigitChars_ofNat] at hmeans
      exact ⟨_, hdigits, hmeans⟩
  | filter => exact h.elim

/-- Steps that are read as they are displayed are read with dots between them. -/
theorem spells_pathOf (h : ∀ segment ∈ segments, IsDisplayed division segment) :
    Spells division (pathOf segments) segments := by
  induction segments with
  | nil => exact ⟨[], [], .nil, .nil, rfl⟩
  | cons segment rest ih =>
      have hrest := ih fun s hs => h s (List.mem_cons_of_mem _ hs)
      have hfirst := h segment List.mem_cons_self
      cases rest with
      | nil =>
          obtain ⟨piece, hbegins, hmeans⟩ := hfirst [] nofun
          have hone : pathOf [segment] = segment.display ++ [] := by simp [pathOf]
          rw [hone]
          exact hrest.cons hbegins hmeans
      | cons next others =>
          -- the dot between the two is a piece of its own and stands for nothing
          have hdot : Spells division ('.' :: pathOf (next :: others)) (next :: others) :=
            hrest.cons (.separator rfl) .separator
          obtain ⟨piece, hbegins, hmeans⟩ :=
            hfirst ('.' :: pathOf (next :: others)) (by rintro _ ⟨⟩; rfl)
          exact hdot.cons hbegins hmeans

/-- **A path of plain steps is read as these steps.** -/
theorem parse_pathOf (h : ∀ segment ∈ segments, segment.IsPlain) :
    parse (pathOf segments) = .ok ⟨pathOf segments, segments⟩ :=
  parse_eq_ok_iff.mpr (spells_pathOf fun s hs => isDisplayed_of_isPlain _ (h s hs))

end Selector

/-! ## The way down to a node -/

namespace Node

/-- A way down from a node, through items of sequences and values of mappings that are no aliases:
the address below the node, and the steps that name it. The key of a value is the first one of its
mapping with that text. -/
inductive Reaches : Node → Address → List Segment → Prop where
  | here (n : Node) : Reaches n [] []
  | item {n child : Node} {i : Nat} {a : Address} {steps : List Segment}
      (sequence : n.isSequence = true) (item : n.children[i]? = some child)
      (written : child.alias? = none) (below : Reaches child a steps) :
      Reaches n (i :: a) (.index i :: steps)
  | value {n key child : Node} {k : Nat} {name : Text} {a : Address} {steps : List Segment}
      (mapping : n.isMapping = true) (named : n.children[2 * k]? = some key)
      (text : key.scalar? = some name)
      (first : ∀ j < k, ∀ earlier, n.children[2 * j]? = some earlier → earlier.scalar? ≠ some name)
      (value : n.children[2 * k + 1]? = some child) (written : child.alias? = none)
      (below : Reaches child a steps) : Reaches n ((2 * k + 1) :: a) (.key name :: steps)

variable {n : Node}

theorem outline_of_isSequence (h : n.isSequence = true) :
    ∃ style, n.outline = .group (.sequence style) (n.children.map outline) := by
  obtain ⟨kind, start, stop, anchor, children⟩ := n
  cases kind with
  | sequence style => exact ⟨style, by rw [outline, outlines_eq_map]⟩
  | _ => cases h

theorem outline_of_isMapping (h : n.isMapping = true) :
    ∃ style, n.outline = .group (.mapping style) (n.children.map outline) := by
  obtain ⟨kind, start, stop, anchor, children⟩ := n
  cases kind with
  | mapping style => exact ⟨style, by rw [outline, outlines_eq_map]⟩
  | _ => cases h

theorem isReference_of_alias? (h : n.alias? = none) : n.outline.isReference = false := by
  rw [isReference_outline, h]
  rfl

/-- The search among pairs ends at the first key with the text. -/
theorem valueIndex?_eq_some_iff {l : List Node} {name : Text} {base i : Nat} :
    Tree.valueIndex? name base l = some i ↔
      ∃ k key value, i = base + (2 * k + 1) ∧ l[2 * k]? = some key ∧ key.scalar? = some name ∧
        l[2 * k + 1]? = some value ∧
        ∀ j < k, ∀ earlier, l[2 * j]? = some earlier → earlier.scalar? ≠ some name := by
  constructor
  · intro h
    fun_induction Tree.valueIndex? name base l with
    | case1 base key value rest hkey =>
        cases h
        exact ⟨0, key, value, rfl, rfl, hkey, rfl, fun j hj => absurd hj j.not_lt_zero⟩
    | case2 base key value rest hkey ih =>
        obtain ⟨k, key', value', rfl, hk, htext, hvalue, hfirst⟩ := ih h
        refine ⟨k + 1, key', value', by omega, hk, htext, hvalue, ?_⟩
        rintro (_ | j) hj earlier hearlier
        · cases hearlier
          exact hkey
        · exact hfirst j (Nat.lt_of_succ_lt_succ hj) earlier hearlier
    | case3 => cases h
  · rintro ⟨k, key, value, rfl, hkey, htext, hvalue, hfirst⟩
    fun_induction Tree.valueIndex? name base l generalizing k with
    | case1 base first _ rest hfound =>
        cases k with
        | zero => rfl
        | succ k => exact absurd hfound (hfirst 0 k.succ_pos first rfl)
    | case2 base first _ rest hother ih =>
        cases k with
        | zero =>
            cases hkey
            exact absurd htext hother
        | succ k =>
            rw [ih k hkey hvalue fun j hj earlier hearlier =>
              hfirst (j + 1) (Nat.succ_lt_succ hj) earlier hearlier]
            congr 1
            omega
    | case3 l base hshort =>
        rcases l with _ | ⟨first, _ | ⟨second, rest⟩⟩
        · cases hkey
        · cases hvalue
        · exact absurd rfl (hshort first second rest)

/-- **A way down is a walk** over what the nodes say. -/
theorem Reaches.walk {a : Address} {steps : List Segment} (h : n.Reaches a steps) :
    n.outline.walk steps = some a := by
  induction h with
  | here => rfl
  | item hsequence hchild hwritten _ ih =>
      obtain ⟨style, ho⟩ := outline_of_isSequence hsequence
      refine Outline.walk_cons_eq_some.mpr
        ⟨_, _, _, ?_, ?_, isReference_of_alias? hwritten, ih, rfl⟩
      · obtain ⟨hlt, -⟩ := List.getElem?_eq_some_iff.mp hchild
        rw [ho, Outline.step?, List.length_map, if_pos hlt]
      · rw [ho, Outline.children, List.getElem?_map, hchild]
        rfl
  | value hmapping hkey htext hfirst hchild hwritten _ ih =>
      obtain ⟨style, ho⟩ := outline_of_isMapping hmapping
      refine Outline.walk_cons_eq_some.mpr
        ⟨_, _, _, ?_, ?_, isReference_of_alias? hwritten, ih, rfl⟩
      · rw [ho, Outline.step?, Tree.valueIndex?_outline]
        exact valueIndex?_eq_some_iff.mpr
          ⟨_, _, _, (Nat.zero_add _).symm, hkey, htext, hchild, hfirst⟩
      · rw [ho, Outline.children, List.getElem?_map, hchild]
        rfl

/-- A step of a walk is one of a way down. -/
theorem reaches_of_walk {a : Address} {steps : List Segment} (h : n.outline.walk steps = some a) :
    n.Reaches a steps := by
  induction steps generalizing n a with
  | nil =>
      cases h
      exact .here n
  | cons step rest ih =>
      obtain ⟨i, o, b, hstep, ho, href, hwalk, rfl⟩ := Outline.walk_cons_eq_some.mp h
      obtain ⟨bracket, hgroup⟩ :
          ∃ bracket, n.outline = .group bracket (n.children.map outline) := by
        cases hn : n.outline with
        | group bracket l => exact ⟨bracket, by rw [children_of_outline hn]⟩
        | scalar | reference =>
            rw [hn] at ho
            cases ho
      rw [hgroup] at hstep ho
      rw [Outline.children, List.getElem?_map] at ho
      obtain ⟨child, hchild, rfl⟩ := Option.map_eq_some_iff.mp ho
      have hwritten : child.alias? = none := by
        rw [isReference_outline] at href
        simpa using href
      cases bracket with
      | stream | document => cases step <;> cases hstep
      | sequence style =>
          cases step with
          | key | filter => cases hstep
          | index k =>
              rw [Outline.step?] at hstep
              split at hstep <;> cases hstep
              exact .item (isSequence_of_outline hgroup) hchild hwritten (ih hwalk)
      | mapping style =>
          cases step with
          | index | filter => cases hstep
          | key name =>
              rw [Outline.step?, Tree.valueIndex?_outline] at hstep
              obtain ⟨k, key, value, rfl, hkey, htext, -, hfirst⟩ :=
                valueIndex?_eq_some_iff.mp hstep
              rw [Nat.zero_add] at hchild ⊢
              exact .value (isMapping_of_outline hgroup) hkey htext hfirst hchild hwritten
                (ih hwalk)

/-- No way leads down from an alias. -/
theorem Reaches.isReference_eq_false {a : Address} {steps : List Segment} (h : n.Reaches a steps)
    (ha : a ≠ []) : n.outline.isReference = false := by
  cases h with
  | here => exact absurd rfl ha
  | item hsequence =>
      obtain ⟨style, ho⟩ := outline_of_isSequence hsequence
      rw [ho]
      rfl
  | value hmapping =>
      obtain ⟨style, ho⟩ := outline_of_isMapping hmapping
      rw [ho]
      rfl

end Node

namespace Snapshot

/-- **Every node with a plain name is found by it.** The steps of a way down from the content of the
first document make a path that is read, and the search for it ends at the node at the end of the
way, the one above it being the parent. -/
theorem locate_pathOf {source : Text} {s : Snapshot} {content : Node} {a : Address}
    {steps : List Segment} (h : Snapshot.ofText source = .ok s)
    (hcontent : s.tree.root.descendant? [0, 0] = some content) (hreaches : content.Reaches a steps)
    (ha : a ≠ []) (hplain : ∀ step ∈ steps, step.IsPlain) :
    ∃ selector, Selector.parse (Selector.pathOf steps) = .ok selector ∧
      s.tree.locate selector = .ok (some ⟨[0, 0] ++ a, some ([0, 0] ++ a).dropLast⟩) := by
  have hparse := Selector.parse_pathOf hplain
  have haddress : s.addressOf (Selector.pathOf steps) = some ([0, 0] ++ a) :=
    addressOf_eq_some.mpr ⟨_, content.outline, a, hparse,
      Node.at?_of_descendant? (sound_of_ofText h).tree.regular hcontent,
      hreaches.isReference_eq_false ha, hreaches.walk, rfl⟩
  obtain ⟨selector, b, hselector, hb, hlocate⟩ := locate_of_addressOf h haddress
  obtain rfl := List.append_cancel_left hb
  rw [if_neg ha] at hlocate
  exact ⟨selector, hselector, hlocate⟩

/-- A value below an item below a value, with a key that has letters of several bytes. -/
theorem locate_pathOf_nested :
    ∃ s content selector,
      Snapshot.ofText "a:\n- x\n- ключ: 1\n".toList = .ok s ∧
        s.tree.root.descendant? [0, 0] = some content ∧
        content.Reaches [1, 1, 1] [.key "a".toList, .index 1, .key "ключ".toList] ∧
        Selector.parse "a.1.ключ".toList = .ok selector ∧
        s.tree.locate selector = .ok (some ⟨[0, 0, 1, 1, 1], some [0, 0, 1, 1]⟩) := by
  obtain ⟨e, hload, hwalk⟩ := Editor.exists_load "a:\n- x\n- ключ: 1\n".toList
    (P := fun e => (e.snapshot.tree.root.descendant? [0, 0]).any (fun content =>
      content.outline.walk [.key "a".toList, .index 1, .key "ключ".toList] ==
        some [1, 1, 1]) = true)
    (by decide +kernel)
  obtain ⟨content, hcontent, hwalk⟩ := (Option.any_eq_true _ _).mp hwalk
  have hreaches := Node.reaches_of_walk (beq_iff_eq.mp hwalk)
  have hread := (Editor.load_eq_ok hload).1
  obtain ⟨selector, hselector, hlocate⟩ := locate_pathOf hread hcontent hreaches (by decide)
    (by decide +kernel)
  exact ⟨e.snapshot, content, selector, hread, hcontent, hreaches, hselector, hlocate⟩

end Snapshot

end YamlEdit
