import YamlEdit.Proofs.ItemMarkers
import YamlEdit.Proofs.LineEdits
import YamlEdit.Proofs.SheetEvents

/-!
# The tree of a sheet

Every node of a sheet starts where its text does and stops where the margin behind it starts
(`Sheet.tree`). Main statement: `Node.ofText_sheet`, the tree of a text that is a sheet behind a
margin.
-/

namespace YamlEdit

/-! ## Nodes of a sheet -/

/-- The nodes that the head of an entry adds to a collection. -/
def Head.nodes (m : SourceMap) (place : Nat) : Head → List Node
  | dash _ => []
  | key name _ =>
    [⟨.scalar name, m.position place, m.position (place + Text.size name), none, []⟩]

/-- What a collection of such entries is. -/
def Head.kind (head : Head) : Kind := TreeBuilder.kindOf head.isKey .block

namespace Sheet

/-- The node of a sheet that starts at a byte offset. -/
def tree (m : SourceMap) : (place : Nat) → Sheet → Node
  | place, word w _ => ⟨.scalar w, m.position place, m.position (place + Text.size w), none, []⟩
  | place, last head node =>
    ⟨head.kind, m.position place, m.position (place + Text.size (last head node).body), none,
      head.nodes m place ++ [node.tree m (place + Text.size head.text)]⟩
  | place, more head node rest =>
    ⟨head.kind, m.position place, m.position (place + Text.size (more head node rest).body), none,
      head.nodes m place ++ node.tree m (place + Text.size head.text) ::
        (rest.tree m (place + Text.size (head.text ++ node.text))).children⟩

variable {column : Nat} {t : Sheet}

theorem outlines_nodes (m : SourceMap) (place : Nat) (head : Head) :
    (head.nodes m place).map Node.outline = head.outlines := by
  cases head <;> rfl

theorem outline_of_kind (head : Head) (start stop : Position) (l : List Node) :
    Node.outline ⟨head.kind, start, stop, none, l⟩ = .group head.bracket (l.map Node.outline) := by
  rw [← Node.outlines_eq_map]
  cases head <;> rfl

/-- The children of a node and of its outline. -/
theorem outlines_children (m : SourceMap) (t : Sheet) (place : Nat) :
    (t.tree m place).children.map Node.outline = (t.tree m place).outline.children := by
  cases t with
  | word => rfl
  | last | more =>
      rw [tree, outline_of_kind]
      rfl

/-- The node says what the sheet does. -/
theorem outline_tree (m : SourceMap) : ∀ (t : Sheet) (place : Nat),
    (t.tree m place).outline = t.outline
  | word _ _, _ => rfl
  | last head node, place => by
      rw [tree, outline_of_kind, List.map_append, outlines_nodes, outline, List.map_singleton,
        outline_tree m node]
  | more head node rest, place => by
      rw [tree, outline_of_kind, List.map_append, outlines_nodes, outline, List.map_cons,
        outline_tree m node, outlines_children, outline_tree m rest]

theorem length_children (m : SourceMap) (t : Sheet) (place : Nat) :
    (t.tree m place).children.length = t.outline.children.length := by
  rw [← outline_tree m t place, ← outlines_children, List.length_map]

theorem start_tree (m : SourceMap) (t : Sheet) (place : Nat) :
    (t.tree m place).start = m.position place := by
  cases t <;> rfl

/-- A sheet that is no scalar is opened, and then its entries follow. -/
theorem exists_head (hword : t.isWord = false) : ∃ head, t.head? = some head ∧
    (∀ m e, t.events false m e = (head.opener, Span.empty m) :: t.events true m e) ∧
      ∀ m place, t.tree m place = ⟨head.kind, m.position place,
        m.position (place + Text.size t.body), none, (t.tree m place).children⟩ := by
  cases t with
  | word => cases hword
  | last head node => exact ⟨head, rfl, fun _ _ => rfl, fun _ _ => rfl⟩
  | more head node rest => exact ⟨head, rfl, fun _ _ => rfl, fun _ _ => rfl⟩

/-! ### Where the nodes of a collection stop -/

theorem size_body_le (t : Sheet) : Text.size t.body ≤ Text.size t.text := by
  rw [text_eq, Text.size_append]
  exact Nat.le_add_right _ _

theorem offset_position_le (source : Text) (place : Nat) :
    (SourceMap.ofText source).offset ((SourceMap.ofText source).position place) ≤ place := by
  rw [SourceMap.offset_position_min]
  exact Nat.min_le_left _ _

theorem stop_head_le {source : Text} {place : Nat} {head : Head} :
    ∀ n ∈ head.nodes (.ofText source) place,
      (SourceMap.ofText source).offset n.stop ≤ place + Text.size head.text := by
  intro n hn
  cases head with
  | dash => cases hn
  | key name gap =>
      obtain rfl := List.mem_singleton.mp hn
      refine Nat.le_trans (offset_position_le _ _) ?_
      simp only [Head.text, Head.mark, Text.size_append]
      omega

theorem offset_stop_tree_le (source : Text) (t : Sheet) (place : Nat) :
    (SourceMap.ofText source).offset (t.tree (.ofText source) place).stop ≤
      place + Text.size t.body := by
  cases t <;> exact offset_position_le _ _

/-- No child stops behind the collection. -/
theorem offset_stop_le (source : Text) : ∀ (t : Sheet) (place : Nat),
    ∀ n ∈ (t.tree (.ofText source) place).children,
      (SourceMap.ofText source).offset n.stop ≤ place + Text.size t.body
  | word _ _, _, _, hn => nomatch hn
  | last head node, place, n, hn => by
      rw [body, Text.size_append]
      rcases List.mem_append.mp hn with hn | hn
      · have := stop_head_le n hn
        omega
      · obtain rfl := List.mem_singleton.mp hn
        have := offset_stop_tree_le source node (place + Text.size head.text)
        omega
  | more head node rest, place, n, hn => by
      rw [body, Text.size_append, Text.size_append]
      rcases List.mem_append.mp hn with hn | hn
      · have := stop_head_le n hn
        omega
      rcases List.mem_cons.mp hn with rfl | hn
      · have := offset_stop_tree_le source node (place + Text.size head.text)
        have := node.size_body_le
        omega
      · have := offset_stop_le source rest _ n hn
        rw [Text.size_append] at this
        omega

/-- The last child stops where the collection does. -/
theorem exists_stop (source : Text) (h : t.Fits column) (hword : t.isWord = false) (place : Nat) :
    ∃ n ∈ (t.tree (.ofText source) place).children,
      n.stop = (SourceMap.ofText source).position (place + Text.size t.body) := by
  induction h generalizing place with
  | word => cases hword
  | @last _ head node _ _ _ ih =>
      refine ⟨node.tree (.ofText source) (place + Text.size head.text), by simp [tree], ?_⟩
      rw [body, Text.size_append, ← Nat.add_assoc]
      cases node <;> rfl
  | @more _ head node rest _ _ _ _ hkind _ _ ih =>
      have hrest : rest.isWord = false := by
        cases rest with
        | word => cases hkind
        | last | more => rfl
      obtain ⟨n, hn, hstop⟩ := ih hrest (place + Text.size (head.text ++ node.text))
      refine ⟨n, List.mem_append_right _ (List.mem_cons_of_mem _ hn), ?_⟩
      rw [hstop, body, Text.size_append (head.text ++ node.text), Nat.add_assoc]

end Sheet

theorem Token.Margin.isBlank_of_not_mem {g : Text} (h : Token.Margin g) (hhash : '#' ∉ g) :
    ∀ c ∈ g, Text.isBlank c = true := by
  induction h with
  | nil => exact nofun
  | space _ ih | feed _ ih =>
      rw [List.mem_cons, not_or] at hhash
      exact List.forall_mem_cons.mpr ⟨rfl, ih hhash.2⟩
  | comment => exact absurd List.mem_cons_self hhash

/-! ## Places -/

namespace SourceMap

variable {m : SourceMap} {x y : Text}

theorem offsetOfMark_eq (hsource : m.source = x ++ y) {mark : Mark}
    (hmark : mark.index = x.length) :
    m.offsetOfMark mark = Text.size x := by
  rw [offsetOfMark, bytesOf_eq_size, hsource, hmark, List.take_left]

end SourceMap

theorem Text.trimEnd_eq {w : Text} (h : w.getLast?.any (!Text.isBlank ·) = true) :
    w.trimEnd = w := by
  rw [← List.head?_reverse] at h
  rw [trimEnd]
  cases hreverse : w.reverse with
  | nil => rw [List.reverse_eq_nil_iff.mp hreverse, List.dropWhile_nil, List.reverse_nil]
  | cons c r =>
      rw [hreverse] at h
      have hc : isBlank c = false := by simpa using h
      rw [List.dropWhile_cons_of_neg (by simp [hc]), ← hreverse, List.reverse_reverse]

namespace Extent

variable {x y : Text}

theorem skipProperties_eq (h : isPropertyMark (y.headD ' ') = false) :
    skipProperties (x ++ y) (Text.size x) = .ok (Text.size x) := by
  have hnone : ∀ fuel, propertiesSize fuel y = 0 := by
    intro fuel
    cases fuel with
    | zero => rfl
    | succ fuel => rw [propertiesSize, if_neg (ne_true_of_eq_false h)]
  refine bind_eq_ok.mpr ⟨y, dropBytes_append x y, ?_⟩
  rw [hnone]
  rfl

/-- The dash of an item is found over white space. -/
theorem itemMarker_dash {gap : Text} (hgap : ∀ c ∈ gap, Text.isBlank c = true) :
    itemMarker (x ++ '-' :: (gap ++ y)) (Text.size (x ++ '-' :: gap)) =
      .ok (some (Text.size x)) := by
  have hdrop : (x ++ '-' :: gap).reverse.dropWhile Text.isBlank = '-' :: x.reverse := by
    rw [List.reverse_append, List.reverse_cons, List.append_assoc,
      List.dropWhile_append_of_pos (by simpa using hgap)]
    rfl
  have := itemMarkerFrom_of_dash hdrop y (x ++ '-' :: (gap ++ y)).length
  rw [List.reverse_reverse, Text.size_reverse, Text.size_reverse] at this
  rw [itemMarker]
  simpa using this

end Extent

/-! ## What a sheet starts with -/

theorem Token.PlainLine.exists_cons {w : Text} (hw : Token.PlainLine w) :
    ∃ c r, w = c :: r ∧ Extent.isPropertyMark c = false ∧ Token.isFlow c = false := by
  have hreserved := hw.starts.2.1
  have hflow := hw.isFlow_headD []
  rw [List.append_nil] at hflow
  cases w with
  | nil => exact absurd rfl hw.ne_nil
  | cons c r =>
      refine ⟨c, r, rfl, ?_, hflow⟩
      simp only [List.headD_cons, Token.isReserved, Bool.or_eq_false_iff] at hreserved
      obtain ⟨⟨⟨⟨⟨⟨⟨-, hamp⟩, hbang⟩, -⟩, -⟩, -⟩, -⟩, -⟩ := hreserved
      rw [Extent.isPropertyMark, hamp, hbang]
      rfl

theorem Head.Fits.exists_cons {column : Nat} {head : Head} (h : head.Fits column) :
    ∃ c r, head.text = c :: r ∧ Extent.isPropertyMark c = false ∧ Token.isFlow c = false := by
  cases head with
  | dash gap => exact ⟨'-', gap, rfl, rfl, rfl⟩
  | key name gap =>
      obtain ⟨c, r, rfl, hc⟩ := h.name.1.exists_cons
      exact ⟨c, r ++ [':'] ++ gap, rfl, hc⟩

theorem Sheet.Fits.exists_cons {column : Nat} {t : Sheet} (h : t.Fits column) :
    ∃ c r, t.text = c :: r ∧ Extent.isPropertyMark c = false ∧ Token.isFlow c = false := by
  cases h with
  | @word _ w margin hw _ =>
      obtain ⟨c, r, rfl, hc⟩ := hw.exists_cons
      exact ⟨c, r ++ margin, rfl, hc⟩
  | @last _ head node hhead _ _ =>
      obtain ⟨c, r, htext, hc⟩ := hhead.exists_cons
      exact ⟨c, r ++ node.text, by rw [Sheet.text, htext]; rfl, hc⟩
  | @more _ head node rest hhead _ _ _ _ _ =>
      obtain ⟨c, r, htext, hc⟩ := hhead.exists_cons
      exact ⟨c, r ++ node.text ++ rest.text, by rw [Sheet.text, htext]; rfl, hc⟩

/-! ## Building -/

namespace TreeBuilder

variable {m : SourceMap} {s : State} {β : Type} {x y : Text}

theorem offsets_bind_ok {α : Type} {a : α} {r : Except BadOffset α} (h : r = .ok a)
    (f : α → Build β) : (offsets r >>= f) s = f a s := by
  rw [h]
  rfl

theorem bind_of_ok {α : Type} {r : Build α} {a : α} {s' : State} (h : r s = .ok (a, s'))
    (f : α → Build β) : (r >>= f) s = f a s' := by
  show (r s >>= fun p => f p.1 p.2) = _
  rw [h]
  rfl

/-- A plain scalar is where it is written. -/
theorem scalar_line {w : Text} (hw : Token.PlainLine w) (hsource : m.source = x ++ (w ++ y))
    {mark : Mark} (hmark : mark.index = x.length) :
    scalar m w .plain 0 ⟨mark, mark.across w⟩ s = .ok (⟨.scalar w, m.position (Text.size x),
      m.position (Text.size x + Text.size w), none, []⟩, s) := by
  obtain ⟨c, r, hcons, hc, -⟩ := hw.exists_cons
  have hstart := SourceMap.offsetOfMark_eq hsource hmark
  have hstop : m.offsetOfMark (mark.across w) = Text.size x + Text.size w := by
    rw [SourceMap.offsetOfMark_eq (x := x ++ w) (y := y) (by simpa using hsource), Text.size_append]
    rw [Mark.index_across, hmark, List.length_append]
  have hskip : Extent.skipProperties m.source (Text.size x) = .ok (Text.size x) := by
    rw [hsource]
    exact Extent.skipProperties_eq (by rw [hcons]; exact hc)
  have hpos : 0 < Text.size w := by
    rw [hcons]
    exact Text.size_pos_of_cons c r
  have hextent : scalarExtent m w .plain (Text.size x) (Text.size x + Text.size w) =
      .ok (Text.size x, Text.size x + Text.size w, w) := by
    have hslice : m.source.slice (Text.size x) (Text.size x + Text.size w) = .ok w :=
      Text.slice_eq_ok.mpr ⟨x, y, by simpa using hsource, rfl, rfl⟩
    unfold scalarExtent
    dsimp only
    rw [if_neg (by omega), trimmedEnd, hslice]
    show Except.ok (_, _ + Text.size (Text.trimEnd w), _) = _
    rw [Text.trimEnd_eq hw.last]
  unfold scalar
  rw [hstart, hstop]
  refine (offsets_bind_ok hskip _).trans ?_
  rw [Nat.max_eq_left (Nat.le_add_right _ _)]
  refine (offsets_bind_ok hextent _).trans ?_
  rfl

/-- A collection without brackets reaches from where it was opened to where its last child
stops. -/
theorem close_block {c : OpenCollection} {stop : Nat}
    (heven : c.isMapping = true → c.children.length % 2 = 0) (hanchor : c.anchor = none)
    (hstyle : collectionStyle m c = .ok .block)
    (hstart : blockStart m c (c.children.reverse.head?.map fun n => m.offset n.start) =
      .ok c.opened)
    (hstop : (c.children.reverse.map fun n => m.offset n.stop).max? = some stop) :
    close m c s = .ok (⟨kindOf c.isMapping .block, m.position c.opened, m.position stop, none,
      c.children.reverse⟩, s) := by
  have hextent : collectionExtent m c .block c.children.reverse = .ok (c.opened, stop) := by
    unfold collectionExtent
    dsimp only
    rw [hstart, hstop]
    rfl
  unfold close
  dsimp only
  rw [if_neg]
  · refine (offsets_bind_ok hstyle _).trans ((offsets_bind_ok hextent _).trans ?_)
    rw [hanchor]
    rfl
  · rintro ⟨hmapping, hodd⟩
    rw [List.length_reverse] at hodd
    exact hodd (heven hmapping)

/-- A collection that a sheet opens. -/
theorem openCollection_sheet {column : Nat} {t : Sheet} (ht : t.Fits column)
    (hsource : m.source = x ++ (t.text ++ y)) {mark : Mark} (hmark : mark.index = x.length)
    (isMapping : Bool) :
    openCollection m isMapping 0 (Span.empty mark) s =
      .ok (⟨isMapping, Text.size x, none, []⟩, s) := by
  obtain ⟨c, r, htext, hc, -⟩ := ht.exists_cons
  have hskip : Extent.skipProperties m.source (Text.size x) = .ok (Text.size x) := by
    rw [hsource]
    exact Extent.skipProperties_eq (by rw [htext]; exact hc)
  unfold openCollection
  dsimp only [Span.empty]
  rw [SourceMap.offsetOfMark_eq hsource hmark]
  exact (offsets_bind_ok hskip _).trans rfl

theorem collectionStyle_sheet {column : Nat} {t : Sheet} (ht : t.Fits column)
    (hsource : m.source = x ++ (t.text ++ y)) {c : OpenCollection} (hc : c.opened = Text.size x) :
    collectionStyle m c = .ok .block := by
  obtain ⟨d, r, htext, -, hflow⟩ := ht.exists_cons
  have hdrop : m.source.dropBytes c.opened = .ok (d :: (r ++ y)) := by
    rw [hc, hsource, htext]
    exact Extent.dropBytes_append _ _
  unfold collectionStyle
  rw [hdrop]
  show Except.ok (if d = _ then _ else _) = _
  rw [if_neg]
  cases c.isMapping <;> (rintro rfl; cases hflow)

/-- A collection starts where its first entry does. -/
theorem blockStart_sheet {source : Text} {column : Nat} {t : Sheet} (ht : t.Fits column)
    (hsource : source = x ++ (t.text ++ y)) {c : OpenCollection} (hopened : c.opened = Text.size x)
    (hc : t.head?.map Head.isKey = some c.isMapping) :
    blockStart (.ofText source) c ((t.tree (.ofText source) (Text.size x)).children.head?.map
      fun n => (SourceMap.ofText source).offset n.start) = .ok c.opened := by
  have hentry : ∀ {head : Head} {node : Sheet} {v : Text} {l : List Node}, head.Fits column →
      source = x ++ (head.text ++ v) → head.isKey = c.isMapping →
      blockStart (.ofText source) c ((head.nodes (.ofText source) (Text.size x) ++
        node.tree (.ofText source) (Text.size x + Text.size head.text) :: l).head?.map
          fun n => (SourceMap.ofText source).offset n.start) = .ok c.opened := by
    intro head node v l hhead hsource hkind
    cases head with
    | key name gap =>
        have hplace : (SourceMap.ofText source).offset
            ((SourceMap.ofText source).position (Text.size x)) = Text.size x :=
          SourceMap.offset_position (by rw [hsource, Text.size_append]; omega)
        have hmapping : c.isMapping = true := hkind.symm
        unfold blockStart
        rw [if_pos hmapping]
        show Except.ok ((SourceMap.ofText source).offset
          ((SourceMap.ofText source).position (Text.size x))) = _
        rw [hplace, hopened]
    | dash gap =>
        have hmapping : ¬ c.isMapping = true := ne_true_of_eq_false hkind.symm
        have hplace : (SourceMap.ofText source).offset ((SourceMap.ofText source).position
            (Text.size x + Text.size (Head.dash gap).text)) = Text.size (x ++ '-' :: gap) := by
          rw [SourceMap.offset_position
            (by rw [hsource, Text.size_append, Text.size_append]; omega),
            ← Text.size_append]
          rfl
        have hmarker := Extent.itemMarker_dash (x := x) (y := v)
          (hhead.margin.isBlank_of_not_mem (hhead.item rfl))
        unfold blockStart
        rw [if_neg hmapping]
        dsimp only [Head.nodes, List.nil_append, List.head?_cons, Option.map_some]
        rw [Sheet.start_tree, hplace]
        have hmarker' : Extent.itemMarker (SourceMap.ofText source).source
            (Text.size (x ++ '-' :: gap)) = .ok (some (Text.size x)) := by
          rw [← hmarker]
          exact congrArg (Extent.itemMarker · _) hsource
        rw [hmarker', hopened]
        rfl
  cases ht with
  | word => cases hc
  | @last _ head node hhead _ _ =>
      exact hentry hhead (by rw [hsource, Sheet.text, List.append_assoc]) (Option.some.inj hc)
  | @more _ head node rest hhead _ _ _ _ _ =>
      exact hentry hhead (by rw [hsource, Sheet.text, List.append_assoc, List.append_assoc])
        (Option.some.inj hc)

/-- An open collection of entries goes on at a place. -/
structure OpenCollection.Awaits (m : SourceMap) (c : OpenCollection) (place : Nat) : Prop where
  anchor : c.anchor = none
  style : collectionStyle m c = .ok .block
  even : c.isMapping = true → c.children.length % 2 = 0
  before : ∀ n ∈ c.children, m.offset n.stop ≤ place

/-- The events of a sheet build its tree. -/
def BuildsTree (source : Text) (t : Sheet) : Prop :=
  ∀ (e : Mark) (rest : List (Event × Span)) {x y : Text} {mark : Mark} {s : State}
    {nest : List OpenCollection}, source = x ++ (t.text ++ y) → mark.index = x.length →
    s.stage = .inside nest →
    steps (.ofText source) (t.events false mark e ++ rest) s =
      steps (.ofText source) rest (s.placed nest (t.tree (.ofText source) (Text.size x)))

/-- The events of the entries of a sheet complete the collection that is open. -/
def BuildsEntries (source : Text) (t : Sheet) : Prop :=
  ∀ (e : Mark) (rest : List (Event × Span)) {x y : Text} {mark : Mark} {s : State}
    {c : OpenCollection} {outer : List OpenCollection}, source = x ++ (t.text ++ y) →
      mark.index = x.length →
    s.stage = .inside (c :: outer) → t.head?.map Head.isKey = some c.isMapping →
    c.Awaits (.ofText source) (Text.size x) →
    blockStart (.ofText source) c ((c.children.reverse ++
      (t.tree (.ofText source) (Text.size x)).children).head?.map fun n =>
        (SourceMap.ofText source).offset n.start) = .ok c.opened →
    steps (.ofText source) (t.events true mark e ++ rest) s =
      steps (.ofText source) rest
        (s.placed outer ⟨kindOf c.isMapping .block, (SourceMap.ofText source).position c.opened,
          (SourceMap.ofText source).position (Text.size x + Text.size t.body), none,
          c.children.reverse ++ (t.tree (.ofText source) (Text.size x)).children⟩)

section Steps

variable {source : Text} {column : Nat} {t : Sheet} {mark e : Mark} {rest : List (Event × Span)}
  {nest outer : List OpenCollection} {c : OpenCollection}

theorem steps_cons_of_ok {event : Event} {span : Span} {s' : State}
    (h : step m event span s = .ok ((), s')) :
    steps m ((event, span) :: rest) s = steps m rest s' :=
  bind_of_ok h _

/-- A plain scalar is put where it belongs. -/
theorem step_line {w : Text} (hw : Token.PlainLine w) (hsource : source = x ++ (w ++ y))
    (hmark : mark.index = x.length) (hstage : s.stage = .inside nest) :
    step (.ofText source) (.scalar w .plain 0) ⟨mark, mark.across w⟩ s =
      .ok ((), s.placed nest ⟨.scalar w, (SourceMap.ofText source).position (Text.size x),
        (SourceMap.ofText source).position (Text.size x + Text.size w), none, []⟩) := by
  rw [step_inside hstage]
  exact (bind_of_ok (scalar_line hw hsource hmark) _).trans (place_apply _)

/-- The head of an entry adds its nodes. -/
theorem steps_head {head : Head} (hhead : head.Fits column)
    (hsource : source = x ++ (head.text ++ y)) (hmark : mark.index = x.length)
    (hstage : s.stage = .inside (c :: outer)) :
    steps (.ofText source) (head.events mark ++ rest) s =
      steps (.ofText source) rest { s with stage := .inside ({ c with
        children := (head.nodes (.ofText source) (Text.size x)).reverse ++ c.children } ::
          outer) } := by
  cases head with
  | dash gap =>
      obtain ⟨stage, documents, labels⟩ := s
      obtain rfl : stage = _ := hstage
      rfl
  | key name gap =>
      refine (steps_cons_of_ok (step_line hhead.name.1 (y := ':' :: (gap ++ y)) ?_
        hmark hstage)).trans rfl
      simpa [Head.text, Head.mark, Head.gap] using hsource

/-- The event behind the last entry closes the collection. -/
theorem step_closer {head : Head} {n : Node} {span : Span}
    (hstage : s.stage = .inside (c :: outer)) (hclose : close m c s = .ok (n, s)) :
    step m head.closer span s = .ok ((), s.placed outer n) := by
  rw [step_inside hstage]
  cases head <;> exact (bind_of_ok hclose _).trans (place_apply _)

theorem placed_stage (stage : Stage) (n : Node) :
    State.placed { s with stage := stage } nest n = s.placed nest n := by
  cases nest <;> rfl

/-- A sheet that is no scalar is opened in front of its entries. -/
theorem BuildsEntries.tree (ht : t.Fits column) (hword : t.isWord = false)
    (h : BuildsEntries source t) : BuildsTree source t := by
  intro e rest x y mark s nest hsource hmark hstage
  obtain ⟨head, hhead, hevents, htree⟩ := t.exists_head hword
  have hkind : t.head?.map Head.isKey = some head.isKey := by rw [hhead]; rfl
  have hopener : step (.ofText source) head.opener (Span.empty mark) s = .ok ((),
      { s with stage := .inside (⟨head.isKey, Text.size x, none, []⟩ :: nest) }) := by
    rw [step_inside hstage, show head.opener = openerOf head.isKey 0 from rfl, insideEvent_opener]
    exact bind_of_ok (openCollection_sheet ht hsource hmark _) _
  have hentries := h e rest (c := ⟨head.isKey, Text.size x, none, []⟩)
    (s := { s with stage := .inside (⟨head.isKey, Text.size x, none, []⟩ :: nest) }) hsource hmark
    rfl hkind ⟨rfl, collectionStyle_sheet ht hsource rfl, fun _ => rfl, nofun⟩
    (blockStart_sheet ht hsource rfl hkind)
  rw [hevents, List.cons_append, steps_cons_of_ok hopener, hentries, placed_stage,
    htree _ (Text.size x)]
  rfl

/-- The children of a collection stop where the last entries do. -/
theorem max_stop (ht : t.Fits column) (hword : t.isWord = false)
    (hsource : source = x ++ (t.text ++ y)) {l : List Node}
    (hbefore : ∀ n ∈ l, (SourceMap.ofText source).offset n.stop ≤ Text.size x) :
    ((l ++ (t.tree (.ofText source) (Text.size x)).children).map
      fun n => (SourceMap.ofText source).offset n.stop).max? =
        some (Text.size x + Text.size t.body) := by
  have hbound : Text.size x + Text.size t.body ≤ Text.size source := by
    have := t.size_body_le
    rw [hsource, Text.size_append, Text.size_append]
    omega
  rw [List.max?_eq_some_iff]
  constructor
  · obtain ⟨n, hn, hstop⟩ := Sheet.exists_stop source ht hword (Text.size x)
    refine List.mem_map.mpr ⟨n, List.mem_append_right _ hn, ?_⟩
    rw [hstop, SourceMap.offset_position hbound]
  · intro stop hstop
    obtain ⟨n, hn, rfl⟩ := List.mem_map.mp hstop
    rcases List.mem_append.mp hn with hn | hn
    · have := hbefore n hn
      omega
    · exact Sheet.offset_stop_le source t (Text.size x) n hn

/-- A collection with the nodes of one entry more. -/
def OpenCollection.adding (c : OpenCollection) (source : Text) (place : Nat) (head : Head)
    (node : Sheet) : OpenCollection :=
  { c with
    children := node.tree (.ofText source) (place + Text.size head.text) ::
      ((head.nodes (.ofText source) place).reverse ++ c.children) }

/-- An entry adds its nodes. -/
theorem steps_entry {head : Head} {node : Sheet} (hhead : head.Fits column)
    (hnode : BuildsTree source node) (hsource : source = x ++ (head.text ++ (node.text ++ y)))
    (hmark : mark.index = x.length) (hstage : s.stage = .inside (c :: outer)) :
    steps (.ofText source)
        (head.events mark ++ (node.events false (mark.across head.text) e ++ rest)) s =
      steps (.ofText source) rest
        { s with stage := .inside (c.adding source (Text.size x) head node :: outer) } := by
  rw [steps_head hhead hsource hmark hstage, hnode e rest (x := x ++ head.text) (y := y)
    (by rw [hsource, List.append_assoc]) (by rw [Mark.index_across, hmark, List.length_append]) rfl,
    Text.size_append]
  rfl

theorem OpenCollection.Awaits.even_adding {head : Head} {node : Sheet} {place : Nat}
    (hc : c.Awaits m place) (hkind : head.isKey = c.isMapping) (hmapping : c.isMapping = true) :
    (c.adding source place head node).children.length % 2 = 0 := by
  have := hc.even hmapping
  cases head with
  | dash => rw [← hkind] at hmapping; cases hmapping
  | key => simpa [adding, Head.nodes, Nat.add_assoc] using this

/-- **The events of a sheet build its tree**, and those of its entries the collection that they
belong to. -/
theorem builds_sheet (ht : t.Fits column) :
    BuildsTree source t ∧ (t.isWord = false → BuildsEntries source t) := by
  induction ht with
  | word hw _ =>
      refine ⟨fun e rest {x y mark s nest} hsource hmark hstage => ?_, nofun⟩
      rw [Sheet.text, List.append_assoc] at hsource
      exact steps_cons_of_ok (step_line hw hsource hmark hstage)
  | @last column head node hhead hfollows hnode ih =>
      have ht : (Sheet.last head node).Fits column := .last hhead hfollows hnode
      have hentries : BuildsEntries source (.last head node) := by
        intro e rest x y mark s c outer hsource hmark hstage hkind hc hstart
        have hkind : head.isKey = c.isMapping := Option.some.inj hkind
        have hevents : (Sheet.last head node).events true mark e ++ rest =
            head.events mark ++ (node.events false (mark.across head.text) e ++
              ((head.closer, Span.empty e) :: rest)) := by
          simp [Sheet.events]
        have hchildren : (c.adding source (Text.size x) head node).children.reverse =
            c.children.reverse ++
              ((Sheet.last head node).tree (.ofText source) (Text.size x)).children := by
          simp [OpenCollection.adding, Sheet.tree]
        have hclose := close_block (m := .ofText source)
          (s := { s with stage := .inside (c.adding source (Text.size x) head node :: outer) })
          (c := c.adding source (Text.size x) head node) (hc.even_adding hkind) hc.anchor hc.style
          (by rw [hchildren]; exact hstart)
          (by
            rw [hchildren]
            exact max_stop ht rfl hsource fun n hn => hc.before n (List.mem_reverse.mp hn))
        rw [hevents, steps_entry hhead ih.1 (by rw [hsource, Sheet.text, List.append_assoc]) hmark
          hstage, steps_cons_of_ok (step_closer rfl hclose), placed_stage, hchildren]
        rfl
      exact ⟨hentries.tree ht rfl, fun _ => hentries⟩
  | @more column head node others hhead hfollows hnode haligned hkinds hothers ihnode ihothers =>
      have ht : (Sheet.more head node others).Fits column :=
        .more hhead hfollows hnode haligned hkinds hothers
      have hentries : BuildsEntries source (.more head node others) := by
        intro e rest x y mark s c outer hsource hmark hstage hkind hc hstart
        have hkind : head.isKey = c.isMapping := Option.some.inj hkind
        have hevents : (Sheet.more head node others).events true mark e ++ rest =
            head.events mark ++ (node.events false (mark.across head.text)
              (mark.across (head.text ++ node.text)) ++
                (others.events true (mark.across (head.text ++ node.text)) e ++ rest)) := by
          simp [Sheet.events]
        have hword : others.isWord = false := by
          cases others with
          | word => cases hkinds
          | last | more => rfl
        have hchildren : (c.adding source (Text.size x) head node).children.reverse ++
            (others.tree (.ofText source) (Text.size (x ++ (head.text ++ node.text)))).children =
              c.children.reverse ++
                ((Sheet.more head node others).tree (.ofText source) (Text.size x)).children := by
          simp [OpenCollection.adding, Sheet.tree, Text.size_append]
        rw [hevents, steps_entry hhead ihnode.1
          (by rw [hsource, Sheet.text, List.append_assoc, List.append_assoc]) hmark hstage]
        rw [ihothers.2 hword e rest (x := x ++ (head.text ++ node.text)) (y := y)
          (c := c.adding source (Text.size x) head node)
          (by rw [hsource, Sheet.text, List.append_assoc x, List.append_assoc])
          (by rw [Mark.index_across, hmark, ← List.length_append]) rfl
          (hkinds.trans (by rw [hkind]; rfl))
          ?_ (by rw [hchildren]; exact hstart), placed_stage, hchildren]
        · have hstop : Text.size (x ++ (head.text ++ node.text)) + Text.size others.body =
              Text.size x + Text.size (Sheet.more head node others).body := by
            simp [Sheet.body, Text.size_append, Nat.add_assoc]
          rw [hstop]
          rfl
        · refine ⟨hc.anchor, hc.style, hc.even_adding hkind, fun n hn => ?_⟩
          rw [Text.size_append, Text.size_append]
          rcases List.mem_cons.mp hn with rfl | hn
          · have := Sheet.offset_stop_tree_le source node (Text.size x + Text.size head.text)
            have := node.size_body_le
            omega
          rcases List.mem_append.mp hn with hn | hn
          · have := Sheet.stop_head_le n (List.mem_reverse.mp hn)
            omega
          · have := hc.before n hn
            omega
      exact ⟨hentries.tree ht rfl, fun _ => hentries⟩

end Steps

end TreeBuilder

/-! ## The whole text -/

/-- The tree of a text that is a sheet behind a margin. -/
def Sheet.root (source : Text) (place : Nat) (t : Sheet) : Node :=
  let content := t.tree (.ofText source) place
  ⟨.stream, ⟨0, 0⟩, (SourceMap.ofText source).position (Text.size source), none,
    [⟨.document, content.start, content.stop, none, [content]⟩]⟩

/-- A text that is a sheet behind a margin. -/
structure Text.IsSheet (source : Text) (g : Text) (t : Sheet) : Prop where
  text : source = g ++ t.text
  margin : Token.Margin g
  fits : t.Fits (Text.columnBehind 0 g)
  ends : Text.columnBehind 0 t.tail = 0

instance (source g : Text) (t : Sheet) : Decidable (source.IsSheet g t) :=
  decidable_of_iff (source = g ++ t.text ∧ Token.Margin g ∧ t.Fits (Text.columnBehind 0 g) ∧
      Text.columnBehind 0 t.tail = 0)
    ⟨fun ⟨h₁, h₂, h₃, h₄⟩ => ⟨h₁, h₂, h₃, h₄⟩, fun ⟨h₁, h₂, h₃, h₄⟩ => ⟨h₁, h₂, h₃, h₄⟩⟩

/-- **The tree of a text that is a sheet behind a margin.** -/
theorem Node.ofText_sheet {source g : Text} {t : Sheet} (h : source.IsSheet g t) :
    Node.ofText (.ofText source) = .ok (t.root source (Text.size g)) := by
  obtain ⟨hsource, hg, hfits, hend⟩ := h
  obtain ⟨content, hevents⟩ := Event.ofDocument_sheet hg hfits hend
  have hmark : (Mark.origin.across g).index = g.length := by simp [Mark.index_across, Mark.origin]
  have hsteps := (TreeBuilder.builds_sheet hfits).1 (Mark.origin.across (g ++ t.text))
    [(.documentEnd, Span.empty (Mark.origin.across (g ++ t.text))),
      (.streamEnd, Span.empty (Mark.origin.across (g ++ t.text)))] (x := g) (y := [])
    (s := ⟨.inside [], [], []⟩) (by simpa using hsource) hmark rfl
  have hstart : TreeBuilder.step (.ofText source) .streamStart (Span.empty Mark.origin)
      TreeBuilder.start = .ok ((), ⟨.betweenDocuments, [], []⟩) := rfl
  have hopen :
      TreeBuilder.step (.ofText source) .documentStart content ⟨.betweenDocuments, [], []⟩ =
      .ok ((), ⟨.inside [], [], []⟩) := rfl
  unfold Node.ofText
  rw [show (SourceMap.ofText source).source = g ++ t.text from hsource, hevents]
  show (TreeBuilder.steps (.ofText source) _ TreeBuilder.start >>= fun p =>
    TreeBuilder.finish (.ofText source) p.2) = _
  rw [TreeBuilder.steps_cons_of_ok hstart, TreeBuilder.steps_cons_of_ok hopen, hsteps]
  rfl

end YamlEdit
