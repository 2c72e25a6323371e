import YamlEdit.Proofs.Restoring
import YamlEdit.Proofs.SheetFrames

/-!
# The lines of a sheet

Edits are planned with columns and line starts, which are counted in bytes. In front of a node that
takes lines of its own there is nothing on its line but spaces and dashes (`Text.IsUpright`), so
that its column is the one that the layout says (`SourceMap.column_of_upright`).

Main statements: `Sheet.Fits.upright_front`, `Text.IsSheet.ofText` for the tree of the text, and
`Sheet.exists_plug_of_addressOf` for the nodes that paths lead to.
-/

namespace YamlEdit

/-! ## Upright places -/

/-- Whether nothing but spaces and dashes is in front of the end of a text on its line. -/
def Text.IsUpright (t : Text) : Prop :=
  ∃ x y, t = x ++ y ∧ LineIndex.EndsLine x ∧ ∀ c ∈ y, c = ' ' ∨ c = '-'

namespace Text.IsUpright

variable {t u g : Text}

theorem nil : IsUpright [] := ⟨[], [], rfl, .inl rfl, nofun⟩

theorem append (h : t.IsUpright) (hu : ∀ c ∈ u, c = ' ' ∨ c = '-' ∨ c = '\n') :
    (t ++ u).IsUpright := by
  induction u generalizing t with
  | nil => rwa [List.append_nil]
  | cons c u ih =>
      have hrest := fun d hd => hu d (List.mem_cons_of_mem c hd)
      rw [List.append_cons]
      refine ih ?_ hrest
      obtain ⟨x, y, rfl, hx, hy⟩ := h
      rcases hu c List.mem_cons_self with rfl | rfl | rfl
      · exact ⟨x, y ++ [' '], by simp, hx, by simpa [or_imp, forall_and] using hy⟩
      · exact ⟨x, y ++ ['-'], by simp, hx, by simpa [or_imp, forall_and] using hy⟩
      · exact ⟨x ++ y ++ ['\n'], [], by simp, .inr ⟨_, rfl⟩, nofun⟩

/-- The line behind a margin starts with spaces. -/
theorem append_margin (hg : Token.Margin g) (h : t.IsUpright ∨ '\n' ∈ g) : (t ++ g).IsUpright := by
  induction hg generalizing t with
  | nil =>
      rw [List.append_nil]
      exact h.resolve_right List.not_mem_nil
  | @space u _ ih =>
      have := ih (t := t ++ [' ']) ?_
      · simpa using this
      · exact h.imp (·.append (by simp)) (by simp)
  | @feed u _ ih =>
      have := ih (t := t ++ ['\n']) (.inl ⟨t ++ ['\n'], [], by simp, .inr ⟨t, rfl⟩, nofun⟩)
      simpa using this
  | @comment body u _ _ ih =>
      have := ih (t := t ++ '#' :: body) (.inr List.mem_cons_self)
      simpa using this

end Text.IsUpright

namespace LineIndex

variable {x y z : Text}

/-- The column of a place is counted from the start of its line. -/
theorem column_position (hx : EndsLine x) (hy : y.count '\n' = 0) :
    ((ofText (x ++ y ++ z)).position (Text.size (x ++ y))).column = Text.size y := by
  have hle : Text.size (x ++ y) ≤ Text.size (x ++ y ++ z) := by
    rw [Text.size_append (x ++ y)]
    omega
  obtain ⟨k, start, hposition, hstart, -, -⟩ := position_eq hle
  have hline := line_position (x ++ y) z
  rw [hposition] at hline ⊢
  obtain rfl : k = x.count '\n' := by
    rw [List.count_append, hy] at hline
    exact hline
  have := lineStart_count hx (y ++ z)
  rw [← List.append_assoc, lineStart, List.getD_eq_getElem?_getD, hstart, Option.getD_some] at this
  show Text.size (x ++ y) - start = _
  rw [this, Text.size_append]
  omega

/-- Where the line behind a place starts. -/
theorem nextLineStart_position (hx : '\n' ∉ x) :
    (ofText (z ++ (x ++ '\n' :: y))).nextLineStart
        ((ofText (z ++ (x ++ '\n' :: y))).position (Text.size z)) =
      Text.size (z ++ (x ++ ['\n'])) := by
  have hcount : z.count '\n' + 1 = (z ++ (x ++ ['\n'])).count '\n' := by
    rw [List.count_append, Text.count_lineFeed, List.count_eq_zero.mpr hx]
  have hends : EndsLine (z ++ (x ++ ['\n'])) := .inr ⟨z ++ x, by simp⟩
  rw [nextLineStart, line_position, hcount]
  have := lineStart_count hends y
  simpa using this

end LineIndex

theorem Text.size_of_ascii {y : Text} (h : ∀ c ∈ y, c = ' ' ∨ c = '-') : size y = y.length := by
  induction y with
  | nil => rfl
  | cons c y ih =>
      rw [size_cons, ih fun d hd => h d (List.mem_cons_of_mem c hd), List.length_cons, Nat.add_comm]
      rcases h c List.mem_cons_self with rfl | rfl <;> rfl

/-- Columns are counted from the start of the line. -/
theorem Text.columnBehind_endsLine {x : Text} (hx : LineIndex.EndsLine x) (y : Text) :
    columnBehind 0 (x ++ y) = columnBehind 0 y := by
  rcases hx with rfl | ⟨front, rfl⟩
  · rfl
  · rw [columnBehind_append, columnBehind_append]
    rfl

theorem Text.columnBehind_line {x y : Text} (hx : LineIndex.EndsLine x) (hy : '\n' ∉ y) :
    columnBehind 0 (x ++ y) = y.length := by
  rw [columnBehind_endsLine hx, columnBehind_of_not_mem hy, Nat.zero_add]

/-- **The column of an upright place** is the same in bytes as in characters. -/
theorem SourceMap.column_of_upright {t : Text} (h : t.IsUpright) (v : Text) :
    ((ofText (t ++ v)).position (Text.size t)).column = Text.columnBehind 0 t := by
  obtain ⟨x, y, rfl, hx, hy⟩ := h
  have hfeed : '\n' ∉ y := by
    intro hmem
    rcases hy _ hmem with h | h <;> cases h
  rw [Text.columnBehind_line hx hfeed]
  exact (LineIndex.column_position hx (List.count_eq_zero.mpr hfeed)).trans
    (Text.size_of_ascii hy)

/-! ## Lines in front of nodes -/

namespace Sheet

variable {column : Nat} {fs : List Frame} {f : Frame} {es : List Entry} {k : Bool} {t u : Sheet}
  {g : Text}

/-- A line behind a sheet starts with spaces. -/
theorem Fits.upright_text (h : t.Fits column) (x : Text) : (x ++ t.text).IsUpright := by
  rw [text_eq, ← List.append_assoc]
  exact .append_margin h.isBreak_tail.margin (.inr h.isBreak_tail.feed)

theorem upright_textOf (h : ∀ e ∈ es, e.Fits column k) (hg : g.IsUpright) :
    (g ++ Entry.textOf es).IsUpright := by
  induction es generalizing g with
  | nil => rwa [Entry.textOf_nil, List.append_nil]
  | cons e es ih =>
      have he := (h e List.mem_cons_self).node.upright_text (g ++ e.1.text)
      have := ih (fun e' he' => h e' (List.mem_cons_of_mem e he')) he
      simpa [Entry.text] using this

theorem columnBehind_textOf (h : ∀ e ∈ es, e.Fits column k) :
    Text.columnBehind column (Entry.textOf es) = column := by
  induction es with
  | nil => rfl
  | cons e es ih =>
      have he := h e List.mem_cons_self
      rw [Entry.textOf_cons, Text.columnBehind_append, Entry.text, Text.columnBehind_append,
        he.node.columnBehind_text, he.aligned]
      exact ih fun e' he' => h e' (List.mem_cons_of_mem e he')

/-- The entries in front of a frame's own. -/
theorem Fits.before_of_plug (h : (Sheet.plug (f :: fs) u).Fits column) :
    ∀ e ∈ f.before, e.Fits (columnIn column fs) f.head.isKey :=
  (h.fill.of_plug.of_behind (f.isKey?_entry u)).2

/-- What is behind a `-`, or behind a key and a line feed, is upright. -/
theorem upright_head {head : Head} (h : head.Fits column) (hg : g.IsUpright)
    (hfeed : head.isKey = true → '\n' ∈ head.gap) : (g ++ head.text).IsUpright := by
  rw [Head.text, ← List.append_assoc]
  refine .append_margin h.margin ?_
  cases head with
  | dash gap => exact .inl (hg.append (by simp [Head.mark]))
  | key name gap => exact .inr (hfeed rfl)

/-- **A node that takes lines of its own is upright**, and so are the heads of the entries. -/
theorem Fits.upright_front (h : (Sheet.plug fs u).Fits column) (hg : g.IsUpright)
    (hword : u.isWord = false) : (g ++ Sheet.front fs).IsUpright := by
  induction fs generalizing u with
  | nil => rwa [front, List.append_nil]
  | cons f fs ih =>
      obtain ⟨hhead, hfollows, -⟩ := Frame.fits_of_fill (Fits.of_plug h)
      rw [front, Frame.front, ← List.append_assoc, ← List.append_assoc]
      refine upright_head hhead (upright_textOf h.before_of_plug (ih h (f.isWord_fill u))) ?_
      intro hkey
      by_contra hfeed
      rw [hfollows hkey hfeed] at hword
      cases hword

theorem Fits.upright_entry (h : (Sheet.plug (f :: fs) u).Fits column) (hg : g.IsUpright) :
    (g ++ Sheet.front fs ++ Entry.textOf f.before).IsUpright :=
  upright_textOf h.before_of_plug (Fits.upright_front h hg (f.isWord_fill u))

theorem Fits.upright_node (h : (Sheet.plug (f :: fs) u).Fits column) (hg : g.IsUpright)
    (hfeed : f.head.isKey = true → '\n' ∈ f.head.gap) :
    (g ++ Sheet.front (f :: fs)).IsUpright := by
  rw [front, Frame.front, ← List.append_assoc, ← List.append_assoc]
  exact upright_head (Frame.fits_of_fill (Fits.of_plug h)).1 (h.upright_entry hg) hfeed

/-- The column behind what is in front of a node. -/
theorem Fits.columnBehind_front (h : (Sheet.plug fs u).Fits (Text.columnBehind 0 g)) :
    Text.columnBehind 0 (g ++ Sheet.front fs) = columnIn (Text.columnBehind 0 g) fs := by
  induction fs generalizing u with
  | nil => rw [front, List.append_nil, columnIn]
  | cons f fs ih =>
      rw [front, Frame.front, ← List.append_assoc, ← List.append_assoc, Text.columnBehind_append,
        Text.columnBehind_append, ih h, columnBehind_textOf h.before_of_plug, columnIn]

end Sheet

/-! ## The snapshot of a sheet -/

/-- What is read from a text that is a sheet behind a margin. -/
def Sheet.snapshot (source g : Text) (t : Sheet) : Snapshot :=
  ⟨.ofText source, .ofRoot (t.root source (Text.size g))⟩

namespace Text.IsSheet

variable {source g path : Text} {t : Sheet} {a : Address}

theorem ofText (h : source.IsSheet g t) : Snapshot.ofText source = .ok (t.snapshot source g) := by
  unfold Snapshot.ofText
  dsimp only
  rw [Node.ofText_sheet h]
  rfl

theorem isUpright (h : source.IsSheet g t) : g.IsUpright := by
  have := Text.IsUpright.append_margin h.margin (.inl .nil)
  simpa using this

theorem snapshot_of_load (h : source.IsSheet g t) {e : Editor}
    (hload : Editor.load source = .ok e) :
    e.snapshot = t.snapshot source g :=
  Except.ok.inj ((Editor.load_eq_ok hload).1.symm.trans h.ofText)

/-- The innermost frame belongs to what stands in the others. -/
theorem fill {fs : List Frame} {f : Frame} {u : Sheet}
    (h : source.IsSheet g (Sheet.plug (f :: fs) u)) :
    source.IsSheet g (Sheet.plug fs (f.fill u)) := h

/-- A sheet that is planned to become another one does. -/
theorem exists_edit (h : source.IsSheet g t) {text g' : Text} {t' : Sheet}
    (h' : text.IsSheet g' t') {e : Editor} (hload : Editor.load source = .ok e) {o : Operation}
    {splice : Splice} (hplan : Plan.operation (t.snapshot source g) o = .ok splice)
    (happly : splice.apply source = .ok text) :
    ∃ e', Editor.edit source o = some (e, e', text) ∧ e'.snapshot = t'.snapshot text g' := by
  obtain ⟨e₁, e', hedit, -, he'⟩ := Editor.exists_edit_of_apply h.ofText hplan happly h'.ofText
  obtain rfl : e₁ = e := Except.ok.inj ((Editor.edit_eq_some.mp hedit).1.symm.trans hload)
  exact ⟨e', hedit, he'⟩

end Text.IsSheet

namespace Sheet

variable {source g path : Text} {t u : Sheet} {fs : List Frame} {a : Address}

theorem outline_snapshot (source g : Text) (t : Sheet) :
    (t.snapshot source g).outline = .stream [t.outline] := by
  show (t.root source (Text.size g)).outline = _
  rw [root, Node.outline, Node.outlines_eq_map, List.map_singleton, Node.outline,
    Node.outlines_eq_map, List.map_singleton, outline_tree]
  rfl

/-- The node at an address. -/
theorem descendant?_snapshot (source g : Text) (fs : List Frame) (u : Sheet) :
    ((plug fs u).snapshot source g).tree.root.descendant? ([0, 0] ++ addr fs) =
      some (u.tree (.ofText source) (Text.size (g ++ front fs))) := by
  show ((plug fs u).root source (Text.size g)).descendant? (0 :: 0 :: addr fs) = _
  rw [Text.size_append, ← descendant?_plug]
  rfl

/-- A change of a node is one of the outline at its address. -/
theorem outline_snapshot_modify {F : Outline → Outline} {v : Sheet} (hF : v.outline = F u.outline)
    (source source' g g' : Text) (fs : List Frame) :
    ((plug fs v).snapshot source' g').outline =
      ((plug fs u).snapshot source g).outline.modify F ([0, 0] ++ addr fs) := by
  rw [outline_snapshot, outline_snapshot, outline_plug fs u, hF,
    ← Outline.modify_eq_replace (at?_plug fs u)]
  rfl

/-- **A path of keys and indices leads to a node in frames.** -/
theorem exists_plug_of_addressOf (h : source.IsSheet g t)
    (hpath : (t.snapshot source g).addressOf path = some a) :
    ∃ fs u, t = plug fs u ∧ a = [0, 0] ++ addr fs := by
  obtain ⟨selector, content, b, -, hcontent, -, hb, rfl⟩ := Snapshot.addressOf_eq_some.mp hpath
  rw [outline_snapshot] at hcontent
  obtain rfl : t.outline = content := Option.some.inj hcontent
  obtain ⟨fs, u, rfl, rfl⟩ := exists_plug h.fits hb
  exact ⟨fs, u, rfl, rfl⟩

/-! ### Places -/

theorem size_body_pos {column : Nat} (h : t.Fits column) : 0 < Text.size t.body := by
  have hhead : ∀ {head : Head} (x : Text), 0 < Text.size (head.text ++ x) := by
    intro head x
    cases head with
    | dash gap => exact Text.size_pos_of_cons '-' _
    | key name gap =>
        simp only [Head.text, Head.mark, Text.size_append]
        exact Nat.lt_of_lt_of_le (by decide : 0 < Text.size [':']) (by omega)
  cases h with
  | word hw _ =>
      obtain ⟨c, r, rfl, -⟩ := hw.exists_cons
      exact Text.size_pos_of_cons c r
  | last => exact hhead _
  | more =>
      rw [body, List.append_assoc]
      exact hhead _

theorem kind_tree {k : Bool} (h : t.isKey? = some k) (m : SourceMap) (place : Nat) :
    (t.tree m place).kind = if k then .mapping .block else .sequence .block := by
  cases t with
  | word => cases h
  | last head _ | more head _ _ =>
      obtain rfl : head.isKey = k := Option.some.inj h
      rfl

theorem stop_tree (m : SourceMap) (t : Sheet) (place : Nat) :
    (t.tree m place).stop = m.position (place + Text.size t.body) := by
  cases t <;> rfl

/-- The offset of a position that is in the text. -/
theorem offset_snapshot {x y : Text} (hsource : source = x ++ y) :
    (t.snapshot source g).offset ((SourceMap.ofText source).position (Text.size x)) =
      Text.size x := by
  refine SourceMap.offset_position ?_
  rw [hsource, Text.size_append]
  exact Nat.le_add_right _ _

end Sheet

namespace Text.IsSheet

variable {source g path : Text} {fs : List Frame} {f : Frame} {t u : Sheet}

/-- The text in front of a node, that of the node, and that behind it. -/
theorem text_plug (h : source.IsSheet g (Sheet.plug fs u)) :
    source = g ++ Sheet.front fs ++ (u.body ++ (u.tail ++ Sheet.back fs)) := by
  rw [h.text, Sheet.text_plug, Sheet.text_eq u]
  simp

/-- Where a node starts and stops. -/
theorem startOf (h : source.IsSheet g (Sheet.plug fs u)) :
    ((Sheet.plug fs u).snapshot source g).startOf
      (u.tree (.ofText source) (Text.size (g ++ Sheet.front fs))) =
        Text.size (g ++ Sheet.front fs) := by
  rw [Snapshot.startOf, Sheet.start_tree, Sheet.offset_snapshot h.text_plug]

theorem stopOf (h : source.IsSheet g (Sheet.plug fs u)) :
    ((Sheet.plug fs u).snapshot source g).stopOf
      (u.tree (.ofText source) (Text.size (g ++ Sheet.front fs))) =
        Text.size (g ++ Sheet.front fs ++ u.body) := by
  rw [Snapshot.stopOf, Sheet.stop_tree, ← Text.size_append,
    Sheet.offset_snapshot (by rw [List.append_assoc]; exact h.text_plug)]

/-- **Another collection** makes a sheet again. It has to end like the one that it replaces. -/
theorem plug_collection {v : Sheet} (h : source.IsSheet g (Sheet.plug fs u))
    (hword : u.isWord = false) (hv : v.Fits (Sheet.columnIn (Text.columnBehind 0 g) fs))
    (htail : Text.columnBehind 0 v.tail = Text.columnBehind 0 u.tail) :
    (g ++ (Sheet.plug fs v).text).IsSheet g (Sheet.plug fs v) := by
  obtain ⟨hfits, hend⟩ := h.fits.plug hv (.of_collection h.fits hword) htail
  exact ⟨rfl, h.margin, hfits, hend.trans h.ends⟩

/-- **Another node behind another head** of the same kind makes a sheet again. It has to end like
the one that it replaces. -/
theorem plug_head {head : Head} {v : Sheet} (h : source.IsSheet g (Sheet.plug (f :: fs) u))
    (hhead : head.Fits (Sheet.columnIn (Text.columnBehind 0 g) fs))
    (hkey : head.isKey = f.head.isKey)
    (hv : v.Fits (Text.columnBehind (Sheet.columnIn (Text.columnBehind 0 g) fs) head.text))
    (hfollows : Sheet.Follows head v)
    (htail : Text.columnBehind 0 v.tail = Text.columnBehind 0 u.tail) :
    (g ++ (Sheet.plug ({ f with head := head } :: fs) v).text).IsSheet g
      (Sheet.plug ({ f with head := head } :: fs) v) := by
  obtain ⟨hfits, hend⟩ := h.fits.plug_head hhead hkey hv hfollows htail
  exact ⟨rfl, h.margin, hfits, hend.trans h.ends⟩

/-- An entry, as the search finds it. -/
theorem exists_target (h : source.IsSheet g (Sheet.plug (f :: fs) u))
    (hpath : ((Sheet.plug (f :: fs) u).snapshot source g).addressOf path =
      some ([0, 0] ++ Sheet.addr (f :: fs))) (action : EntryAction) :
    ∃ target, ((Sheet.plug (f :: fs) u).snapshot source g).resolve path = .ok target ∧
      target.entry action =
        .ok ((f.fill u).tree (.ofText source) (Text.size (g ++ Sheet.front fs)), f.index) ∧
      target.node = u.tree (.ofText source) (Text.size (g ++ Sheet.front (f :: fs))) := by
  obtain ⟨target, hresolve, hnode, hentry⟩ := Snapshot.resolve_of_addressOf h.ofText hpath
  rw [Sheet.descendant?_snapshot] at hnode
  obtain ⟨parent, hparent, hp, hindex⟩ := hentry ([0, 0] ++ Sheet.addr fs) f.index
    (by rw [Sheet.addr, List.append_assoc]) (by simp)
  have hcollection := Sheet.descendant?_snapshot source g fs (f.fill u)
  obtain rfl := Option.some.inj (hparent.symm.trans hcollection)
  refine ⟨target, hresolve, ?_, (Option.some.inj hnode).symm⟩
  rw [Target.entry, hp, hindex]
  dsimp only
  rw [if_neg]
  rw [Sheet.kind_tree (Frame.isKey?_fill (Sheet.Fits.of_plug h.fits))]
  cases f.head.isKey <;> decide

/-- The value of a node is read from its text, behind as many spaces as its column has. -/
theorem valueAt_of_node {a : Address} {n : Node} {x body z : Text}
    (hsource : source = x ++ (body ++ z))
    (hnode : (t.snapshot source g).tree.root.descendant? a = some n)
    (hstart : n.start = (SourceMap.ofText source).position (Text.size x))
    (hstop : n.stop = (SourceMap.ofText source).position (Text.size (x ++ body))) :
    (t.snapshot source g).valueAt a = (Value.parse (Text.spaces
      ((SourceMap.ofText source).position (Text.size x)).column ++ body)).mapError .unreadable := by
  have hsource' : source = x ++ body ++ z := by rw [hsource, List.append_assoc]
  have htext : (t.snapshot source g).textOf n = .ok body := by
    unfold Snapshot.textOf Snapshot.startOf Snapshot.stopOf
    rw [hstart, hstop, Sheet.offset_snapshot hsource, Sheet.offset_snapshot hsource']
    exact lift_offset_eq_ok.mpr
      (Text.slice_eq_ok.mpr ⟨x, z, hsource', rfl, (Text.size_append _ _).symm⟩)
  rw [Snapshot.valueAt, Tree.node_of_descendant? hnode]
  show Snapshot.valueOf _ _ = _
  rw [Snapshot.valueOf, htext, hstart]
  rfl

theorem valueAt (h : source.IsSheet g (Sheet.plug fs u)) :
    ((Sheet.plug fs u).snapshot source g).valueAt ([0, 0] ++ Sheet.addr fs) =
      (Value.parse (Text.spaces ((SourceMap.ofText source).position
        (Text.size (g ++ Sheet.front fs))).column ++ u.body)).mapError .unreadable :=
  valueAt_of_node h.text_plug (Sheet.descendant?_snapshot source g fs u) (Sheet.start_tree _ _ _)
    ((Sheet.stop_tree _ _ _).trans (by rw [Text.size_append _ u.body]))

end Text.IsSheet

end YamlEdit
