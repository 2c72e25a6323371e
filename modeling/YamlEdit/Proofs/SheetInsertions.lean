import YamlEdit.Proofs.SheetUpdates

/-!
# Entries put into sheets

A new item or pair is written on lines of its own, in front of another entry or behind the last one.
Behind the last entry it goes between the line feed that ends that and the rest of the margin
(`Token.Margin.cut`). The new text is a sheet again, with one entry more.

Main statements: `seqAdd_to_sheet_inserts_item` and `mapAdd_to_sheet_appends_pair`.
-/

namespace YamlEdit

/-! ## The margin at the end of a line -/

namespace Text

/-- The first line feed is in one place. -/
theorem cut_unique {x x' y y' : Text} (hx : '\n' ∉ x) (hx' : '\n' ∉ x')
    (h : x ++ '\n' :: y = x' ++ '\n' :: y') : x = x' ∧ y = y' := by
  induction x generalizing x' with
  | nil =>
      cases x' with
      | nil => exact ⟨rfl, (List.cons.inj h).2⟩
      | cons c x' => exact absurd ((List.cons.inj h).1 ▸ List.mem_cons_self) hx'
  | cons c x ih =>
      rw [List.mem_cons, not_or] at hx
      cases x' with
      | nil => exact absurd (List.cons.inj h).1.symm hx.1
      | cons c' x' =>
          rw [List.mem_cons, not_or] at hx'
          obtain ⟨rfl, hrest⟩ := List.cons.inj h
          obtain ⟨rfl, rfl⟩ := ih hx.2 hx'.2 hrest
          exact ⟨rfl, rfl⟩

theorem exists_cut {b : Text} (h : '\n' ∈ b) : ∃ x y, b = x ++ '\n' :: y ∧ '\n' ∉ x := by
  induction b with
  | nil => cases h
  | cons c b ih =>
      by_cases hc : c = '\n'
      · exact ⟨[], b, by rw [hc]; rfl, List.not_mem_nil⟩
      · obtain ⟨x, y, rfl, hx⟩ := ih (List.mem_of_ne_of_mem (Ne.symm hc) h)
        exact ⟨c :: x, y, rfl, by simpa [Ne.symm hc] using hx⟩

theorem columnBehind_feed (x y : Text) :
    columnBehind 0 (x ++ '\n' :: y) = columnBehind 0 y := by
  rw [columnBehind_append]
  rfl

/-- Nothing is behind the last line feed. -/
theorem endsLine_of_columnBehind {t : Text} (h : columnBehind 0 t = 0) :
    LineIndex.EndsLine t := by
  obtain ⟨front, line, rfl, hfront, hline⟩ := LineIndex.exists_line t
  rw [columnBehind_line hfront (List.count_eq_zero.mp hline), List.length_eq_zero_iff] at h
  rwa [h, List.append_nil]

end Text

namespace Token

variable {x y z : Text}

/-- **A margin can be cut behind its first line feed.** -/
theorem Margin.cut (h : Margin (x ++ '\n' :: y)) (hx : '\n' ∉ x) :
    Margin y ∧ ∀ z, Margin z → Margin (x ++ '\n' :: z) := by
  generalize hg : x ++ '\n' :: y = g at h
  induction h generalizing x with
  | nil => exact absurd hg (by simp)
  | @space u _ ih =>
      cases x with
      | nil => cases hg
      | cons c x =>
          obtain ⟨rfl, rfl⟩ := List.cons.inj hg
          obtain ⟨hy, hz⟩ := ih (fun hmem => hx (List.mem_cons_of_mem _ hmem)) rfl
          exact ⟨hy, fun z h => .space (hz z h)⟩
  | @feed u hu _ =>
      cases x with
      | nil =>
          obtain ⟨-, rfl⟩ := List.cons.inj hg
          exact ⟨hu, fun z h => .feed h⟩
      | cons c x =>
          obtain ⟨rfl, -⟩ := List.cons.inj hg
          exact absurd List.mem_cons_self hx
  | @comment body u hbody hrest _ =>
      cases x with
      | nil => cases hg
      | cons c x =>
          obtain ⟨rfl, hline⟩ := List.cons.inj hg
          have hbody' : '\n' ∉ body := fun hmem => by
            have := hbody _ hmem
            cases this
          obtain ⟨rfl, rfl⟩ := Text.cut_unique (fun hmem => hx (List.mem_cons_of_mem _ hmem)) hbody'
            hline
          cases hrest with
          | feed hu => exact ⟨hu, fun z h => .comment hbody (.feed h)⟩

/-- The margin behind an entry is cut behind its line feed. -/
theorem IsBreak.cut (h : IsBreak (x ++ '\n' :: y)) (hx : '\n' ∉ x) (hz : Margin z) :
    IsBreak (x ++ '\n' :: z) := by
  refine ⟨(h.margin.cut hx).2 z hz, ?_, by simp⟩
  cases x with
  | nil => rfl
  | cons c x => exact h.first

end Token

/-- What is put in front of nothing is put behind everything. -/
theorem Outline.insertChild_length (x : Outline) : ∀ o : Outline,
    insertChild o.children.length x o = o.appendChildren [x]
  | .scalar _ | .reference _ => rfl
  | .group _ l => by simp [Outline.insertChild, Outline.appendChildren, Outline.children]

/-! ## A new entry -/

namespace Sheet

variable {column : Nat} {t : Sheet}

/-- The last entry of a collection. -/
theorem Fits.exists_last (h : t.Fits column) (hword : t.isWord = false) : ∃ before head u,
    t = Frame.fill ⟨before, head, none⟩ u := by
  induction h with
  | word => cases hword
  | @last _ head u _ _ _ => exact ⟨[], head, u, rfl⟩
  | @more _ head u rest _ _ _ _ hkind _ _ ih =>
      have hrest : rest.isWord = false := by
        cases rest with
        | word => cases hkind
        | last | more => rfl
      obtain ⟨before, head', u', rfl⟩ := ih hrest
      exact ⟨(head, u) :: before, head', u', rfl⟩

theorem isWord_of_isKey? {k : Bool} (h : t.isKey? = some k) : t.isWord = false := by
  cases t with
  | word => cases h
  | last | more => rfl

/-- The heads of the entries of a sequence. -/
theorem exists_dash {f : Frame} {u : Sheet} (h : (f.fill u).Fits column)
    (hk : (f.fill u).isKey? = some false) : ∃ gap, f.head = .dash gap := by
  have hkey := (Frame.isKey?_fill h).symm.trans hk
  cases hhead : f.head with
  | dash gap => exact ⟨gap, rfl⟩
  | key => rw [hhead] at hkey; cases hkey

/-- A collection with its children. -/
theorem outline_eq_group {k : Bool} (h : t.isKey? = some k) :
    t.outline = .group (if k then .mapping .block else .sequence .block) t.outline.children := by
  cases t with
  | word => cases h
  | last head _ | more head _ _ =>
      obtain rfl : head.isKey = k := Option.some.inj h
      rfl

theorem outline_behind {k : Bool} {es : List Entry} (ht : t.isKey? = some k)
    (hes : ∀ e ∈ es, e.1.isKey = k) : (behind es t).outline =
      .group (if k then .mapping .block else .sequence .block)
        (Entry.outlinesOf es ++ t.outline.children) := by
  rw [outline_eq_group (isKey?_behind ht hes), children_behind]

/-- The nodes of a collection end with that of its last entry. -/
theorem getLast?_fill (m : SourceMap) (before : List Entry) (head : Head) (u : Sheet)
    (place : Nat) : ((Frame.fill ⟨before, head, none⟩ u).tree m place).children.getLast? =
      some (u.tree m (place + Text.size (Entry.textOf before ++ head.text))) := by
  rw [Frame.fill, nodes_behind, Text.size_append, ← Nat.add_assoc]
  show (_ ++ (head.nodes m _ ++ [_])).getLast? = _
  rw [← List.append_assoc, List.getLast?_concat]

/-- The nodes of a mapping start with its first key. -/
theorem head?_mapping (m : SourceMap) (h : t.isKey? = some true) (place : Nat) :
    ∃ n, (t.tree m place).children.head? = some n ∧ n.start = m.position place := by
  cases t with
  | word => cases h
  | last head _ | more head _ _ =>
      cases head with
      | dash => cases h
      | key => exact ⟨_, rfl, rfl⟩

end Sheet

/-- A head behind which a sheet at the left margin can be put, at a column. -/
structure Head.Takes (column : Nat) (head : Head) (s : Sheet) : Prop where
  fits : head.Fits column
  follows : Sheet.Follows head s
  node : s.Fits 0

/-- The node that is put there. -/
def Head.placed (column : Nat) (head : Head) (s : Sheet) (tail : Text) : Sheet :=
  (s.shift (Text.columnBehind column head.text)).setTail tail

/-- The lines of a new entry. -/
def Head.lines (column : Nat) (head : Head) (s : Sheet) : Text :=
  Text.spaces column ++ (head.text ++ (s.shift (Text.columnBehind column head.text)).body ++ ['\n'])

namespace Head.Takes

variable {column : Nat} {head : Head} {s : Sheet} {tail : Text}

theorem fits_placed (h : head.Takes column s) (htail : Token.IsBreak tail) :
    (head.placed column s tail).Fits (Text.columnBehind column head.text) := by
  have := h.node.shift (Text.columnBehind column head.text)
  rw [Nat.zero_add] at this
  exact this.setTail htail

theorem follows_placed (h : head.Takes column s) :
    Sheet.Follows head (head.placed column s tail) := by
  intro hkey hfeed
  rw [Head.placed, Sheet.isWord_setTail, Sheet.isWord_shift]
  exact h.follows hkey hfeed

end Head.Takes

namespace Sheet

variable {column : Nat} {before : List Entry} {head head' : Head} {u s rest : Sheet} {x y : Text}

/-- A collection with an entry behind its last one, behind which the margin is `x`, a line feed and
`y`. -/
def appended (column : Nat) (before : List Entry) (head : Head) (u : Sheet) (x y : Text)
    (head' : Head) (s : Sheet) : Sheet :=
  Frame.fill ⟨before ++ [(head, u.setTail (x ++ '\n' :: Text.spaces column))], head', none⟩
    (head'.placed column s ('\n' :: y))

theorem Fits.appended (h : (Frame.fill ⟨before, head, none⟩ u).Fits column)
    (hnew : head'.Takes column s) (hkey : head'.isKey = head.isKey)
    (htail : u.tail = x ++ '\n' :: y) (hx : '\n' ∉ x) :
    (Sheet.appended column before head u x y head' s).Fits column := by
  obtain ⟨hhead, hfollows, hu⟩ := Frame.fits_of_fill h
  have hbreak := htail ▸ hu.isBreak_tail
  have hbefore := (h.of_behind (Frame.isKey?_entry ⟨before, head, none⟩ u)).2
  refine .behind (k := head.isKey) (.last hnew.fits hnew.follows_placed (hnew.fits_placed ?_)) ?_ ?_
  · exact ⟨.feed (hbreak.margin.cut hx).1, rfl, List.mem_cons_self⟩
  · exact congrArg some hkey
  · intro e he
    rcases List.mem_append.mp he with he | he
    · exact hbefore e he
    · obtain rfl := List.mem_singleton.mp he
      refine ⟨hhead, fun hk hf => (isWord_setTail _).trans (hfollows hk hf),
        hu.setTail (hbreak.cut hx (.of_spaces column)), ?_, rfl⟩
      rw [tail_setTail, Text.columnBehind_feed, Text.columnBehind_spaces, Nat.zero_add]

theorem text_appended (column : Nat) (before : List Entry) (head : Head) (u : Sheet) (x y : Text)
    (head' : Head) (s : Sheet) : (appended column before head u x y head' s).text =
      Entry.textOf before ++ head.text ++ u.body ++ (x ++ ['\n']) ++
        (head'.lines column s ++ y) := by
  rw [appended, Frame.text_fill, Frame.front, Head.placed, text_setTail, Head.lines]
  simp [Frame.back, Entry.textOf, Entry.text, text_setTail]

theorem outline_appended (h : (Frame.fill ⟨before, head, none⟩ u).Fits column)
    (hkey : head'.isKey = head.isKey) (x y : Text) (s : Sheet) :
    (appended column before head u x y head' s).outline =
      (Frame.fill ⟨before, head, none⟩ u).outline.appendChildren
        (head'.outlines ++ [s.outline]) := by
  have hbefore : ∀ e ∈ before, e.1.isKey = head.isKey := fun e he =>
    ((h.of_behind (Frame.isKey?_entry ⟨before, head, none⟩ u)).2 e he).kind
  have hold : (Frame.fill ⟨before, head, none⟩ u).outline = _ :=
    outline_behind (t := .last head u) rfl hbefore
  have hnew : (appended column before head u x y head' s).outline = _ :=
    outline_behind (t := .last head' (head'.placed column s ('\n' :: y))) (congrArg some hkey)
      (by simpa [or_imp, forall_and] using hbefore)
  rw [hold, hnew]
  simp [Outline.appendChildren, Entry.outlinesOf, Entry.outlines, outline, Outline.children,
    Head.placed, outline_shift]

/-- It ends like the one without the new entry. -/
theorem columnBehind_tail_appended (htail : u.tail = x ++ '\n' :: y) (s : Sheet) :
    Text.columnBehind 0 (appended column before head u x y head' s).tail =
      Text.columnBehind 0 (Frame.fill ⟨before, head, none⟩ u).tail := by
  rw [appended, Frame.fill, Frame.fill, tail_behind, tail_behind]
  show Text.columnBehind 0 ((s.shift _).setTail ('\n' :: y)).tail = Text.columnBehind 0 u.tail
  rw [tail_setTail, htail, Text.columnBehind_feed]
  rfl

/-- A collection with an entry in front of another one. -/
def inserted (column : Nat) (before : List Entry) (head' : Head) (s rest : Sheet) : Sheet :=
  Frame.fill ⟨before, head', some rest⟩ (head'.placed column s ('\n' :: Text.spaces column))

variable {k : Bool}

theorem Fits.inserted (h : (Sheet.behind before rest).Fits column) (hrest : rest.isKey? = some k)
    (hnew : head'.Takes column s) (hkey : head'.isKey = k) :
    (Sheet.inserted column before head' s rest).Fits column := by
  obtain ⟨hfits, hbefore⟩ := h.of_behind hrest
  refine .behind (k := k) (.more hnew.fits hnew.follows_placed (hnew.fits_placed ?_) ?_ ?_ hfits)
    (congrArg some hkey) hbefore
  · exact ⟨.feed (.of_spaces column), rfl, List.mem_cons_self⟩
  · rw [Head.placed, tail_setTail]
    exact (Text.columnBehind_spaces 0 column).trans (Nat.zero_add column)
  · exact hrest.trans (congrArg some hkey.symm)

theorem text_inserted (column : Nat) (before : List Entry) (head' : Head) (s rest : Sheet) :
    (inserted column before head' s rest).text = Entry.textOf before ++ (head'.text ++
      (s.shift (Text.columnBehind column head'.text)).body ++ ['\n'] ++ Text.spaces column ++
        rest.text) := by
  rw [inserted, Frame.text_fill, Frame.front, Head.placed, text_setTail]
  simp [Frame.back]

/-- It ends like the one without the new entry. -/
theorem columnBehind_tail_inserted (column : Nat) (before : List Entry) (head' : Head)
    (s rest : Sheet) : Text.columnBehind 0 (inserted column before head' s rest).tail =
      Text.columnBehind 0 (behind before rest).tail := by
  rw [inserted, Frame.fill, tail_behind, tail_behind]
  rfl

theorem outline_inserted (h : (behind before rest).Fits column) (hrest : rest.isKey? = some k)
    (hkey : head'.isKey = k) (s : Sheet) : (inserted column before head' s rest).outline =
      .group (if k then .mapping .block else .sequence .block) (Entry.outlinesOf before ++
        (head'.outlines ++ s.outline :: rest.outline.children)) := by
  have hbefore := fun e he => ((h.of_behind hrest).2 e he).kind
  have hnew : (inserted column before head' s rest).outline = _ :=
    outline_behind (t := .more head' (head'.placed column s ('\n' :: Text.spaces column)) rest)
      (congrArg some hkey) hbefore
  rw [hnew]
  simp [outline, Outline.children, Head.placed, outline_shift]

end Sheet

/-! ## The text of a new entry -/

namespace Plan

variable {source g : Text} {fs : List Frame} {before : List Entry} {head head' : Head}
  {u s rest : Sheet} {x y : Text} {column : Nat}

/-- Lines are added behind the line of the last entry. -/
theorem addLines_sheet
    (h : source.IsSheet g (Sheet.plug fs (Frame.fill ⟨before, head, none⟩ u)))
    (htail : u.tail = x ++ '\n' :: y) (hx : '\n' ∉ x) {last : Node}
    (hlast : last.stop = (SourceMap.ofText source).position (Text.size (g ++ Sheet.front fs ++
      (Entry.textOf before ++ head.text ++ u.body)))) (content : Text) :
    (Block.addLines ((Sheet.plug fs (Frame.fill ⟨before, head, none⟩ u)).snapshot source g) last
        content).apply source =
      .ok (g ++ Sheet.front fs ++ (Entry.textOf before ++ head.text ++ u.body ++ (x ++ ['\n'])) ++
        (content ++ (y ++ Sheet.back fs))) := by
  have hends : LineIndex.EndsLine source := by
    refine Text.endsLine_of_columnBehind ?_
    rw [h.text, Text.columnBehind_append, h.fits.columnBehind_text]
    exact h.ends
  have hsource : source = g ++ Sheet.front fs ++ (Entry.textOf before ++ head.text ++ u.body) ++
      (x ++ '\n' :: (y ++ Sheet.back fs)) := by
    rw [h.text, Sheet.text_plug, Frame.text_fill, Sheet.text_eq u, htail]
    simp [Frame.front, Frame.back]
  have hplace : ((Sheet.plug fs (Frame.fill ⟨before, head, none⟩ u)).snapshot source
      g).lines.nextLineStart last.stop = Text.size (g ++ Sheet.front fs ++
        (Entry.textOf before ++ head.text ++ u.body) ++ (x ++ ['\n'])) := by
    have := LineIndex.nextLineStart_position (x := x) (y := y ++ Sheet.back fs)
      (z := g ++ Sheet.front fs ++ (Entry.textOf before ++ head.text ++ u.body)) hx
    rw [← hsource] at this
    rw [hlast]
    exact this
  have hsplice : Block.addLines ((Sheet.plug fs (Frame.fill ⟨before, head, none⟩ u)).snapshot source
      g) last content = Splice.insert (Text.size (g ++ Sheet.front fs ++
        (Entry.textOf before ++ head.text ++ u.body) ++ (x ++ ['\n']))) content := by
    unfold Block.addLines Snapshot.insertAfterLine
    dsimp only
    rw [hplace, if_neg]
    rintro ⟨-, hnonempty, hlast⟩
    rcases hends with hnil | ⟨front, hfront⟩
    · have : source = [] := hnil
      simp [Snapshot.source, Sheet.snapshot, SourceMap.ofText, this] at hnonempty
    · refine hlast ?_
      show source.getLast? = _
      rw [hfront, List.getLast?_concat]
  rw [hsplice]
  have := Splice.apply_insert (x := g ++ Sheet.front fs ++
    (Entry.textOf before ++ head.text ++ u.body) ++ (x ++ ['\n'])) (y := content)
    (z := y ++ Sheet.back fs)
  have htext : g ++ Sheet.front fs ++ (Entry.textOf before ++ head.text ++ u.body) ++
      (x ++ ['\n']) ++ (y ++ Sheet.back fs) = source := by
    rw [hsource]
    simp
  rw [htext] at this
  rw [this]
  simp

theorem addItem_of_next {snap : Snapshot} {sequence next : Node} {new : Fragment} {i : Nat}
    (h : sequence.children[i]? = some next) : Block.addItem snap sequence new (some i) =
      Block.addItemBefore snap sequence.start.column next new := by
  unfold Block.addItem
  dsimp only [Option.bind_some]
  rw [h]

theorem addItem_of_last {snap : Snapshot} {sequence last : Node} {new : Fragment}
    {index : Option Nat} (hnext : index.bind (sequence.children[·]?) = none)
    (hlast : sequence.children.getLast? = some last) : Block.addItem snap sequence new index =
      .ok (Block.addLines snap last (Block.itemLines sequence.start.column new)) := by
  unfold Block.addItem
  dsimp only
  rw [hnext, hlast]

/-- The head of a new item. -/
theorem takes_dash (hs : s.Fits 0) (column : Nat) : (Head.dash [' ']).Takes column s where
  fits := ⟨.space .nil, rfl, by show column < column + 2; omega, by simp [Head.gap], trivial⟩
  follows := nofun
  node := hs

theorem itemLines_sheet {new : Fragment} {v : Value} (hnew : new.IsSheet s)
    (hv : Fragment.ofValue v = .ok new) (column : Nat) :
    Block.itemLines column new = (Head.dash [' ']).lines column s := by
  rw [Block.itemLines, (hnew.at_column hv _).2.1, Head.lines]
  simp [Head.text, Head.mark, Head.gap, Text.columnBehind, Indentation.nested, Indentation.step]

/-- Where only spaces and dashes are in front, either there is no dash, or it stays in front of the
new item. -/
theorem apply_inFront {back content : Text} {snap : Snapshot} {p q : Text}
    (hmap : snap.map = SourceMap.ofText (p ++ q ++ back)) (hp : LineIndex.EndsLine p)
    (hq : ∀ c ∈ q, c = ' ' ∨ c = '-') (hcolumn : q.length = column)
    (hcontent : (content ++ ['\n']).trimStart = content ++ ['\n']) :
    ∃ before splice, snap.linePrefix (Text.size (p ++ q)) = .ok before ∧
      splice = (if before.allBlank then
          Splice.insert (Text.size (p ++ q) - Text.size before)
            (Text.spaces column ++ (content ++ ['\n']))
        else Splice.insert (Text.size (p ++ q))
          ((Text.spaces column ++ (content ++ ['\n'])).trimStart ++ Text.spaces column)) ∧
      splice.apply (p ++ q ++ back) =
        .ok (p ++ q ++ (content ++ ['\n'] ++ Text.spaces column ++ back)) := by
  have hfeed : q.count '\n' = 0 := by
    refine List.count_eq_zero.mpr fun hmem => ?_
    rcases hq _ hmem with h | h <;> cases h
  refine ⟨q, _, Snapshot.linePrefix_eq hmap hp hfeed, rfl, ?_⟩
  by_cases hblank : Text.allBlank q = true
  · -- the new line goes in front of the line, which starts with as many spaces
    obtain rfl : q = Text.spaces column := by
      refine List.eq_replicate_iff.mpr ⟨hcolumn, fun c hc => (hq c hc).resolve_right ?_⟩
      rintro rfl
      have := List.all_eq_true.mp hblank _ hc
      cases this
    rw [if_pos hblank, Text.size_append, Nat.add_sub_cancel, List.append_assoc,
      Splice.apply_insert]
    simp
  · rw [if_neg hblank, Text.trimStart_spaces, hcontent, Splice.apply_insert]

/-- The text of an entry is in front of what stands behind it. -/
theorem text_entry {f : Frame} (h : source.IsSheet g (Sheet.plug (f :: fs) u)) :
    source = g ++ Sheet.front fs ++ Entry.textOf f.before ++
      ((f.entry u).text ++ Sheet.back fs) := by
  rw [h.text, Sheet.plug, Sheet.text_plug, Frame.fill, Sheet.text_behind]
  simp

theorem text_entry_eq (f : Frame) (u : Sheet) :
    (f.entry u).text = f.head.text ++ (u.text ++ f.back) := by
  obtain ⟨before, head, rest⟩ := f
  cases rest <;> simp [Frame.entry, Sheet.text, Frame.back]

/-- The `-` of an item is found from where the item starts. -/
theorem itemMarker_sheet {gap : Text} {f : Frame} (h : source.IsSheet g (Sheet.plug (f :: fs) u))
    (hhead : f.head = .dash gap) :
    Extent.itemMarker source (Text.size (g ++ Sheet.front (f :: fs))) =
      .ok (some (Text.size (g ++ Sheet.front fs ++ Entry.textOf f.before))) := by
  have hfits := (Frame.fits_of_fill (Sheet.Fits.of_plug h.fits)).1
  have hgap : ∀ c ∈ gap, Text.isBlank c = true := by
    rw [hhead] at hfits
    exact hfits.margin.isBlank_of_not_mem (hfits.item rfl)
  have hmarker := Extent.itemMarker_dash (x := g ++ Sheet.front fs ++ Entry.textOf f.before)
    (y := u.text ++ f.back ++ Sheet.back fs) hgap
  have hsource := text_entry h
  rw [text_entry_eq, hhead] at hsource
  have hsplit : g ++ Sheet.front fs ++ Entry.textOf f.before ++
      '-' :: (gap ++ (u.text ++ f.back ++ Sheet.back fs)) = source := by
    rw [hsource]
    simp [Head.text, Head.mark, Head.gap]
  have hfront : g ++ Sheet.front (f :: fs) =
      g ++ Sheet.front fs ++ Entry.textOf f.before ++ '-' :: gap := by
    simp [Sheet.front, Frame.front, hhead, Head.text, Head.mark, Head.gap]
  rw [hfront, ← hmarker, hsplit]

/-- The column of the entries of a collection. -/
theorem columnBehind_entry {f : Frame} (h : source.IsSheet g (Sheet.plug (f :: fs) u)) :
    Text.columnBehind 0 (g ++ Sheet.front fs ++ Entry.textOf f.before) =
      Sheet.columnIn (Text.columnBehind 0 g) fs := by
  rw [Text.columnBehind_append, Sheet.Fits.columnBehind_front (u := f.fill u) h.fits,
    Sheet.columnBehind_textOf h.fits.before_of_plug]

/-- **An item is added in front of another one.** -/
theorem addItemBefore_sheet {gap : Text} {f : Frame} {new : Fragment} {v : Value}
    (h : source.IsSheet g (Sheet.plug (f :: fs) u)) (hhead : f.head = .dash gap)
    (hcolumn : Sheet.columnIn (Text.columnBehind 0 g) fs = column) (hnew : new.IsSheet s)
    (hv : Fragment.ofValue v = .ok new) :
    ∃ splice, Block.addItemBefore ((Sheet.plug (f :: fs) u).snapshot source g) column
        (u.tree (.ofText source) (Text.size (g ++ Sheet.front (f :: fs)))) new = .ok splice ∧
      splice.apply source = .ok (g ++ Sheet.front fs ++ Entry.textOf f.before ++
        ((Head.dash [' ']).text ++
          (s.shift (Text.columnBehind column (Head.dash [' ']).text)).body ++ ['\n'] ++
            Text.spaces column ++ ((f.entry u).text ++ Sheet.back fs))) := by
  have hsource := text_entry h
  have hmarker := itemMarker_sheet h hhead
  have hlength := (columnBehind_entry h).trans hcolumn
  obtain ⟨p, q, hsplit, hp, hq⟩ := h.fits.upright_entry h.isUpright
  have hfeed : '\n' ∉ q := by
    intro hmem
    rcases hq _ hmem with h | h <;> cases h
  rw [hsplit] at hmarker hlength hsource ⊢
  rw [Text.columnBehind_line hp hfeed] at hlength
  have hmap : ((Sheet.plug (f :: fs) u).snapshot source g).map = SourceMap.ofText
      (p ++ q ++ ((f.entry u).text ++ Sheet.back fs)) := congrArg SourceMap.ofText hsource
  have hcontent : ((Head.dash [' ']).text ++
      (s.shift (Text.columnBehind column (Head.dash [' ']).text)).body ++ ['\n']).trimStart =
        _ := rfl
  obtain ⟨before, splice, hbefore, rfl, happly⟩ := apply_inFront hmap hp hq hlength hcontent
  rw [← hsource] at happly
  refine ⟨_, ?_, happly⟩
  unfold Block.addItemBefore
  rw [h.startOf, show ((Sheet.plug (f :: fs) u).snapshot source g).source = source from rfl]
  dsimp only
  rw [lift_offset_eq_ok.mpr hmarker, ok_bind]
  dsimp only [Option.getD_some]
  rw [hbefore, ok_bind, itemLines_sheet hnew hv column, Head.lines]
  cases Text.allBlank before <;> rfl

end Plan

/-! ## New items -/

namespace Text.IsSheet

variable {source text g path : Text} {fs : List Frame} {before : List Entry} {rest : Option Sheet}
  {head head' : Head} {u s : Sheet} {column : Nat} {tail : Text} {new : Fragment} {v : Value}

/-- What is put behind a head decodes to its value. -/
theorem decodes_placed
    (h : text.IsSheet g (Sheet.plug fs
      (Frame.fill ⟨before, head, rest⟩ (head.placed column s tail))))
    (hcolumn : Sheet.columnIn (Text.columnBehind 0 g) fs = column) (hnew : new.IsSheet s)
    (hv : Fragment.ofValue v = .ok new) (hread : new.ReadsAs v) :
    ((Sheet.plug fs (Frame.fill ⟨before, head, rest⟩ (head.placed column s tail))).snapshot text
      g).Decodes ([0, 0] ++ Sheet.addr fs ++
        [(Entry.outlinesOf before).length + head.outlines.length]) v := by
  rw [List.append_assoc]
  have h : text.IsSheet g (Sheet.plug (⟨before, head, rest⟩ :: fs) (head.placed column s tail)) := h
  refine h.decodes hnew hv hread ?_ ?_
  · rw [Head.placed, Sheet.body_setTail, Sheet.columnIn, hcolumn]
  · rw [Head.placed, Sheet.isWord_setTail, Sheet.isWord_shift]

/-- **Lines that are planned behind the last entry** are a new entry. -/
theorem exists_edit_appended
    (h : source.IsSheet g (Sheet.plug fs (Frame.fill ⟨before, head, none⟩ u)))
    (hcolumn : Sheet.columnIn (Text.columnBehind 0 g) fs = column) (htakes : head'.Takes column s)
    (hkey : head'.isKey = head.isKey) {e : Editor} (hload : Editor.load source = .ok e)
    {o : Operation} {last : Node}
    (hlast : ((Frame.fill ⟨before, head, none⟩ u).tree (.ofText source)
      (Text.size (g ++ Sheet.front fs))).children.getLast? = some last)
    (hplan :
      Plan.operation ((Sheet.plug fs (Frame.fill ⟨before, head, none⟩ u)).snapshot source g) o =
      .ok (Plan.Block.addLines
        ((Sheet.plug fs (Frame.fill ⟨before, head, none⟩ u)).snapshot source g)
        last (head'.lines column s))) :
    ∃ e' text x y, Editor.edit source o = some (e, e', text) ∧
      text.IsSheet g (Sheet.plug fs (Sheet.appended column before head u x y head' s)) ∧
      e'.snapshot = (Sheet.plug fs (Sheet.appended column before head u x y head' s)).snapshot
        text g := by
  have hfill := h.fits.of_plug
  rw [hcolumn] at hfill
  have hu := (Frame.fits_of_fill hfill).2.2
  obtain ⟨x, y, htail, hx⟩ := Text.exists_cut hu.isBreak_tail.feed
  have hsheet := h.plug_collection (Frame.isWord_fill _ _)
    (hcolumn ▸ hfill.appended htakes hkey htail hx)
    (Sheet.columnBehind_tail_appended htail s)
  have hstop : last.stop = (SourceMap.ofText source).position (Text.size (g ++ Sheet.front fs ++
      (Entry.textOf before ++ head.text ++ u.body))) := by
    rw [Sheet.getLast?_fill] at hlast
    rw [← Option.some.inj hlast, Sheet.stop_tree, ← Text.size_append, ← Text.size_append]
    simp
  have happly := Plan.addLines_sheet h htail hx hstop (head'.lines column s)
  have htext : g ++ (Sheet.plug fs (Sheet.appended
      (Sheet.columnIn (Text.columnBehind 0 g) fs) before head u x y head' s)).text =
        g ++ Sheet.front fs ++ (Entry.textOf before ++ head.text ++ u.body ++
        (x ++ ['\n'])) ++ (head'.lines column s ++ (y ++ Sheet.back fs)) := by
    rw [Sheet.text_plug, Sheet.text_appended, hcolumn]
    simp
  obtain ⟨e', hedit, he'⟩ := h.exists_edit hsheet hload hplan
    (happly.trans (congrArg Except.ok htext.symm))
  rw [hcolumn] at hedit hsheet he'
  exact ⟨e', _, x, y, hedit, hsheet, he'⟩

/-- A collection, as the search finds it. -/
theorem exists_collection {q : Sheet} (h : source.IsSheet g (Sheet.plug fs q))
    (hpath : ((Sheet.plug fs q).snapshot source g).addressOf path = some ([0, 0] ++ Sheet.addr fs))
    {k : Bool} (hk : q.isKey? = some k) :
    ∃ target, ((Sheet.plug fs q).snapshot source g).resolve path = .ok target ∧
      target.node = q.tree (.ofText source) (Text.size (g ++ Sheet.front fs)) ∧
      target.node.kind = (if k then .mapping .block else .sequence .block) ∧
      target.node.start.column = Sheet.columnIn (Text.columnBehind 0 g) fs := by
  obtain ⟨target, hresolve, hnode, -⟩ := Snapshot.resolve_of_addressOf h.ofText hpath
  rw [Sheet.descendant?_snapshot] at hnode
  have hword := Sheet.isWord_of_isKey? hk
  have hcolumn := SourceMap.column_of_upright (h.fits.upright_front h.isUpright hword)
    (q.body ++ (q.tail ++ Sheet.back fs))
  rw [← h.text_plug, Sheet.Fits.columnBehind_front h.fits] at hcolumn
  refine ⟨target, hresolve, (Option.some.inj hnode).symm, ?_, ?_⟩
  · rw [← Option.some.inj hnode, Sheet.kind_tree hk]
  · rw [← Option.some.inj hnode, Sheet.start_tree, hcolumn]

/-- **An item is put in front of another one.** -/
theorem inserts_item_in_front {f : Frame} {gap : Text} {e : Editor} {index : Option Nat}
    (h : source.IsSheet g (Sheet.plug (f :: fs) u)) (hload : Editor.load source = .ok e)
    (hhead : f.head = .dash gap) (hnew : new.IsSheet s) (hv : Fragment.ofValue v = .ok new)
    (hread : new.ReadsAs v) (hplan : Plan.operation ((Sheet.plug (f :: fs) u).snapshot source g)
      (.seqAdd path v index) = Plan.Block.addItemBefore ((Sheet.plug (f :: fs) u).snapshot source g)
        (Sheet.columnIn (Text.columnBehind 0 g) fs)
        (u.tree (.ofText source) (Text.size (g ++ Sheet.front (f :: fs)))) new) :
    ∃ e' text, Editor.edit source (.seqAdd path v index) = some (e, e', text) ∧
      ItemInserted e e' ([0, 0] ++ Sheet.addr fs) f.index v := by
  generalize hcolumn : Sheet.columnIn (Text.columnBehind 0 g) fs = column at hplan
  obtain ⟨splice, hsplice, happly⟩ := Plan.addItemBefore_sheet h hhead hcolumn hnew hv
  have hfill := h.fits.fill.of_plug
  have hkind : (f.entry u).isKey? = some false := by rw [f.isKey?_entry, hhead]; rfl
  have htakes := Plan.takes_dash hnew.fits column
  have hsheet := h.fill.plug_collection (f.isWord_fill u)
    (hcolumn ▸ (hcolumn ▸ hfill).inserted hkind htakes rfl) (Sheet.columnBehind_tail_inserted ..)
  have htext : g ++ (Sheet.plug fs
      (Sheet.inserted column f.before (.dash [' ']) s (f.entry u))).text =
      g ++ Sheet.front fs ++ Entry.textOf f.before ++ ((Head.dash [' ']).text ++
        (s.shift (Text.columnBehind column (Head.dash [' ']).text)).body ++ ['\n'] ++
          Text.spaces column ++ ((f.entry u).text ++ Sheet.back fs)) := by
    rw [Sheet.text_plug, Sheet.text_inserted]
    simp
  rw [hcolumn] at hsheet
  obtain ⟨e', hedit, he'⟩ := h.exists_edit hsheet hload (hplan.trans hsplice)
    (happly.trans (congrArg Except.ok htext.symm))
  have hindex : f.index = (Entry.outlinesOf f.before).length := by
    rw [Frame.index, hhead]
    rfl
  have hold : (f.fill u).outline = _ := Sheet.outline_behind hkind fun e he =>
    ((hfill.of_behind (f.isKey?_entry u)).2 e he).kind.trans (by rw [hhead]; rfl)
  have houtline := Sheet.outline_inserted (hcolumn ▸ hfill) hkind
    (show (Head.dash [' ']).isKey = false from rfl) s
  refine ⟨e', _, hedit, ⟨s.outline, ?_⟩, ?_⟩
  · rw [he', h.snapshot_of_load hload]
    refine Sheet.outline_snapshot_modify (houtline.trans ?_) _ _ _ _ fs
    rw [hold, hindex, Outline.insertChild, List.take_left, List.drop_left]
    rfl
  · rw [he', hindex]
    exact hsheet.decodes_placed hcolumn hnew hv hread

/-- **An item is put behind the last one.** -/
theorem inserts_item_behind {e : Editor} {gap : Text} {index : Option Nat}
    (h : source.IsSheet g (Sheet.plug fs (Frame.fill ⟨before, .dash gap, none⟩ u)))
    (hload : Editor.load source = .ok e)
    (hnew : new.IsSheet s) (hv : Fragment.ofValue v = .ok new)
    (hread : new.ReadsAs v) {last : Node}
    (hlast : ((Frame.fill ⟨before, .dash gap, none⟩ u).tree (.ofText source)
      (Text.size (g ++ Sheet.front fs))).children.getLast? = some last)
    (hplan : Plan.operation
      ((Sheet.plug fs (Frame.fill ⟨before, .dash gap, none⟩ u)).snapshot source g)
        (.seqAdd path v index) =
      .ok (Plan.Block.addLines
        ((Sheet.plug fs (Frame.fill ⟨before, .dash gap, none⟩ u)).snapshot source g) last
        (Plan.Block.itemLines (Sheet.columnIn (Text.columnBehind 0 g) fs) new))) :
    ∃ e' text, Editor.edit source (.seqAdd path v index) = some (e, e', text) ∧
      ItemInserted e e' ([0, 0] ++ Sheet.addr fs)
        (Frame.fill ⟨before, .dash gap, none⟩ u).outline.children.length v := by
  generalize hcolumn : Sheet.columnIn (Text.columnBehind 0 g) fs = column at hplan
  rw [Plan.itemLines_sheet hnew hv column] at hplan
  obtain ⟨e', text, x, y, hedit, hsheet, he'⟩ :=
    h.exists_edit_appended hcolumn (Plan.takes_dash hnew.fits column) rfl hload hlast hplan
  have hfill := hcolumn ▸ h.fits.of_plug
  have houtline := Sheet.outline_appended hfill
    (show (Head.dash [' ']).isKey = _ from rfl) x y s
  have hchildren : (Frame.fill ⟨before, .dash gap, none⟩ u).outline.children =
      Entry.outlinesOf before ++ [u.outline] := Sheet.children_behind _ _
  refine ⟨e', text, hedit, ⟨s.outline, ?_⟩, ?_⟩
  · rw [he', h.snapshot_of_load hload]
    have := houtline.trans (Outline.insertChild_length s.outline _).symm
    exact Sheet.outline_snapshot_modify (F := Outline.insertChild _ s.outline) this _ _ _ _ fs
  · have hdecodes := hsheet.decodes_placed hcolumn hnew hv hread
    rw [he', hchildren]
    rw [show (Entry.outlinesOf before ++ [u.outline]).length = _ from ?_]
    · exact hdecodes
    · simp [Entry.outlinesOf, Entry.outlines, Head.outlines]

end Text.IsSheet

/-- **An item that is added to a sequence of a sheet is there**, if its text is a sheet: the
addition renders, there is one item more at the place, and nothing else changes. -/
theorem seqAdd_to_sheet_inserts_item {source g path : Text} {t s : Sheet} {e : Editor} {a : Address}
    {style : Style} {l : List Outline} {v : Value} {index : Option Nat} {new : Fragment}
    (h : source.IsSheet g t) (hload : Editor.load source = .ok e)
    (hpath : e.snapshot.addressOf path = some a)
    (hitems : e.snapshot.outline.at? a = some (.group (.sequence style) l))
    (hv : Fragment.ofValue v = .ok new) (hnew : new.IsSheet s) (hlegible : new.text.IsLegible)
    (hround : v.RoundTrips) :
    ∃ e' text, Editor.edit source (.seqAdd path v index) = some (e, e', text) ∧
      ItemInserted e e' a (Outline.insertionPlace index l.length) v := by
  have he := h.snapshot_of_load hload
  have hread := hnew.readsAs hv hlegible hround
  rw [he] at hpath hitems
  obtain ⟨fs, q, rfl, rfl⟩ := Sheet.exists_plug_of_addressOf h hpath
  have houtline : q.outline = .group (.sequence style) l := by
    have := Sheet.at?_plug fs q
    rw [Sheet.outline_snapshot] at hitems
    exact Option.some.inj (this.symm.trans hitems)
  have hkey := q.isKey?_of_outline false houtline
  obtain ⟨target, hresolve, hnode, hkind, hcolumn⟩ := h.exists_collection hpath hkey
  have hplan : Plan.operation ((Sheet.plug fs q).snapshot source g) (.seqAdd path v index) =
      Plan.Block.addItem ((Sheet.plug fs q).snapshot source g) target.node new index := by
    show Plan.seqAdd _ path v index = _
    rw [Plan.seqAdd_eq hresolve (by rw [Node.isSequence, hkind]; rfl) hv index,
      if_neg (by rw [Node.isFlow, hkind]; decide)]
  by_cases hlt : index.getD l.length < l.length
  · -- there is an item, which the new one goes in front of
    obtain ⟨i, rfl⟩ : ∃ i, index = some i := by
      cases index with
      | none => exact absurd hlt (Nat.lt_irrefl _)
      | some i => exact ⟨i, rfl⟩
    have hlt : i < l.length := hlt
    obtain ⟨f, u, rfl, rfl, -⟩ := Sheet.exists_fill h.fits.of_plug hkey
      (by rw [houtline]; exact List.getElem?_eq_getElem hlt) (fun h => by cases h)
    obtain ⟨gap, hhead⟩ := Sheet.exists_dash h.fits.of_plug hkey
    rw [Outline.insertionPlace, Option.getD_some, Nat.min_eq_left hlt.le]
    have hnext : target.node.children[f.index]? = some (u.tree (.ofText source)
        (Text.size (g ++ Sheet.front (f :: fs)))) := by
      rw [hnode, f.nodes_fill, ← Text.size_append, List.append_assoc, Sheet.front]
    refine h.inserts_item_in_front (u := u) hload hhead hnew hv hread (hplan.trans ?_)
    rw [Plan.addItem_of_next hnext, hcolumn]
    rfl
  · obtain ⟨before, head, u, rfl⟩ := h.fits.of_plug.exists_last (Sheet.isWord_of_isKey? hkey)
    obtain ⟨gap, rfl⟩ := Sheet.exists_dash (f := ⟨before, head, none⟩) h.fits.of_plug hkey
    have hlength : (Frame.fill ⟨before, .dash gap, none⟩ u).outline.children.length = l.length := by
      rw [houtline, Outline.children]
    have hnone : index.bind (target.node.children[·]?) = none := by
      cases index with
      | none => rfl
      | some i =>
          rw [Option.bind_some, List.getElem?_eq_none_iff, hnode, Sheet.length_children, hlength]
          exact Nat.le_of_not_lt hlt
    have hlast := Sheet.getLast?_fill (.ofText source) before (.dash gap) u
      (Text.size (g ++ Sheet.front fs))
    rw [Outline.insertionPlace, Nat.min_eq_right (Nat.le_of_not_lt hlt), ← hlength]
    refine h.inserts_item_behind hload hnew hv hread hlast (hplan.trans ?_)
    rw [Plan.addItem_of_last hnone (hnode ▸ hlast), hcolumn]

/-- An item in front of one with a comment behind it. -/
theorem seqAdd_to_sheet_inserts_item_in_front :
    ∃ e e' text,
      Editor.edit "- a\n- b # x\n".toList
        (.seqAdd [] (.sequence [.string "c".toList, .string "d".toList]) (some 1)) =
          some (e, e', text) ∧
      ItemInserted e e' [0, 0] 1 (.sequence [.string "c".toList, .string "d".toList]) := by
  obtain ⟨e, hload, hpath, hitems⟩ := Editor.exists_load "- a\n- b # x\n".toList
    (P := fun e => e.snapshot.addressOf [] = some [0, 0] ∧
      (e.snapshot.outline.at? [0, 0]).map Outline.signs = some
        (Outline.group (.sequence .block) [.scalar "a".toList, .scalar "b".toList]).signs)
    (by decide +kernel)
  obtain ⟨x, hat, hx⟩ := Option.map_eq_some_iff.mp hitems
  obtain rfl := Outline.signs_injective hx
  obtain ⟨e', text, h⟩ := seqAdd_to_sheet_inserts_item (g := [])
    (t := .more (.dash [' ']) (.word "a".toList ['\n'])
      (.last (.dash [' ']) (.word "b".toList " # x\n".toList)))
    (s := .more (.dash [' ']) (.word "c".toList ['\n'])
      (.last (.dash [' ']) (.word "d".toList ['\n'])))
    (v := .sequence [.string "c".toList, .string "d".toList]) (by decide +kernel) hload hpath
    hat rfl
    (by decide +kernel) (by decide +kernel) (by decide +kernel)
  exact ⟨e, e', text, h⟩

/-! ## New pairs -/

namespace Plan

variable {snap : Snapshot} {mapping first last : Node} {name : Text} {new : Fragment} {s : Sheet}

theorem addPair_of_last {key : Fragment} (hfirst : mapping.children.head? = some first)
    (hlast : mapping.children.getLast? = some last) : Block.addPair snap mapping key new =
      .ok (Block.addLines snap last (Block.pairLines first.start.column key new)) := by
  unfold Block.addPair
  rw [hfirst, hlast]

/-- The head of a new pair. -/
theorem takes_key (hname : Token.PlainLine name ∧ Text.size name ≤ 1024) (hnew : new.IsSheet s)
    (column : Nat) : (Head.key name (Head.newGap column new.isContainer)).Takes column s where
  fits := Head.fits_newGap hname column new.isContainer
  follows := Head.follows_newGap hnew.container name column
  node := hnew.fits

theorem pairLines_sheet (hnew : new.IsSheet s) {v : Value} (hv : Fragment.ofValue v = .ok new)
    (name : Text) (column : Nat) : Block.pairLines column ⟨name, false⟩ new =
      (Head.key name (Head.newGap column new.isContainer)).lines column s := by
  have hcontent := content_newGap hnew hv name column
  have htext : Block.pairLines column ⟨name, false⟩ new = Text.spaces column ++ (name ++ [':'] ++
      (if new.isContainer then '\n' :: new.indented (Indentation.nested column) true
        else ' ' :: new.indented (Indentation.nested column) false) ++ ['\n']) := by
    rw [Block.pairLines]
    cases new.isContainer <;> simp
  rw [htext, hcontent, Head.lines, Head.text, Head.mark, Head.gap]
  simp

end Plan

/-- **A pair that is added to a mapping of a sheet is there**, if the key is written as it is and
the text of the value is a sheet: the addition renders, there is one pair more at the end, and
nothing else changes. -/
theorem mapAdd_to_sheet_appends_pair {source g path name : Text} {t s : Sheet} {e : Editor}
    {a : Address} {style : Style} {l : List Outline} {v : Value} {new : Fragment}
    (h : source.IsSheet g t) (hload : Editor.load source = .ok e)
    (hpath : e.snapshot.addressOf path = some a)
    (hpairs : e.snapshot.outline.at? a = some (.group (.mapping style) l))
    (hline : Token.PlainLine name) (hlength : Text.size name ≤ 1024)
    (hname : Fragment.ofValue (.string name) = .ok ⟨name, false⟩)
    (hv : Fragment.ofValue v = .ok new) (hnew : new.IsSheet s) (hlegible : new.text.IsLegible)
    (hround : v.RoundTrips) :
    ∃ e' text, Editor.edit source (.mapAdd path name v) = some (e, e', text) ∧
      PairAppended e e' a l.length name v := by
  have he := h.snapshot_of_load hload
  rw [he] at hpath hpairs
  obtain ⟨fs, q, rfl, rfl⟩ := Sheet.exists_plug_of_addressOf h hpath
  have houtline : q.outline = .group (.mapping style) l := by
    have := Sheet.at?_plug fs q
    rw [Sheet.outline_snapshot] at hpairs
    exact Option.some.inj (this.symm.trans hpairs)
  have hkey := q.isKey?_of_outline true houtline
  obtain ⟨target, hresolve, hnode, hkind, hcolumn⟩ := h.exists_collection hpath hkey
  obtain ⟨first, hfirst, hstart⟩ := Sheet.head?_mapping (.ofText source) hkey
    (Text.size (g ++ Sheet.front fs))
  obtain ⟨before, head, u, rfl⟩ := h.fits.of_plug.exists_last (Sheet.isWord_of_isKey? hkey)
  have hhead : head.isKey = true :=
    Option.some.inj ((Frame.isKey?_fill (f := ⟨before, head, none⟩) h.fits.of_plug).symm.trans hkey)
  have hlast := Sheet.getLast?_fill (.ofText source) before head u (Text.size (g ++ Sheet.front fs))
  rw [hnode, Sheet.start_tree, ← hstart] at hcolumn
  generalize hin : Sheet.columnIn (Text.columnBehind 0 g) fs = column at hcolumn
  have honeline : Fragment.isMultiline ⟨name, false⟩ = false := by
    simp [Fragment.isMultiline, Scan.not_mem_of_staysPlain hline.stays]
  have hplan : Plan.operation
      ((Sheet.plug fs (Frame.fill ⟨before, head, none⟩ u)).snapshot source g)
      (.mapAdd path name v) = _ :=
    Plan.mapAdd_eq hresolve (by rw [Node.isMapping, hkind]; rfl) hname honeline hv
  rw [if_neg (by rw [Node.isFlow, hkind]; decide), hnode, Plan.addPair_of_last hfirst hlast,
    hcolumn,
    Plan.pairLines_sheet hnew hv name] at hplan
  obtain ⟨e', text, x, y, hedit, hsheet, he'⟩ := h.exists_edit_appended hin
    (Plan.takes_key ⟨hline, hlength⟩ hnew column) hhead.symm hload hlast hplan
  have hsame : (Head.key name (Head.newGap column new.isContainer)).isKey = head.isKey := hhead.symm
  have houtline' := Sheet.outline_appended (hin ▸ h.fits.of_plug) hsame x y s
  have hcount : (Entry.outlinesOf
      (before ++ [(head, u.setTail (x ++ '\n' :: Text.spaces column))])).length =
      l.length := by
    rw [show l = (Frame.fill ⟨before, head, none⟩ u).outline.children by rw [houtline]; rfl,
      Frame.fill, Sheet.children_behind]
    simp [Entry.outlinesOf, Entry.outlines, Frame.entry, Sheet.outline, Outline.children]
  refine ⟨e', text, hedit, ⟨s.outline, ?_⟩, ?_, ?_⟩
  · rw [he', he]
    exact Sheet.outline_snapshot_modify (F := Outline.appendChildren _) houtline' _ _ _ _ fs
  · have := hsheet.decodes_key (f := ⟨_, .key name _, none⟩) rfl
      (Fragment.readsAs_name hline hname)
    rw [he', ← hcount]
    exact this
  · have := hsheet.decodes_placed hin hnew hv (hnew.readsAs hv hlegible hround)
    rw [he', ← hcount]
    exact this

/-- A pair behind one with a comment. -/
theorem mapAdd_to_sheet_appends_pair_behind_comment :
    ∃ e e' text,
      Editor.edit "a: b # x\n".toList
        (.mapAdd [] "k".toList (.sequence [.string "c".toList, .string "d".toList])) =
          some (e, e', text) ∧
      PairAppended e e' [0, 0] 2 "k".toList
        (.sequence [.string "c".toList, .string "d".toList]) := by
  obtain ⟨e, hload, hpath, hpairs⟩ := Editor.exists_load "a: b # x\n".toList
    (P := fun e => e.snapshot.addressOf [] = some [0, 0] ∧
      (e.snapshot.outline.at? [0, 0]).map Outline.signs = some
        (Outline.group (.mapping .block) [.scalar "a".toList, .scalar "b".toList]).signs)
    (by decide +kernel)
  obtain ⟨x, hat, hx⟩ := Option.map_eq_some_iff.mp hpairs
  obtain rfl := Outline.signs_injective hx
  obtain ⟨e', text, h⟩ := mapAdd_to_sheet_appends_pair (g := [])
    (t := .last (.key "a".toList [' ']) (.word "b".toList " # x\n".toList))
    (s := .more (.dash [' ']) (.word "c".toList ['\n'])
      (.last (.dash [' ']) (.word "d".toList ['\n'])))
    (v := .sequence [.string "c".toList, .string "d".toList]) (by decide +kernel)
    hload hpath hat (show Token.PlainLine "k".toList by decide +kernel) (by decide +kernel) rfl rfl
    (by decide +kernel) (by decide +kernel) (by decide +kernel)
  exact ⟨e, e', text, h⟩

end YamlEdit
