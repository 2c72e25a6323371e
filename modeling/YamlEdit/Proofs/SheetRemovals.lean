import YamlEdit.Proofs.Removal
import YamlEdit.Proofs.SheetInsertions

/-!
# Entries taken out of sheets

An entry that starts a line is taken out with its lines: what is left of the margin behind it goes
behind the line feed in front of it (`Token.Margin.exists_line`), where it ends the entry before, or
stands in front of the whole collection. An entry that shares its line with a `-` is taken out up to
the next one, which takes its place.

Main statement: `delete_from_sheet_removes_entry`.
-/

namespace YamlEdit

/-! ## The margin in front of a line -/

theorem Text.columnBehind_line_of_feed {w : Text} (h : LineIndex.EndsLine w) (hfeed : '\n' ∈ w)
    (c : Nat) (x y : Text) : columnBehind c (x ++ (w ++ y)) = columnBehind 0 y := by
  obtain ⟨front, rfl⟩ := h.resolve_left (List.ne_nil_of_mem hfeed)
  rw [columnBehind_append, columnBehind_append, columnBehind_append]
  rfl

theorem LineIndex.EndsLine.append {w : Text} (h : EndsLine w) (hfeed : '\n' ∈ w) (x : Text) :
    EndsLine (x ++ w) := by
  obtain ⟨front, rfl⟩ := h.resolve_left (List.ne_nil_of_mem hfeed)
  exact .inr ⟨x ++ front, by simp⟩

namespace Token

variable {w : Text}

/-- **A margin ends with the spaces of a line**, which start where a line does. -/
theorem Margin.exists_line (h : Margin w) : ∃ x n, w = x ++ Text.spaces n ∧ Margin x ∧
    LineIndex.EndsLine x := by
  induction h with
  | nil => exact ⟨[], 0, rfl, .nil, .inl rfl⟩
  | space _ ih =>
      obtain ⟨x, n, rfl, hx, hline⟩ := ih
      rcases hline with rfl | ⟨front, rfl⟩
      · exact ⟨[], n + 1, rfl, .nil, .inl rfl⟩
      · exact ⟨' ' :: (front ++ ['\n']), n, rfl, .space hx, .inr ⟨' ' :: front, rfl⟩⟩
  | feed _ ih =>
      obtain ⟨x, n, rfl, hx, hline⟩ := ih
      refine ⟨'\n' :: x, n, rfl, .feed hx, .inr ?_⟩
      rcases hline with rfl | ⟨front, rfl⟩
      · exact ⟨[], rfl⟩
      · exact ⟨'\n' :: front, rfl⟩
  | @comment body u hbody _ ih =>
      obtain ⟨x, n, hu, hx, hline⟩ := ih
      -- the line feed that ends the comment is not one of the spaces
      obtain ⟨x, rfl⟩ : ∃ x', x = '\n' :: x' := by
        cases x with
        | nil => cases n <;> cases hu
        | cons c x => exact ⟨x, by rw [(List.cons.inj hu).1]⟩
      refine ⟨'#' :: (body ++ '\n' :: x), n, by simp [(List.cons.inj hu).2], .comment hbody hx,
        .inr ?_⟩
      obtain ⟨front, hfront⟩ := hline.resolve_left (List.cons_ne_nil _ _)
      exact ⟨'#' :: (body ++ front), by simp [hfront]⟩

end Token

/-- A head with another margin, in which the line of the node starts in the same column. -/
theorem Head.Fits.joined {column n : Nat} {head : Head} {w y : Text} (h : head.Fits column)
    (hgap : head.gap = w ++ Text.spaces n) (hw : Token.Margin w) (hline : LineIndex.EndsLine w)
    (hfeed : '\n' ∈ w) (hy : Token.Margin y) (hcolumn : Text.columnBehind 0 y = n)
    (hhash : head.isKey = false → '#' ∉ y) : (head.withGap (w ++ y)).Fits column where
  margin := by
    rw [Head.gap_withGap]
    exact hw.append hy
  first := by
    have hfirst := h.first
    rw [hgap] at hfirst
    rw [Head.gap_withGap]
    cases w with
    | nil => cases hfeed
    | cons c w => exact hfirst
  deeper := by
    have hdeeper := h.deeper
    rw [Head.text, hgap, Text.columnBehind_line_of_feed hline hfeed, Text.columnBehind_spaces,
      Nat.zero_add] at hdeeper
    rwa [Head.text_withGap, Text.columnBehind_line_of_feed hline hfeed, hcolumn]
  item := by
    intro hkey hmem
    rw [Head.isKey_withGap] at hkey
    rw [Head.gap_withGap] at hmem
    rcases List.mem_append.mp hmem with hmem | hmem
    · exact h.item hkey (hgap ▸ List.mem_append_left _ hmem)
    · exact hhash hkey hmem
  name := by cases head <;> exact h.name

/-! ## What is left of a collection -/

namespace Sheet

variable {column : Nat} {f : Frame} {b : List Entry} {head head' : Head} {rest : Option Sheet}
  {t u u' : Sheet} {w x y : Text}

/-- The outline of a collection, around the node of one of its entries. -/
theorem outline_fill_eq (h : (f.fill u).Fits column) : (f.fill u).outline =
    .group (if f.head.isKey then .mapping .block else .sequence .block)
      (Entry.outlinesOf f.before ++ (f.head.outlines ++
        u.outline :: (f.rest.map (·.outline.children)).getD [])) := by
  have hbefore := fun e he => ((h.of_behind (f.isKey?_entry u)).2 e he).kind
  have hfill : (f.fill u).outline = _ := outline_behind (f.isKey?_entry u) hbefore
  obtain ⟨before, head, rest⟩ := f
  rw [hfill]
  cases rest <;> rfl

/-- **What is left without the entry.** -/
theorem eraseEntry_fill (h : (f.fill u).Fits column) : (f.fill u).outline.eraseEntry f.index =
    .group (if f.head.isKey then .mapping .block else .sequence .block)
      (Entry.outlinesOf f.before ++ (f.rest.map (·.outline.children)).getD []) := by
  rw [outline_fill_eq h, Outline.eraseEntry, Outline.entryStart, Outline.eraseChildren, Frame.index]
  cases f.head <;> simp [Head.isKey, Outline.isMapping, Head.outlines]

/-- The margin that ends a line and one behind a line feed. -/
theorem isBreak_joined {n : Nat} (h : Token.IsBreak (w ++ Text.spaces n)) (hw : Token.Margin w)
    (hfeed : '\n' ∈ w) (hy : Token.Margin y) : Token.IsBreak (w ++ y) where
  margin := hw.append hy
  first := by
    cases w with
    | nil => cases hfeed
    | cons c w => exact h.first
  feed := List.mem_append_left _ hfeed

/-- **The entry before takes the margin** of the one that is taken out. -/
theorem Fits.drop_behind {n : Nat}
    (h : (Frame.fill ⟨b ++ [(head', u')], head, rest⟩ u).Fits column)
    (hw : Token.Margin w) (hline : LineIndex.EndsLine w) (hfeed : '\n' ∈ w)
    (htail' : u'.tail = w ++ Text.spaces n)
    (htail : u.tail = x ++ '\n' :: y) (hx : '\n' ∉ x) :
    (Frame.fill ⟨b, head', rest⟩ (u'.setTail (w ++ y))).Fits column := by
  obtain ⟨hentry, hbefore⟩ := h.of_behind (Frame.isKey?_entry ⟨b ++ [(head', u')], head, rest⟩ u)
  have hlast := hbefore (head', u') (by simp)
  have hu := (Frame.fits_of_fill h).2.2
  have hy := ((htail ▸ hu.isBreak_tail).margin.cut hx).1
  have hnode := hlast.node.setTail (isBreak_joined (htail' ▸ hlast.node.isBreak_tail) hw hfeed hy)
  have hfollows : Follows head' (u'.setTail (w ++ y)) := fun hk hf =>
    (isWord_setTail _).trans (hlast.follows hk hf)
  refine .behind (k := head.isKey) ?_ ?_ fun e he => hbefore e (List.mem_append_left _ he)
  · cases rest with
    | none => exact .last hlast.head hfollows hnode
    | some rest =>
        cases hentry with
        | more _ _ _ haligned hkind hrest =>
            refine .more hlast.head hfollows hnode ?_ (hkind.trans (congrArg some hlast.kind.symm))
              hrest
            rw [tail_setTail, Text.columnBehind_endsLine hline, ← haligned, htail,
              Text.columnBehind_feed]
  · exact (Frame.isKey?_entry ⟨b, head', rest⟩ _).trans (congrArg some hlast.kind)

theorem columnBehind_tail_drop (hline : LineIndex.EndsLine w) (htail : u.tail = x ++ '\n' :: y) :
    Text.columnBehind 0 (Frame.fill ⟨b, head', rest⟩ (u'.setTail (w ++ y))).tail =
      Text.columnBehind 0 (Frame.fill ⟨b ++ [(head', u')], head, rest⟩ u).tail := by
  rw [Frame.fill, Frame.fill, tail_behind, tail_behind]
  cases rest with
  | none =>
      show Text.columnBehind 0 (u'.setTail (w ++ y)).tail = Text.columnBehind 0 u.tail
      rw [tail_setTail, Text.columnBehind_endsLine hline, htail, Text.columnBehind_feed]
  | some rest => rfl

theorem outline_drop_behind (h : (Frame.fill ⟨b ++ [(head', u')], head, rest⟩ u).Fits column)
    (hnew : (Frame.fill ⟨b, head', rest⟩ (u'.setTail w)).Fits column)
    (hkind : head'.isKey = head.isKey) :
    (Frame.fill ⟨b, head', rest⟩ (u'.setTail w)).outline =
      (Frame.fill ⟨b ++ [(head', u')], head, rest⟩ u).outline.eraseEntry
        (Frame.index ⟨b ++ [(head', u')], head, rest⟩) := by
  rw [eraseEntry_fill h, outline_fill_eq hnew]
  simp [Entry.outlinesOf, Entry.outlines, hkind]

/-- The entries behind the first one, without it. -/
theorem outline_drop_first {r : Sheet} (h : (Frame.fill ⟨[], head, some r⟩ u).Fits column) :
    r.outline = (Frame.fill ⟨[], head, some r⟩ u).outline.eraseEntry
      (Frame.index ⟨[], head, some r⟩) := by
  rw [eraseEntry_fill h]
  cases h with
  | more _ _ _ _ hkind _ => exact outline_eq_group hkind

end Sheet

/-! ## The lines of an entry -/

namespace Plan

variable {source g path p q x y : Text} {fs : List Frame} {f : Frame} {t u r : Sheet}
  {parent : Node} {column : Nat}

theorem entryStart_dash {gap : Text} (h : source.IsSheet g (Sheet.plug (f :: fs) u))
    (hhead : f.head = .dash gap) (hparent : parent.isMapping = false) :
    Block.entryStart ((Sheet.plug (f :: fs) u).snapshot source g) parent
        (u.tree (.ofText source) (Text.size (g ++ Sheet.front (f :: fs)))) =
      .ok (Text.size (g ++ Sheet.front fs ++ Entry.textOf f.before)) := by
  unfold Block.entryStart
  dsimp only
  rw [hparent, if_neg (by decide), h.startOf]
  exact congrArg (· >>= _) (lift_offset_eq_ok.mpr (itemMarker_sheet h hhead))

/-- **Where an entry begins.** -/
theorem exists_first (h : source.IsSheet g (Sheet.plug fs t)) (ht : t = f.fill u) :
    ∃ first, (t.tree (.ofText source) (Text.size (g ++ Sheet.front fs))).children[
        (Entry.outlinesOf f.before).length]? = some first ∧
      (if (t.tree (.ofText source) (Text.size (g ++ Sheet.front fs))).isMapping then
          (t.tree (.ofText source) (Text.size (g ++ Sheet.front fs))).pairedKey f.index
        else pure (u.tree (.ofText source) (Text.size (g ++ Sheet.front (f :: fs))))) = .ok first ∧
      Block.entryStart ((Sheet.plug fs t).snapshot source g)
        (t.tree (.ofText source) (Text.size (g ++ Sheet.front fs))) first =
          .ok (Text.size (g ++ Sheet.front fs ++ Entry.textOf f.before)) := by
  subst ht
  have hkind := Sheet.kind_tree (Frame.isKey?_fill (Sheet.Fits.of_plug h.fits))
    (.ofText source) (Text.size (g ++ Sheet.front fs))
  have hsource := text_entry h
  cases hhead : f.head with
  | dash gap =>
      have hitem : ((f.fill u).tree (.ofText source) (Text.size (g ++ Sheet.front fs))).isMapping =
          false := by
        rw [Node.isMapping, hkind, hhead]
        rfl
      have hnode := f.nodes_fill (.ofText source) u (Text.size (g ++ Sheet.front fs))
      rw [← Text.size_append, List.append_assoc, Frame.index, hhead] at hnode
      refine ⟨_, hnode, ?_, ?_⟩
      · rw [hitem]
        rfl
      · exact entryStart_dash h hhead hitem
  | key name gap =>
      obtain ⟨key, hpaired, hkey, hstart, -⟩ := exists_key_of_plug h hhead
      have hpair : ((f.fill u).tree (.ofText source) (Text.size (g ++ Sheet.front fs))).isMapping =
          true := by
        rw [Node.isMapping, hkind, hhead]
        rfl
      refine ⟨key, hkey, ?_, ?_⟩
      · rw [hpair]
        exact hpaired
      · unfold Block.entryStart
        rw [hpair, Snapshot.startOf, hstart, Sheet.offset_snapshot hsource]
        rfl

/-- How an entry is removed. -/
theorem exists_remove (h : source.IsSheet g (Sheet.plug (f :: fs) u))
    (hpath : ((Sheet.plug (f :: fs) u).snapshot source g).addressOf path =
      some ([0, 0] ++ Sheet.addr (f :: fs))) :
    ∃ first, delete ((Sheet.plug (f :: fs) u).snapshot source g) path =
        Block.remove ((Sheet.plug (f :: fs) u).snapshot source g)
          ((f.fill u).tree (.ofText source) (Text.size (g ++ Sheet.front fs))) first
          (u.tree (.ofText source) (Text.size (g ++ Sheet.front (f :: fs)))) f.index ∧
      Block.entryStart ((Sheet.plug (f :: fs) u).snapshot source g)
        ((f.fill u).tree (.ofText source) (Text.size (g ++ Sheet.front fs))) first =
          .ok (Text.size (g ++ Sheet.front fs ++ Entry.textOf f.before)) := by
  obtain ⟨target, hresolve, hentry, hnode⟩ := h.exists_target hpath .delete
  obtain ⟨first, -, hfirst, hstart⟩ := exists_first h.fill rfl
  have hflow : ((f.fill u).tree (.ofText source) (Text.size (g ++ Sheet.front fs))).isFlow =
      false := by
    rw [Node.isFlow, Sheet.kind_tree (Frame.isKey?_fill (Sheet.Fits.of_plug h.fits))]
    cases f.head.isKey <;> rfl
  refine ⟨first, ?_, hstart⟩
  rw [← hnode] at hfirst ⊢
  rw [delete_eq hresolve hentry hfirst, if_neg (by simp [hflow])]

/-- **An entry that starts a line** is taken out with its lines. -/
theorem delete_lines (h : source.IsSheet g (Sheet.plug (f :: fs) u))
    (hpath : ((Sheet.plug (f :: fs) u).snapshot source g).addressOf path =
      some ([0, 0] ++ Sheet.addr (f :: fs)))
    (hplace : g ++ Sheet.front fs ++ Entry.textOf f.before = p ++ Text.spaces column)
    (hp : LineIndex.EndsLine p) (htail : u.tail = x ++ '\n' :: y) (hx : '\n' ∉ x) :
    ∃ splice, delete ((Sheet.plug (f :: fs) u).snapshot source g) path = .ok splice ∧
      splice.apply source = .ok (p ++ (y ++ (f.back ++ Sheet.back fs))) := by
  obtain ⟨first, hdelete, hstart⟩ := exists_remove h hpath
  have hsource : source = p ++ (Text.spaces column ++ (f.head.text ++ u.body ++ x) ++ ['\n'] ++
      (y ++ (f.back ++ Sheet.back fs))) := by
    rw [text_entry h, hplace, text_entry_eq, Sheet.text_eq u, htail]
    simp
  have hwithin : ((Sheet.plug (f :: fs) u).snapshot source g).Within (p ++ (Text.spaces column ++
      (f.head.text ++ u.body ++ x) ++ ['\n'] ++ (y ++ (f.back ++ Sheet.back fs)))) := by
    rw [← hsource]
    exact Snapshot.within_of_ofText h.ofText
  have hend : g ++ Sheet.front (f :: fs) ++ u.body =
      p ++ Text.spaces column ++ (f.head.text ++ u.body) := by
    rw [← hplace, Sheet.front, Frame.front]
    simp
  rw [hdelete, Block.remove_lines hwithin hp]
  · refine ⟨_, rfl, ?_⟩
    conv_lhs => rw [hsource]
    exact Splice.apply_remove
  · rw [hstart, hplace, Text.size_append, Text.size_spaces]
  · -- what is left of the line has no line feed
    have hlines : ((Sheet.plug (f :: fs) u).snapshot source g).lines =
      LineIndex.ofText source := rfl
    have hcontent : Text.size p + column + Text.size (f.head.text ++ u.body ++ x) =
        Text.size (g ++ Sheet.front (f :: fs) ++ u.body ++ x) := by
      rw [hend, ← Text.size_spaces column, ← Text.size_append, ← Text.size_append]
      simp
    have hbody : source = g ++ Sheet.front (f :: fs) ++ u.body ++
        (x ++ '\n' :: y ++ Sheet.back (f :: fs)) := by
      rw [h.text_plug, htail]
      simp
    have hrest : source = g ++ Sheet.front (f :: fs) ++ u.body ++ x ++
        ('\n' :: y ++ Sheet.back (f :: fs)) := by
      rw [hbody]
      simp
    have hstop := LineIndex.line_position (g ++ Sheet.front (f :: fs) ++ u.body)
      (x ++ '\n' :: y ++ Sheet.back (f :: fs))
    have hfeed := LineIndex.line_position (g ++ Sheet.front (f :: fs) ++ u.body ++ x)
      ('\n' :: y ++ Sheet.back (f :: fs))
    rw [← hbody] at hstop
    rw [← hrest, List.count_append, List.count_eq_zero.mpr hx] at hfeed
    rw [hlines, hcontent, Sheet.stop_tree, ← Text.size_append]
    exact hstop.trans hfeed.symm

/-- The next entry, as one of the collection. -/
theorem exists_next (hrest : f.rest = some r) (hr : r.isWord = false) :
    ∃ (f' : Frame) (u' : Sheet), f.fill u = f'.fill u' ∧ f'.before = f.before ++ [(f.head, u)] := by
  obtain ⟨before, head, rest⟩ := f
  obtain rfl : rest = some r := hrest
  cases r with
  | word => cases hr
  | last head' node =>
      exact ⟨⟨before ++ [(head, u)], head', none⟩, node,
        (Sheet.behind_append before [(head, u)] (.last head' node)).symm, rfl⟩
  | more head' node rest =>
      exact ⟨⟨before ++ [(head, u)], head', some rest⟩, node,
        (Sheet.behind_append before [(head, u)] (.more head' node rest)).symm, rfl⟩

/-- **An entry that shares its line** is taken out up to the next one. -/
theorem delete_upTo (h : source.IsSheet g (Sheet.plug (f :: fs) u))
    (hpath : ((Sheet.plug (f :: fs) u).snapshot source g).addressOf path =
      some ([0, 0] ++ Sheet.addr (f :: fs))) (hrest : f.rest = some r) (hr : r.isWord = false)
    (hplace : g ++ Sheet.front fs ++ Entry.textOf f.before = p ++ q)
    (hp : LineIndex.EndsLine p) (hq : '\n' ∉ q) (hshared : q.allBlank = false) :
    ∃ splice, delete ((Sheet.plug (f :: fs) u).snapshot source g) path = .ok splice ∧
      splice.apply source = .ok (g ++ Sheet.front fs ++ Entry.textOf f.before ++
        (r.text ++ Sheet.back fs)) := by
  obtain ⟨first, hdelete, hstart⟩ := exists_remove h hpath
  obtain ⟨f', u', hsame, hbefore⟩ := exists_next (u := u) hrest hr
  obtain ⟨next, hnext, -, hstop⟩ := exists_first h.fill hsame
  have hindex : (Entry.outlinesOf f'.before).length = f.index + 1 := by
    rw [hbefore, Frame.index]
    simp [Entry.outlinesOf, Entry.outlines, Nat.add_assoc]
  have hsource : source = g ++ Sheet.front fs ++ Entry.textOf f.before ++
      (f.head.text ++ u.text ++ (r.text ++ Sheet.back fs)) := by
    have := text_entry h
    rw [text_entry_eq, Frame.back, hrest] at this
    rw [this]
    simp
  have hline : ((Sheet.plug (f :: fs) u).snapshot source g).linePrefix
      (Text.size (g ++ Sheet.front fs ++ Entry.textOf f.before)) = .ok q := by
    rw [hplace]
    have hsplit : ((Sheet.plug (f :: fs) u).snapshot source g).map =
        .ofText (p ++ q ++ (f.head.text ++ u.text ++ (r.text ++ Sheet.back fs))) := by
      rw [← hplace, ← hsource]
      rfl
    exact Snapshot.linePrefix_eq hsplit hp (List.count_eq_zero.mpr hq)
  rw [hindex] at hnext
  rw [hdelete, Block.remove_upTo hline hshared hnext hstart]
  · refine ⟨_, rfl, ?_⟩
    conv_lhs => rw [hsource]
    exact Splice.apply_remove
  · rw [← Text.size_append]
    have hend : Entry.textOf f'.before = Entry.textOf f.before ++ (f.head.text ++ u.text) := by
      rw [hbefore]
      simp [Entry.textOf, Entry.text]
    rw [hend] at hstop
    rw [List.append_assoc (g ++ Sheet.front fs)]
    exact hstop

end Plan

/-! ## Removals -/

/-- Whether the next line behind a node that is not blank is a comment. -/
def Snapshot.CommentBehind (s : Snapshot) (a : Address) : Prop :=
  ∃ n x y, s.tree.root.descendant? a = some n ∧ s.source = x ++ y ∧ Text.size x = s.stopOf n ∧
    ((y.dropWhile (· ≠ '\n')).dropWhile Text.isBlank).head? = some '#'

/-- A comment in a margin is what comes behind its blanks. -/
theorem Token.Margin.head?_dropWhile {y : Text} (h : Token.Margin y) (hhash : '#' ∈ y) (z : Text) :
    ((y ++ z).dropWhile Text.isBlank).head? = some '#' := by
  obtain ⟨p, q, rfl, hp, -, hq⟩ := h.split
  have hblank : ∀ c ∈ p, Text.isBlank c = true := fun c hc => by
    rcases hp c hc with rfl | rfl <;> rfl
  cases q with
  | nil =>
      rw [List.append_nil] at hhash
      have := hp _ hhash
      simp at this
  | cons c q =>
      obtain rfl : c = '#' := by simpa using hq
      rw [List.append_assoc, List.dropWhile_append_of_pos hblank]
      rfl

namespace Text.IsSheet

variable {source g path x y w : Text} {fs : List Frame} {f : Frame} {u r : Sheet} {n : Nat}
  {e : Editor}

theorem commentBehind (h : source.IsSheet g (Sheet.plug (f :: fs) u))
    (htail : u.tail = x ++ '\n' :: y) (hx : '\n' ∉ x) (hy : Token.Margin y) (hhash : '#' ∈ y) :
    ((Sheet.plug (f :: fs) u).snapshot source g).CommentBehind
      ([0, 0] ++ Sheet.addr (f :: fs)) := by
  refine ⟨_, g ++ Sheet.front (f :: fs) ++ u.body, u.tail ++ Sheet.back (f :: fs),
    Sheet.descendant?_snapshot source g (f :: fs) u, ?_, (stopOf h).symm, ?_⟩
  · rw [List.append_assoc]
    exact h.text_plug
  · have hline : ∀ c ∈ x, (decide (c ≠ '\n')) = true := fun c hc => by
      simpa using fun heq : c = '\n' => hx (heq ▸ hc)
    rw [htail, List.append_assoc, List.dropWhile_append_of_pos hline]
    exact hy.head?_dropWhile hhash _

/-- **An entry behind another one** is removed. -/
theorem removes_behind {b : List Entry} {head head' : Head} {u' : Sheet} {rest : Option Sheet}
    (h : source.IsSheet g (Sheet.plug (⟨b ++ [(head', u')], head, rest⟩ :: fs) u))
    (hload : Editor.load source = .ok e) (hpath : e.snapshot.addressOf path =
      some ([0, 0] ++ Sheet.addr (⟨b ++ [(head', u')], head, rest⟩ :: fs))) :
    ∃ e' text, Editor.edit source (.delete path) = some (e, e', text) ∧
      e'.snapshot.outline = e.snapshot.outline.modify
        (Outline.eraseEntry (Frame.index ⟨b ++ [(head', u')], head, rest⟩))
        ([0, 0] ++ Sheet.addr fs) := by
  have he := h.snapshot_of_load hload
  rw [he] at hpath
  have hfill := h.fits.fill.of_plug
  have hu := (Frame.fits_of_fill hfill).2.2
  obtain ⟨x, y, htail, hx⟩ := Text.exists_cut hu.isBreak_tail.feed
  have hlast := h.fits.before_of_plug (head', u') (by simp)
  obtain ⟨w, n, htail', hw, hline⟩ := hlast.node.isBreak_tail.margin.exists_line
  have hfeed : '\n' ∈ w := by
    have := htail' ▸ hlast.node.isBreak_tail.feed
    simpa [Text.spaces] using this
  have hnew := hfill.drop_behind hw hline hfeed htail' htail hx
  have hsheet := h.fill.plug_collection (Frame.isWord_fill _ _) hnew
    (Sheet.columnBehind_tail_drop hline htail)
  have hplace : g ++ Sheet.front fs ++ Entry.textOf (b ++ [(head', u')]) =
      g ++ Sheet.front fs ++ Entry.textOf b ++ head'.text ++ u'.body ++ w ++ Text.spaces n := by
    simp [Entry.textOf, Entry.text, Sheet.text_eq u', htail']
  obtain ⟨splice, hplan, happly⟩ := Plan.delete_lines h hpath hplace (hline.append hfeed _) htail hx
  have htext : g ++ (Sheet.plug fs (Frame.fill ⟨b, head', rest⟩ (u'.setTail (w ++ y)))).text =
      g ++ Sheet.front fs ++ Entry.textOf b ++ head'.text ++ u'.body ++ w ++
        (y ++ (Frame.back ⟨b ++ [(head', u')], head, rest⟩ ++ Sheet.back fs)) := by
    rw [Sheet.text_plug, Frame.text_fill, Sheet.text_setTail, Frame.front]
    simp [Frame.back]
  obtain ⟨e', hedit, he'⟩ := h.exists_edit hsheet hload (o := .delete path) hplan
    (happly.trans (congrArg Except.ok htext.symm))
  refine ⟨e', _, hedit, ?_⟩
  rw [he', he]
  exact Sheet.outline_snapshot_modify (u := Frame.fill _ u)
    (Sheet.outline_drop_behind hfill hnew hlast.kind) _ _ _ _ fs

/-- The line that a collection shares with the `-` in front of it. -/
theorem exists_shared {t : Sheet} (h : source.IsSheet g (Sheet.plug (f :: fs) t))
    (hword : t.isWord = false) (hfeed : '\n' ∉ f.head.gap) : ∃ p q,
      g ++ Sheet.front (f :: fs) = p ++ q ∧ LineIndex.EndsLine p ∧ '\n' ∉ q ∧
        q.allBlank = false := by
  obtain ⟨-, hfollows, -⟩ := Frame.fits_of_fill (Sheet.Fits.of_plug h.fits)
  obtain ⟨p, q, hsplit, hp, hq⟩ := h.fits.upright_entry h.isUpright
  have hline : '\n' ∉ q := fun hmem => by
    rcases hq _ hmem with h | h <;> cases h
  cases hhead : f.head with
  | key name gap =>
      rw [hfollows (by rw [hhead]; rfl) hfeed] at hword
      cases hword
  | dash gap =>
      rw [hhead] at hfeed
      refine ⟨p, q ++ '-' :: gap, ?_, hp, ?_, ?_⟩
      · rw [← List.append_assoc, ← hsplit, Sheet.front, Frame.front, hhead]
        simp [Head.text, Head.mark, Head.gap]
      · simpa [hline, Head.gap] using hfeed
      · rw [Text.allBlank, List.all_append]
        simp only [List.all_cons, Bool.and_eq_false_iff]
        exact .inr (.inl rfl)

/-- **The first entry**, if it shares its line with what is in front of it. -/
theorem removes_shared {head : Head} {p q : Text}
    (h : source.IsSheet g (Sheet.plug (⟨[], head, some r⟩ :: fs) u))
    (hload : Editor.load source = .ok e) (hpath : e.snapshot.addressOf path =
      some ([0, 0] ++ Sheet.addr (⟨[], head, some r⟩ :: fs)))
    (hplace : g ++ Sheet.front fs = p ++ q) (hp : LineIndex.EndsLine p) (hq : '\n' ∉ q)
    (hshared : q.allBlank = false) :
    ∃ e' text, Editor.edit source (.delete path) = some (e, e', text) ∧
      e'.snapshot.outline = e.snapshot.outline.modify
        (Outline.eraseEntry (Frame.index ⟨[], head, some r⟩)) ([0, 0] ++ Sheet.addr fs) := by
  have he := h.snapshot_of_load hload
  rw [he] at hpath
  have hfill := h.fits.fill.of_plug
  obtain ⟨hrest, hkind⟩ : r.Fits (Sheet.columnIn (Text.columnBehind 0 g) fs) ∧
      r.isKey? = some head.isKey := by
    cases hfill with
    | more _ _ _ _ hkind hrest => exact ⟨hrest, hkind⟩
  have hsheet := h.fill.plug_collection (Frame.isWord_fill _ _) hrest rfl
  obtain ⟨splice, hplan, happly⟩ := Plan.delete_upTo h hpath rfl (Sheet.isWord_of_isKey? hkind)
    (p := p) (q := q) (by simpa using hplace) hp hq hshared
  have htext : g ++ (Sheet.plug fs r).text = g ++ Sheet.front fs ++ Entry.textOf [] ++
      (r.text ++ Sheet.back fs) := by
    rw [Sheet.text_plug]
    simp
  obtain ⟨e', hedit, he'⟩ := h.exists_edit hsheet hload (o := .delete path) hplan
    (happly.trans (congrArg Except.ok htext.symm))
  refine ⟨e', _, hedit, ?_⟩
  rw [he', he]
  exact Sheet.outline_snapshot_modify (u := Frame.fill _ u) (Sheet.outline_drop_first hfill)
    _ _ _ _ fs

/-- **The first entry of all**, if it starts a line. -/
theorem removes_at_start {head : Head} (h : source.IsSheet g (Sheet.plug [⟨[], head, some r⟩] u))
    (hload : Editor.load source = .ok e) (hpath : e.snapshot.addressOf path =
      some ([0, 0] ++ Sheet.addr [⟨[], head, some r⟩])) :
    ∃ e' text, Editor.edit source (.delete path) = some (e, e', text) ∧
      e'.snapshot.outline = e.snapshot.outline.modify
        (Outline.eraseEntry (Frame.index ⟨[], head, some r⟩)) [0, 0] := by
  have he := h.snapshot_of_load hload
  rw [he] at hpath
  have hfill := h.fits
  obtain ⟨hu, haligned, hrest⟩ : u.Fits (Text.columnBehind (Text.columnBehind 0 g) head.text) ∧
      Text.columnBehind 0 u.tail = Text.columnBehind 0 g ∧ r.Fits (Text.columnBehind 0 g) := by
    cases hfill with
    | more _ _ hu haligned _ hrest => exact ⟨hu, haligned, hrest⟩
  obtain ⟨x, y, htail, hx⟩ := Text.exists_cut hu.isBreak_tail.feed
  obtain ⟨w, n, hw, hmargin, hline⟩ := h.margin.exists_line
  have hcolumn : Text.columnBehind 0 (w ++ y) = Text.columnBehind 0 g := by
    rw [Text.columnBehind_endsLine hline, ← haligned, htail, Text.columnBehind_feed]
  have hsheet : (w ++ y ++ r.text).IsSheet (w ++ y) r :=
    ⟨rfl, hmargin.append ((htail ▸ hu.isBreak_tail).margin.cut hx).1, hcolumn ▸ hrest, h.ends⟩
  obtain ⟨splice, hplan, happly⟩ := Plan.delete_lines h hpath (p := w)
    (by simpa [Sheet.front] using hw) hline htail hx
  obtain ⟨e', hedit, he'⟩ := h.exists_edit hsheet hload (o := .delete path) hplan
    (happly.trans (by simp [Frame.back, Sheet.back]))
  refine ⟨e', _, hedit, ?_⟩
  rw [he', he]
  exact Sheet.outline_snapshot_modify (u := Frame.fill _ u) (Sheet.outline_drop_first hfill)
    _ _ _ _ []

/-- **The first entry of a collection below a head**, if it starts a line. A comment in the margin
behind it may not come behind a `-`. -/
theorem removes_below {head : Head}
    (h : source.IsSheet g (Sheet.plug (⟨[], head, some r⟩ :: f :: fs) u))
    (hload : Editor.load source = .ok e) (hpath : e.snapshot.addressOf path =
      some ([0, 0] ++ Sheet.addr (⟨[], head, some r⟩ :: f :: fs))) (hfeed : '\n' ∈ f.head.gap)
    (hcomment : ¬ e.snapshot.CommentBehind
      ([0, 0] ++ Sheet.addr (⟨[], head, some r⟩ :: f :: fs))) :
    ∃ e' text, Editor.edit source (.delete path) = some (e, e', text) ∧
      e'.snapshot.outline = e.snapshot.outline.modify
        (Outline.eraseEntry (Frame.index ⟨[], head, some r⟩)) ([0, 0] ++ Sheet.addr (f :: fs)) := by
  have he := h.snapshot_of_load hload
  rw [he] at hpath hcomment
  have hfill := h.fits.fill.of_plug
  obtain ⟨hu, haligned, hrest, hkind⟩ : u.Fits (Text.columnBehind
        (Sheet.columnIn (Text.columnBehind 0 g) (f :: fs)) head.text) ∧
      Text.columnBehind 0 u.tail = Sheet.columnIn (Text.columnBehind 0 g) (f :: fs) ∧
      r.Fits (Sheet.columnIn (Text.columnBehind 0 g) (f :: fs)) ∧ r.isKey? = some head.isKey := by
    cases hfill with
    | more _ _ hu haligned hkind hrest => exact ⟨hu, haligned, hrest, hkind⟩
  obtain ⟨x, y, htail, hx⟩ := Text.exists_cut hu.isBreak_tail.feed
  have hy := ((htail ▸ hu.isBreak_tail).margin.cut hx).1
  have hhead := (Frame.fits_of_fill h.fits.fill.fill.of_plug).1
  obtain ⟨w, n, hgap, hmargin, hline⟩ := hhead.margin.exists_line
  have hfeed' : '\n' ∈ w := by
    rw [hgap] at hfeed
    simpa [Text.spaces] using hfeed
  have hin : Sheet.columnIn (Text.columnBehind 0 g) (f :: fs) = n := by
    rw [Sheet.columnIn, Head.text, hgap, Text.columnBehind_line_of_feed hline hfeed',
      Text.columnBehind_spaces, Nat.zero_add]
  have hcolumn : Text.columnBehind 0 y = n := by
    rw [← hin, ← haligned, htail, Text.columnBehind_feed]
  have hfits := hhead.joined hgap hmargin hline hfeed' hy hcolumn fun _ hhash =>
    hcomment (h.commentBehind htail hx hy hhash)
  have hsheet := h.plug_head (f := f) (v := r) hfits (Head.isKey_withGap _ _) (by
      rw [Head.text_withGap, Text.columnBehind_line_of_feed hline hfeed', hcolumn, ← hin]
      exact hrest)
    (by
      intro _ hnone
      rw [Head.gap_withGap] at hnone
      exact absurd (List.mem_append_left _ hfeed') hnone) rfl
  have hplace : g ++ Sheet.front (f :: fs) ++ Entry.textOf [] =
      g ++ Sheet.front fs ++ Entry.textOf f.before ++ f.head.mark ++ w ++ Text.spaces n := by
    simp [Sheet.front, Frame.front, Head.text, hgap]
  obtain ⟨splice, hplan, happly⟩ :=
    Plan.delete_lines h hpath hplace (hline.append hfeed' _) htail hx
  have htext : g ++ (Sheet.plug ({ f with head := f.head.withGap (w ++ y) } :: fs) r).text =
      g ++ Sheet.front fs ++ Entry.textOf f.before ++ f.head.mark ++ w ++
        (y ++ (Frame.back ⟨[], head, some r⟩ ++ Sheet.back (f :: fs))) := by
    rw [Sheet.text_plug, Sheet.front, Frame.front, Head.text_withGap]
    simp [Sheet.back, Frame.back]
  obtain ⟨e', hedit, he'⟩ := h.exists_edit hsheet hload (o := .delete path) hplan
    (happly.trans (congrArg Except.ok htext.symm))
  refine ⟨e', _, hedit, ?_⟩
  rw [he', he]
  rw [Sheet.outline_snapshot, Sheet.outline_snapshot, Sheet.outline_plug_head
    (Head.isKey_withGap _ _) (Head.outlines_withGap _ _) fs (Frame.fill ⟨[], head, some r⟩ u),
    Sheet.outline_drop_first hfill, ← Outline.modify_eq_replace (Sheet.at?_plug (f :: fs) _)]
  rfl

end Text.IsSheet

/-- **An entry that is taken out of a collection of a sheet is gone**, if there are others: the
removal renders, and nothing else changes. Only behind the first entry there may be no comment,
which would come behind the `-` of the collection. -/
theorem delete_from_sheet_removes_entry {source g path : Text} {t : Sheet} {e : Editor}
    {a : Address}
    {i : Nat} {x : Outline} (h : source.IsSheet g t) (hload : Editor.load source = .ok e)
    (hpath : e.snapshot.addressOf path = some (a ++ [i]))
    (hx : e.snapshot.outline.at? a = some x) (hmore : ¬ x.OnlyEntry i)
    (hcomment : x.entryStart i = 0 → ¬ e.snapshot.CommentBehind (a ++ [i])) :
    ∃ e' text, Editor.edit source (.delete path) = some (e, e', text) ∧
      e.snapshot.outline.Removed a i e'.snapshot.outline := by
  suffices hedit : ∃ e' text, Editor.edit source (.delete path) = some (e, e', text) ∧
      e'.snapshot.outline = e.snapshot.outline.modify (Outline.eraseEntry i) a by
    obtain ⟨e', text, hedit, houtline⟩ := hedit
    exact ⟨e', text, hedit, houtline ▸ .entry hx hmore⟩
  have he := h.snapshot_of_load hload
  have hpath' := hpath
  rw [he] at hpath' hx
  obtain ⟨fs, u, rfl, ha⟩ := Sheet.exists_plug_of_addressOf h hpath'
  cases fs with
  | nil =>
      -- the document holds nothing else
      obtain ⟨rfl, hi⟩ := List.append_inj' (show a ++ [i] = [0] ++ [0] from ha) rfl
      obtain rfl := List.singleton_inj.mp hi
      rw [Sheet.outline_snapshot] at hx
      cases hx
      exact absurd rfl hmore
  | cons f fs =>
  rw [Sheet.addr, ← List.append_assoc] at ha
  obtain ⟨rfl, hi⟩ := List.append_inj' ha rfl
  obtain rfl : i = f.index := List.singleton_inj.mp hi
  have hfill := h.fits.fill.of_plug
  obtain rfl : (f.fill u).outline = x := by
    have := Sheet.at?_plug fs (f.fill u)
    rw [Sheet.outline_snapshot] at hx
    exact Option.some.inj (this.symm.trans hx)
  rw [List.append_assoc] at hpath hcomment
  obtain ⟨before, head, rest⟩ := f
  rcases List.eq_nil_or_concat' before with rfl | ⟨b, ⟨head', u'⟩, rfl⟩
  · cases rest with
    | none => exact absurd (by rw [Outline.OnlyEntry, Sheet.eraseEntry_fill hfill]; rfl) hmore
    | some r =>
    have hcomment := hcomment (by rw [Sheet.outline_fill_eq hfill]; cases head <;> rfl)
    cases fs with
    | nil => exact h.removes_at_start hload hpath
    | cons f fs =>
    by_cases hfeed : '\n' ∈ f.head.gap
    · exact h.removes_below hload hpath hfeed hcomment
    · obtain ⟨p, q, hplace, hp, hq, hshared⟩ :=
        h.fill.exists_shared (Frame.isWord_fill _ u) hfeed
      exact h.removes_shared hload hpath hplace hp hq hshared
  · exact h.removes_behind hload hpath

/-- The first item of a collection that shares its line with the `-` of another one. -/
theorem delete_from_sheet_removes_first_entry :
    ∃ e e' text,
      Editor.edit "- - a\n  - b\n- c\n".toList (.delete "0.0".toList) = some (e, e', text) ∧
      e.snapshot.outline.Removed [0, 0, 0] 0 e'.snapshot.outline := by
  obtain ⟨e, hload, hpath, hitems, hsource⟩ := Editor.exists_load "- - a\n  - b\n- c\n".toList
    (P := fun e => e.snapshot.addressOf "0.0".toList = some ([0, 0, 0] ++ [0]) ∧
      (e.snapshot.outline.at? [0, 0, 0]).map Outline.signs = some
        (Outline.group (.sequence .block) [.scalar "a".toList, .scalar "b".toList]).signs ∧
      '#' ∉ e.snapshot.source)
    (by decide +kernel)
  obtain ⟨x, hat, hx⟩ := Option.map_eq_some_iff.mp hitems
  obtain rfl := Outline.signs_injective hx
  obtain ⟨e', text, h⟩ := delete_from_sheet_removes_entry (g := [])
    (t := .more (.dash [' ']) (.more (.dash [' ']) (.word "a".toList "\n  ".toList)
        (.last (.dash [' ']) (.word "b".toList ['\n'])))
      (.last (.dash [' ']) (.word "c".toList ['\n'])))
    (by decide +kernel) hload hpath hat (List.cons_ne_nil (Outline.scalar "b".toList) [])
    (fun _ ⟨_, p, y, _, hy, _, hhash⟩ => hsource (hy ▸ List.mem_append_right p
      ((List.dropWhile_sublist _).mem ((List.dropWhile_sublist _).mem
        (List.mem_of_mem_head? hhash)))))
  exact ⟨e, e', text, h⟩

end YamlEdit
