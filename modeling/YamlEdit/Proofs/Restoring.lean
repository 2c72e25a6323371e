import YamlEdit.Proofs.Addition
import YamlEdit.Proofs.OffsetErrors
import YamlEdit.Proofs.Rendering

/-!
# Additions taken back

An addition to a collection that is not empty writes one entry, which is set apart from the others
by a comma or by lines of its own (`Setting`, `Plan.sets_of_adds`). A removal takes an entry out
with the comma next to it, with the lines that it stands on, or up to the next entry. Where the new
text says that there is one entry more (`Plan.Adds`), and its tree that the entry stands where it
has been put (`Plan.Stands`), the removal takes out what the addition has put in
(`Plan.delete_of_stands`), and the old text is back. Main statement: `delete_restores_text`.

An entry does not always stand so. A literal without lines ends where the next line starts, and the
next entry is taken out along with it.
-/

namespace YamlEdit

/-! ## The lines of a text in two parts -/

namespace Text

@[simp] theorem size_spaces (n : Nat) : size (spaces n) = n := by
  induction n with
  | zero => rfl
  | succ n ih =>
      show size (' ' :: spaces n) = _
      rw [size_cons, ih]
      exact Nat.add_comm 1 n

theorem count_spaces (n : Nat) : (spaces n).count '\n' = 0 := by
  rw [spaces, List.count_replicate]
  rfl

theorem count_lineFeed (t : Text) : (t ++ ['\n']).count '\n' = t.count '\n' + 1 :=
  List.count_append

theorem allBlank_spaces (n : Nat) : allBlank (spaces n) = true := by
  rw [allBlank, spaces, List.all_replicate]
  simp [isBlank]

theorem trimStart_spaces (n : Nat) (t : Text) : trimStart (spaces n ++ t) = trimStart t :=
  List.dropWhile_append_of_pos (List.all_eq_true.mp (allBlank_spaces n))

end Text

namespace LineIndex

theorem startsAfter_append (offset : Nat) (x y : Text) :
    startsAfter offset (x ++ y) =
      startsAfter offset x ++ startsAfter (offset + Text.size x) y := by
  induction x generalizing offset with
  | nil => rfl
  | cons c x ih =>
      have hoffset : offset + c.utf8Size + Text.size x = offset + Text.size (c :: x) := by
        rw [Text.size_cons]
        omega
      rw [List.cons_append, startsAfter, startsAfter, ih, hoffset]
      split <;> rfl

theorem length_startsAfter (offset : Nat) (x : Text) :
    (startsAfter offset x).length = x.count '\n' := by
  induction x generalizing offset with
  | nil => rfl
  | cons c x ih =>
      rw [startsAfter, List.count_cons]
      split
      · next hc => simp [hc, ih]
      · next hc => simp [hc, ih]

/-- Lines start behind where a text starts, and not behind its end. -/
theorem bounds_of_mem_startsAfter {offset n : Nat} {x : Text} (h : n ∈ startsAfter offset x) :
    offset < n ∧ n ≤ offset + Text.size x := by
  induction x generalizing offset with
  | nil => cases h
  | cons c x ih =>
      have hpos := c.utf8Size_pos
      have hrest : n ∈ startsAfter (offset + c.utf8Size) x →
          offset < n ∧ n ≤ offset + Text.size (c :: x) := by
        intro h
        obtain ⟨hlt, hle⟩ := ih h
        rw [Text.size_cons]
        omega
      rw [startsAfter] at h
      split at h
      · rcases List.mem_cons.mp h with rfl | h
        · rw [Text.size_cons]
          omega
        · exact hrest h
      · exact hrest h

/-- The lines that start at or before a place are in front of it. -/
theorem line_positionFrom {offset line start : Nat} {l l' : List Nat}
    (h : ∀ n ∈ l, n ≤ offset) (h' : ∀ n ∈ l', offset < n) :
    (positionFrom offset line start (l ++ l')).line = line + l.length := by
  induction l generalizing line start with
  | nil =>
      cases l' with
      | nil => rfl
      | cons next rest =>
          have hlt := h' next List.mem_cons_self
          rw [List.nil_append, positionFrom, if_neg (by omega)]
          rfl
  | cons next rest ih =>
      rw [List.cons_append, positionFrom, if_pos (h next List.mem_cons_self),
        ih fun n hn => h n (List.mem_cons_of_mem _ hn), List.length_cons]
      omega

/-- **The number of the line of a place** is that of the line feeds in front of it. -/
theorem line_position (x y : Text) :
    ((ofText (x ++ y)).position (Text.size x)).line = x.count '\n' := by
  have hmin : min (Text.size x) (ofText (x ++ y)).size = Text.size x := by
    refine Nat.min_eq_left ?_
    show Text.size x ≤ Text.size (x ++ y)
    rw [Text.size_append]
    omega
  unfold position
  rw [hmin]
  show (positionFrom (Text.size x) 0 0 (startsAfter 0 (x ++ y))).line = _
  rw [startsAfter_append, line_positionFrom, length_startsAfter, Nat.zero_add]
  · intro n hn
    have := bounds_of_mem_startsAfter hn
    omega
  · intro n hn
    have := bounds_of_mem_startsAfter hn
    omega

/-- Whether a line starts behind a text. -/
def EndsLine (x : Text) : Prop := x = [] ∨ ∃ front, x = front ++ ['\n']

/-- **A line starts behind the line feeds that are in front of it.** -/
theorem lineStart_count {x : Text} (h : EndsLine x) (y : Text) :
    (ofText (x ++ y)).lineStart (x.count '\n') = Text.size x := by
  unfold lineStart
  show (0 :: startsAfter 0 (x ++ y)).getD _ _ = _
  rcases h with rfl | ⟨front, rfl⟩
  · rfl
  · have hsize : Text.size (front ++ ['\n']) = Text.size front + 1 := by
      rw [Text.size_append]
      rfl
    have hstarts : startsAfter 0 (front ++ ['\n'] ++ y) =
        startsAfter 0 front ++ (Text.size front + 1) :: startsAfter (Text.size front + 1) y := by
      rw [startsAfter_append, startsAfter_append, hsize, List.append_assoc, Nat.zero_add,
        Nat.zero_add]
      rfl
    rw [Text.count_lineFeed, ← length_startsAfter 0 front, hstarts, hsize, List.getD_cons_succ,
      List.getD_eq_getElem?_getD,
      List.getElem?_append_right (Nat.le_refl _), Nat.sub_self]
    rfl

/-- The last line of a text. -/
theorem exists_line (x : Text) :
    ∃ front line, x = front ++ line ∧ EndsLine front ∧ line.count '\n' = 0 := by
  induction x with
  | nil => exact ⟨[], [], rfl, .inl rfl, rfl⟩
  | cons c x ih =>
      obtain ⟨front, line, rfl, hfront, hline⟩ := ih
      rcases hfront with rfl | ⟨front, rfl⟩
      · by_cases hc : c = '\n'
        · exact ⟨[c], line, rfl, .inr ⟨[], by rw [hc]; rfl⟩, hline⟩
        · exact ⟨[], c :: line, rfl, .inl rfl, by simp [hc, hline]⟩
      · exact ⟨c :: (front ++ ['\n']), line, rfl, .inr ⟨c :: front, rfl⟩, hline⟩

theorem exists_of_mem_startsAfter {offset n : Nat} {x : Text} (h : n ∈ startsAfter offset x) :
    ∃ front back, x = front ++ ['\n'] ++ back ∧ n = offset + Text.size (front ++ ['\n']) := by
  induction x generalizing offset with
  | nil => cases h
  | cons c x ih =>
      have hrest : n ∈ startsAfter (offset + c.utf8Size) x →
          ∃ front back, c :: x = front ++ ['\n'] ++ back ∧
            n = offset + Text.size (front ++ ['\n']) := by
        intro h
        obtain ⟨front, back, rfl, rfl⟩ := ih h
        refine ⟨c :: front, back, rfl, ?_⟩
        rw [List.cons_append, Text.size_cons]
        omega
      rw [startsAfter] at h
      split at h
      · next hc =>
          rcases List.mem_cons.mp h with rfl | h
          · exact ⟨[], x, by rw [hc]; rfl, by rw [hc]; rfl⟩
          · exact hrest h
      · exact hrest h

/-- **A line starts at the start of a text, behind a line feed, or at the end.** -/
theorem endsLine_lineStart {source : Text} (h : EndsLine source) (n : Nat) :
    EndsLine (source.upTo ((ofText source).lineStart n)) := by
  unfold lineStart
  show EndsLine (source.upTo ((0 :: startsAfter 0 source).getD n (Text.size source)))
  cases n with
  | zero =>
      left
      show source.upTo 0 = []
      cases source <;> rfl
  | succ n =>
      rw [List.getD_cons_succ, List.getD_eq_getElem?_getD]
      cases hget : (startsAfter 0 source)[n]? with
      | none =>
          have hall : source.upTo (Text.size source) = source := by
            have := Text.upTo_append source []
            rwa [List.append_nil] at this
          exact hall.symm ▸ h
      | some start =>
          obtain ⟨front, back, rfl, rfl⟩ :=
            exists_of_mem_startsAfter (List.mem_of_getElem? hget)
          right
          refine ⟨front, ?_⟩
          rw [Option.getD_some, Nat.zero_add, Text.upTo_append]

end LineIndex

namespace Snapshot

variable {source front line back : Text} {s : Snapshot}

theorem lines_eq (h : s.map = SourceMap.ofText source) : s.lines = LineIndex.ofText source := by
  rw [lines, h]
  rfl

/-- The line of a place starts behind the last line feed in front of it. -/
theorem lineStart_eq (h : s.map = SourceMap.ofText (front ++ line ++ back))
    (hfront : LineIndex.EndsLine front) (hline : line.count '\n' = 0) :
    s.lines.lineStart (s.lines.position (Text.size (front ++ line))).line = Text.size front := by
  rw [lines_eq h, LineIndex.line_position, List.count_append, hline, Nat.add_zero,
    List.append_assoc]
  exact LineIndex.lineStart_count hfront _

/-- **What is in front of a place on its line** ends the text in front of the place. -/
theorem linePrefix_eq (h : s.map = SourceMap.ofText (front ++ line ++ back))
    (hfront : LineIndex.EndsLine front) (hline : line.count '\n' = 0) :
    s.linePrefix (Text.size (front ++ line)) = .ok line := by
  have hsource : s.source = front ++ line ++ back := by
    rw [source, h]
    rfl
  unfold linePrefix
  rw [lineStart_eq h hfront hline, hsource]
  refine lift_offset_eq_ok.mpr (Text.slice_eq_ok.mpr ⟨front, back, rfl, rfl, ?_⟩)
  rw [Text.size_append]

end Snapshot

namespace Splice

variable {x y z : Text}

/-- **Putting something in the place of a part of a text.** -/
theorem apply_replace (content : Text) :
    (replace (Text.size x) (Text.size (x ++ y)) content).apply (x ++ (y ++ z)) =
      .ok (x ++ (content ++ z)) := by
  have hstop : (x ++ (y ++ z)).IsBoundary (Text.size (x ++ y)) := by
    rw [← List.append_assoc]
    exact Text.isBoundary_append
  obtain ⟨text, htext⟩ := (fits_replace (C := False) Text.isBoundary_append hstop).apply
  rw [htext, apply_eq htext]
  have hle : Text.size x ≤ Text.size (x ++ y) := by
    rw [Text.size_append]
    omega
  show Except.ok ((x ++ (y ++ z)).upTo (Text.size x) ++ content ++
    (x ++ (y ++ z)).onFrom (max (Text.size x) (Text.size (x ++ y)))) = _
  rw [Nat.max_eq_right hle, Text.upTo_append, ← List.append_assoc x y z, Text.onFrom_append,
    List.append_assoc]

/-- **Taking out a part of a text.** -/
theorem apply_remove :
    (remove (Text.size x) (Text.size (x ++ y))).apply (x ++ (y ++ z)) = .ok (x ++ z) :=
  apply_replace []

/-- Putting something into a text. -/
theorem written_insert : (insert (Text.size x) y).written (x ++ z) = x ++ (y ++ z) := by
  show (x ++ z).upTo (Text.size x) ++ y ++ (x ++ z).onFrom (Text.size x) = _
  rw [Text.upTo_append, Text.onFrom_append, List.append_assoc]

theorem apply_insert : (insert (Text.size x) y).apply (x ++ z) = .ok (x ++ (y ++ z)) := by
  obtain ⟨text, htext⟩ := (fits_insert (C := False) Text.isBoundary_append).apply
  rw [htext, apply_eq htext, written_insert]

end Splice

/-! ## Collections and their outlines -/

theorem Node.style?_of_group {n : Node} {bracket : Bracket} {style : Style} {l : List Outline}
    (h : n.outline = .group bracket l)
    (hbracket : bracket = .sequence style ∨ bracket = .mapping style) :
    n.kind.style? = some style := by
  obtain ⟨kind, start, stop, anchor, children⟩ := n
  rcases hbracket with rfl | rfl <;> cases kind <;> cases h <;> rfl

theorem Node.length_of_outline {n : Node} {bracket : Bracket} {l : List Outline}
    (h : n.outline = .group bracket l) : n.children.length = l.length := by
  rw [← Node.children_of_outline h, List.length_map]

/-- A collection of the outline is a node with as many children. -/
theorem Snapshot.exists_collection {s : Snapshot} {a : Address} {bracket : Bracket}
    {l : List Outline} (h : s.outline.at? a = some (.group bracket l)) :
    ∃ n, s.tree.root.descendant? a = some n ∧ n.outline = .group bracket l ∧
      n.children.length = l.length := by
  obtain ⟨n, hn, ho⟩ := Node.descendant?_of_at? h
  exact ⟨n, hn, ho, Node.length_of_outline ho⟩

/-- What a path leads to is a node. -/
theorem Snapshot.isNode_of_addressOf {source path : Text} {s : Snapshot} {a : Address}
    {x : Outline} (hread : Snapshot.ofText source = .ok s) (ha : s.addressOf path = some a)
    (hx : s.outline.at? a = some x) : x.IsNode := by
  obtain ⟨-, content, b, -, hcontent, -, -, rfl⟩ := addressOf_eq_some.mp ha
  obtain ⟨-, contents, hnodes, houtline⟩ := reading_eq hread
  have hmem : content ∈ contents := by
    rw [houtline] at hcontent
    cases contents with
    | nil => cases hcontent
    | cons o rest =>
        cases hcontent
        exact List.mem_cons_self
  rw [Outline.at?_append hcontent] at hx
  exact (hnodes content hmem).at? hx

/-! ## What an addition writes -/

/-- How the text of a new entry is set apart from the entries around it: by a comma behind it or in
front of it, on lines of its own, or by a line feed behind it, in front of an entry that shares its
line with something else. -/
inductive Setting where
  | commaBehind
  | commaBefore
  | lines (column : Nat)
  | inFrontOf (column : Nat)

/-- The text of an entry in its setting. -/
def Setting.around : Setting → Text → Text
  | .commaBehind, body => body ++ ", ".toList
  | .commaBefore, body => ", ".toList ++ body
  | .lines column, body => Text.spaces column ++ body ++ ['\n']
  | .inFrontOf column, body => body ++ ['\n'] ++ Text.spaces column

namespace Plan

/-- Where an entry is put into a collection that is not empty, so that its last child is number `i`,
and how it is set apart there. -/
inductive Sets (s : Snapshot) (parent : Node) (i place : Nat) : Setting → Prop where
  | commaBehind {next : Node} (hflow : parent.isFlow = true)
      (hnext : parent.children[i]? = some next) (hplace : place = s.startOf next) :
      Sets s parent i place .commaBehind
  | commaBefore {last : Node} (hflow : parent.isFlow = true)
      (hlast : parent.children.getLast? = some last) (hend : parent.children.length ≤ i)
      (hplace : place = s.stopOf last) : Sets s parent i place .commaBefore
  | lines {column : Nat} (hblock : parent.isFlow = false)
      (hline : LineIndex.EndsLine (s.source.upTo place)) : Sets s parent i place (.lines column)
  | inFrontOf {column : Nat} {before : Text} (hblock : parent.isFlow = false)
      (hbefore : s.linePrefix place = .ok before) (hshared : before.allBlank = false) :
      Sets s parent i place (.inFrontOf column)

section Settings

variable {source : Text} {s : Snapshot} {parent last : Node} {v : Value} {index : Option Nat}
  {key value : Fragment} {splice : Splice}

theorem itemLines_eq (column : Nat) (f : Fragment) :
    Block.itemLines column f = Setting.around (.lines column)
      ("- ".toList ++ f.indented (Indentation.nested column) false) := by
  simp [Block.itemLines, Setting.around]

theorem pairLines_eq (column : Nat) (key value : Fragment) :
    Block.pairLines column key value = Setting.around (.lines column) (key.text ++
      (if value.isContainer then
        ":\n".toList ++ value.indented (Indentation.nested column) true
      else ": ".toList ++ value.indented (Indentation.nested column) false)) := by
  simp [Block.pairLines, Setting.around]

/-- Behind the line of an entry, lines of a text that ends with a line feed start. -/
theorem sets_addLines (hs : s.Within source) (hfeed : LineIndex.EndsLine source)
    (hblock : parent.isFlow = false) (i column : Nat) (body : Text) :
    ∃ place, Block.addLines s last (Setting.around (.lines column) body) =
      Splice.insert place (Setting.around (.lines column) body) ∧
      Sets s parent i place (.lines column) := by
  refine ⟨s.lines.nextLineStart last.stop, ?_, .lines hblock ?_⟩
  · unfold Block.addLines Snapshot.insertAfterLine
    dsimp only
    rw [hs.source_eq, if_neg]
    rintro ⟨-, hnonempty, hlast⟩
    rcases hfeed with rfl | ⟨front, rfl⟩
    · cases hnonempty
    · exact hlast List.getLast?_concat
  · rw [hs.source_eq, LineIndex.nextLineStart, Snapshot.lines_eq hs.map]
    exact LineIndex.endsLine_lineStart hfeed _

/-- **A new item is set apart** in one of these ways. -/
theorem sets_of_putsIn (hs : s.Within source) (hfeed : LineIndex.EndsLine source)
    (hne : parent.children ≠ []) (h : PutsIn s parent v index splice) :
    ∃ place σ body, splice = Splice.insert place (σ.around body) ∧
      Sets s parent (Outline.insertionPlace index parent.children.length) place σ := by
  -- the place among the items, with an item there or behind all of them
  have hbefore : ∀ {next}, index.bind (parent.children[·]?) = some next →
      parent.children[Outline.insertionPlace index parent.children.length]? = some next := by
    intro next hnext
    obtain ⟨j, rfl, hj⟩ := Option.bind_eq_some_iff.mp hnext
    have hlt := (List.getElem?_eq_some_iff.mp hj).1
    rwa [Outline.insertionPlace, Option.getD_some, Nat.min_eq_left (Nat.le_of_lt hlt)]
  have hend : index.bind (parent.children[·]?) = none →
      parent.children.length ≤ Outline.insertionPlace index parent.children.length := by
    intro hnone
    cases index with
    | none => simp [Outline.insertionPlace]
    | some j =>
        have hle := List.getElem?_eq_none_iff.mp hnone
        simp [Outline.insertionPlace, hle]
  cases h with
  | @inFront next f hflow hf hinline hnext =>
      exact ⟨_, .commaBehind, _, rfl, .commaBehind hflow (hbefore hnext) rfl⟩
  | @behind last f hflow hf hinline hnext hlast =>
      exact ⟨_, .commaBefore, _, rfl, .commaBefore hflow hlast (hend hnext) rfl⟩
  | inside hflow hf hinline hempty => exact absurd hempty hne
  | @lineInFront next marker before f hblock hf hnext hmarker hprefix hblank =>
      refine ⟨_, .lines _, _, congrArg _ (itemLines_eq _ f), .lines hblock ?_⟩
      -- what is in front of the item on its line reaches to the start of the line
      unfold Snapshot.linePrefix at hprefix
      obtain ⟨x, z, -, hx, hsize⟩ := Text.slice_eq_ok.mp (lift_offset_eq_ok.mp hprefix)
      rw [← hsize, Nat.add_sub_cancel, hx, hs.source_eq, Snapshot.lines_eq hs.map]
      exact LineIndex.endsLine_lineStart hfeed _
  | @pushedDown next marker before f hblock hf hnext hmarker hprefix hshared =>
      refine ⟨_, .inFrontOf parent.start.column,
        "- ".toList ++ f.indented (Indentation.nested parent.start.column) false, ?_,
        .inFrontOf hblock hprefix hshared⟩
      have htrim : (Block.itemLines parent.start.column f).trimStart =
          "- ".toList ++ f.indented (Indentation.nested parent.start.column) false ++ ['\n'] := by
        rw [itemLines_eq, Setting.around, List.append_assoc, Text.trimStart_spaces]
        rfl
      rw [htrim]
      rfl
  | @lineBehind last f hblock hf hnext hlast =>
      rw [itemLines_eq]
      obtain ⟨place, hsplice, hsets⟩ := sets_addLines hs hfeed hblock _ _ _
      exact ⟨place, _, _, hsplice, hsets⟩

/-- **A new pair is set apart** in one of these ways. -/
theorem sets_of_putsPair (hs : s.Within source) (hfeed : LineIndex.EndsLine source)
    (hne : parent.children ≠ []) (h : PutsPair s parent key value splice) :
    ∃ place σ body, splice = Splice.insert place (σ.around body) ∧
      Sets s parent (parent.children.length + 1) place σ := by
  cases h with
  | behind hflow hinline hlast =>
      exact ⟨_, .commaBefore, _, rfl, .commaBefore hflow hlast (Nat.le_succ _) rfl⟩
  | inside hflow hinline hempty => exact absurd hempty hne
  | lineBehind hblock hfirst hlast =>
      rw [pairLines_eq]
      obtain ⟨place, hsplice, hsets⟩ := sets_addLines hs hfeed hblock _ _ _
      exact ⟨place, _, _, hsplice, hsets⟩

end Settings

/-! ## What has to come of it -/

/-- An addition to the collection at an address, which is not empty: the new text says that there is
one entry more, the last child of which is number `i`. -/
inductive Adds (before after : Snapshot) (a : Address) (i : Nat) : Operation → Prop where
  | item {path : Text} {v : Value} {index : Option Nat} {style : Style} {l : List Outline}
      {x : Outline} (hpath : before.addressOf path = some a)
      (hitems : before.outline.at? a = some (.group (.sequence style) l)) (hne : l ≠ [])
      (hplace : i = Outline.insertionPlace index l.length)
      (hnew : after.outline = before.outline.modify (Outline.insertChild i x) a) :
      Adds before after a i (.seqAdd path v index)
  | pair {path k : Text} {v : Value} {style : Style} {l : List Outline} {x : Outline}
      (hpath : before.addressOf path = some a)
      (hpairs : before.outline.at? a = some (.group (.mapping style) l)) (hne : l ≠ [])
      (hplace : i = l.length + 1)
      (hnew : after.outline =
        before.outline.modify (Outline.appendChildren [.scalar k, x]) a) :
      Adds before after a i (.mapAdd path k v)

/-- Whether an entry, its nodes being those from `first` to `last`, child number `i`, stands where
an addition has put its text, `body`: in brackets it starts and stops with that text; on lines of
its own it starts with it, and stops on the line on which it ends; and in front of an entry that
shares its line it starts with it, and the next entry behind what has been put in. -/
inductive StandsAt (s : Snapshot) (parent first last : Node) (i place : Nat) (body : Text) :
    Setting → Prop where
  | commaBehind (hstart : s.startOf first = place)
      (hstop : s.stopOf last = place + Text.size body)
      (hshared : Text.allBlank
        ((s.source.onFrom (s.stopOf last + 2)).takeWhile (· ≠ '\n')) = false) :
      StandsAt s parent first last i place body .commaBehind
  | commaBefore (hstart : s.startOf first = place + 2)
      (hstop : s.stopOf last = place + 2 + Text.size body) :
      StandsAt s parent first last i place body .commaBefore
  | lines {column : Nat} (hstart : Block.entryStart s parent first = .ok (place + column))
      (hstop : last.stop.line =
        (s.lines.position (place + column + Text.size body)).line) :
      StandsAt s parent first last i place body (.lines column)
  | inFrontOf {column : Nat} {next : Node} (hnext : parent.children[i + 1]? = some next)
      (hstart : Block.entryStart s parent first = .ok place)
      (hstop : Block.entryStart s parent next =
        .ok (place + Text.size (Setting.around (.inFrontOf column) body))) :
      StandsAt s parent first last i place body (.inFrontOf column)

/-- Whether the entry of the collection at an address whose last child is number `i` stands where an
addition has put it. -/
inductive Stands (s : Snapshot) (a : Address) (i place : Nat) (body : Text) (σ : Setting) :
    Prop where
  | mk {parent first last : Node} (hparent : s.tree.root.descendant? a = some parent)
      (hlast : parent.children[i]? = some last)
      (hfirst : (if parent.isMapping then parent.pairedKey i else .ok last) = .ok first)
      (h : StandsAt s parent first last i place body σ) : Stands s a i place body σ

/-- A collection before and after an entry has been put into it, the last child of which is number
`i`. -/
structure Grown (parent parent' : Node) (i : Nat) : Prop where
  style : ∃ style, parent.kind.style? = some style ∧ parent'.kind.style? = some style
  more : 1 < parent'.entryCount
  between : i < parent.children.length →
    (if parent'.isMapping then i / 2 else i) + 1 < parent'.entryCount
  atEnd : parent.children.length ≤ i →
    (if parent'.isMapping then i / 2 else i) + 1 = parent'.entryCount

section Growth

variable {source : Text} {s s' : Snapshot} {parent parent' : Node} {a : Address} {i : Nat}
  {o : Operation} {splice : Splice} {style : Style} {l l' : List Outline}

/-- A sequence with one item more. -/
theorem Grown.of_item (ho : parent.outline = .group (.sequence style) l)
    (ho' : parent'.outline = .group (.sequence style) l') (hne : l ≠ [])
    (hlength : l'.length = l.length + 1) (hle : i ≤ l.length) : Grown parent parent' i := by
  have hmapping : parent'.isMapping = false := by
    rw [← Node.isMapping_outline, ho']
    rfl
  have hchildren := Node.length_of_outline ho
  have hcount : parent'.entryCount = l.length + 1 := by
    rw [Node.entryCount, hmapping, Node.length_of_outline ho', hlength]
    rfl
  have hpos := List.length_pos_iff.mpr hne
  refine ⟨⟨style, Node.style?_of_group ho (.inl rfl), Node.style?_of_group ho' (.inl rfl)⟩,
    ?_, ?_, ?_⟩
  · omega
  · rw [hmapping, hcount, hchildren]
    exact fun hlt => Nat.succ_lt_succ hlt
  · rw [hmapping, hcount, hchildren]
    exact fun hend => congrArg _ (Nat.le_antisymm hle hend)

/-- A mapping with one pair more, behind the others. -/
theorem Grown.of_pair (ho : parent.outline = .group (.mapping style) l)
    (ho' : parent'.outline = .group (.mapping style) l') (hne : l ≠ [])
    (hlength : l'.length = l.length + 2) (hpaired : l.length % 2 = 0) :
    Grown parent parent' (l.length + 1) := by
  have hmapping : parent'.isMapping = true := Node.isMapping_of_outline ho'
  have hchildren := Node.length_of_outline ho
  have hcount : parent'.entryCount = (l.length + 2) / 2 := by
    rw [Node.entryCount, hmapping, Node.length_of_outline ho', hlength]
    rfl
  have hpos := List.length_pos_iff.mpr hne
  refine ⟨⟨style, Node.style?_of_group ho (.inr rfl), Node.style?_of_group ho' (.inr rfl)⟩,
    ?_, ?_, ?_⟩
  · omega
  · omega
  · rw [hmapping, hcount, if_pos rfl]
    omega

theorem ne_nil_of_length {x : List Node} {l : List Outline} (hne : l ≠ [])
    (hlength : x.length = l.length) : x ≠ [] := by
  rintro rfl
  exact hne (List.length_eq_zero_iff.mp hlength.symm)

/-- **What an addition writes**: one entry, set apart from the others. -/
theorem sets_of_adds (hread : Snapshot.ofText source = .ok s) (hfeed : LineIndex.EndsLine source)
    (hadds : Adds s s' a i o) (hplan : operation s o = .ok splice) :
    ∃ parent place σ body, s.tree.root.descendant? a = some parent ∧
      splice = Splice.insert place (σ.around body) ∧ Sets s parent i place σ := by
  have hs := Snapshot.within_of_ofText hread
  cases hadds with
  | item hpath hitems hne hplace hnew =>
      obtain ⟨sequence, hsequence, hputs⟩ := putsIn_of_seqAdd hread hpath hplan
      obtain ⟨n, hn, -, hlength⟩ := Snapshot.exists_collection hitems
      cases hn.symm.trans hsequence
      obtain ⟨place, σ, body, hsplice, hsets⟩ :=
        sets_of_putsIn hs hfeed (ne_nil_of_length hne hlength) hputs
      rw [hlength, ← hplace] at hsets
      exact ⟨sequence, place, σ, body, hsequence, hsplice, hsets⟩
  | pair hpath hpairs hne hplace hnew =>
      obtain ⟨hmapping, -, -, -, hputs⟩ := addsPair_of_mapAdd hread hpath hplan
      obtain ⟨n, hn, -, hlength⟩ := Snapshot.exists_collection hpairs
      cases hn.symm.trans hmapping
      obtain ⟨place, σ, body, hsplice, hsets⟩ :=
        sets_of_putsPair hs hfeed (ne_nil_of_length hne hlength) hputs
      rw [hlength, ← hplace] at hsets
      exact ⟨_, place, σ, body, hmapping, hsplice, hsets⟩

/-- **The collection with one entry more.** -/
theorem grown_of_adds (hread : Snapshot.ofText source = .ok s) (hadds : Adds s s' a i o)
    (hparent : s.tree.root.descendant? a = some parent) :
    ∃ parent', s'.tree.root.descendant? a = some parent' ∧ Grown parent parent' i := by
  have hmodify : ∀ {f x}, s.outline.at? a = some x → s'.outline = s.outline.modify f a →
      s'.outline.at? a = some (f x) := by
    intro f x hx hnew
    have := Outline.at?_modify_append (f := f) hx []
    rwa [List.append_nil, ← hnew] at this
  cases hadds with
  | @item path v index style l x hpath hitems hne hplace hnew =>
      obtain ⟨n, hn, ho, -⟩ := Snapshot.exists_collection hitems
      cases hn.symm.trans hparent
      obtain ⟨n', hn', ho', -⟩ := Snapshot.exists_collection (hmodify hitems hnew)
      have hle : i ≤ l.length := by
        rw [hplace, Outline.insertionPlace]
        exact Nat.min_le_right _ _
      have hlength : (l.take i ++ x :: l.drop i).length = l.length + 1 := by
        simp
        omega
      exact ⟨n', hn', .of_item ho ho' hne hlength hle⟩
  | @pair path k v style l x hpath hpairs hne hplace hnew =>
      obtain ⟨n, hn, ho, -⟩ := Snapshot.exists_collection hpairs
      cases hn.symm.trans hparent
      obtain ⟨n', hn', ho', -⟩ := Snapshot.exists_collection (hmodify hpairs hnew)
      have hpaired : l.length % 2 = 0 := by
        cases Snapshot.isNode_of_addressOf hread hpath hpairs with
        | mapping _ paired _ => exact paired
      subst hplace
      exact ⟨n', hn', .of_pair ho ho' hne List.length_append hpaired⟩

end Growth

section TakenBack

variable {source : Text} {s : Snapshot} {parent first last : Node} {index : Nat}
  {front content back : Text}

/-- An entry is taken out with the comma behind it. -/
theorem Flow.removeWithNext_eq (hs : s.Within (front ++ (content ++ ", ".toList ++ back)))
    (hshared : Text.allBlank (back.takeWhile (· ≠ '\n')) = false) :
    Flow.removeWithNext s (Text.size front) (Text.size (front ++ content)) =
      .ok (Splice.remove (Text.size front)
        (Text.size (front ++ (content ++ ", ".toList)))) := by
  obtain ⟨before, hbefore, -⟩ := hs.linePrefix Text.isBoundary_append
  have hrest : s.source.dropBytes (Text.size (front ++ content)) = .ok (", ".toList ++ back) := by
    rw [hs.source_eq, ← List.append_assoc, ← List.append_assoc,
      List.append_assoc (front ++ content)]
    exact Extent.dropBytes_append _ _
  have hline : Text.allBlank ((' ' :: back).takeWhile (· ≠ '\n')) = false := hshared
  have hafter : Flow.afterComma (", ".toList ++ back) = some (' ' :: back) := rfl
  have hcut : Text.size s.source - Text.size (' ' :: back) + 1 =
      Text.size (front ++ (content ++ ", ".toList)) := by
    rw [hs.source_eq]
    simp only [Text.size_append, Text.size_cons]
    show _ + (_ + 2 + _) - (1 + _) + 1 = _ + (_ + 2)
    omega
  unfold Flow.removeWithNext
  rw [hrest]
  dsimp only
  rw [hafter]
  dsimp only
  rw [hbefore, ok_bind, if_neg (fun h => nomatch h.2.2.symm.trans hline),
    if_pos (List.head?_cons), hcut]
  rfl

/-- An entry is taken out with the comma in front of it. -/
theorem Flow.removeLast_eq (hs : s.Within (front ++ (", ".toList ++ content ++ back))) :
    Flow.removeLast s (Text.size (front ++ ", ".toList))
        (Text.size (front ++ (", ".toList ++ content))) =
      .ok (Splice.remove (Text.size front)
        (Text.size (front ++ (", ".toList ++ content)))) := by
  have htaken : s.source.takeBytes (Text.size (front ++ ", ".toList)) =
      .ok (front ++ ", ".toList) :=
    Text.takeBytes_eq_ok.mpr ⟨content ++ back, by rw [hs.source_eq]; simp, rfl⟩
  have htrim : Text.trimEnd (front ++ ", ".toList) = front ++ [','] := by
    simp [Text.trimEnd, Text.isBlank]
  unfold Flow.removeLast
  rw [htaken]
  show (if (Text.trimEnd (front ++ ", ".toList)).getLast? = some ',' then _ else _) = _
  rw [htrim, if_pos (List.getLast?_concat), Text.size_append front [',']]
  rfl

/-- An entry that another one follows on the line is taken out. -/
theorem Flow.remove_between (hs : s.Within (front ++ (content ++ ", ".toList ++ back)))
    (hmore : 1 < parent.entryCount) (hnumber : index + 1 < parent.entryCount)
    (hstart : s.startOf first = Text.size front)
    (hstop : s.stopOf last = Text.size front + Text.size content)
    (hshared : Text.allBlank
      ((s.source.onFrom (s.stopOf last + 2)).takeWhile (· ≠ '\n')) = false) :
    Flow.remove s parent first last index =
      .ok (Splice.remove (Text.size front)
        (Text.size (front ++ (content ++ ", ".toList)))) := by
  rw [← Text.size_append] at hstop
  have hback : s.source.onFrom (s.stopOf last + 2) = back := by
    have hsize : s.stopOf last + 2 = Text.size (front ++ content ++ ", ".toList) := by
      rw [hstop, Text.size_append (front ++ content)]
      rfl
    rw [hsize, hs.source_eq, ← List.append_assoc, ← List.append_assoc]
    exact Text.onFrom_append _ _
  rw [hback] at hshared
  unfold Flow.remove
  dsimp only
  rw [if_neg (by omega), if_pos hnumber, hstart, hstop]
  exact Flow.removeWithNext_eq hs hshared

/-- The last entry is taken out. -/
theorem Flow.remove_atEnd (hs : s.Within (front ++ (", ".toList ++ content ++ back)))
    (hmore : 1 < parent.entryCount) (hnumber : index + 1 = parent.entryCount)
    (hstart : s.startOf first = Text.size front + 2)
    (hstop : s.stopOf last = Text.size front + 2 + Text.size content) :
    Flow.remove s parent first last index =
      .ok (Splice.remove (Text.size front)
        (Text.size (front ++ (", ".toList ++ content)))) := by
  have hstart' : s.startOf first = Text.size (front ++ ", ".toList) := by
    rw [hstart, Text.size_append]
    rfl
  have hstop' : s.stopOf last = Text.size (front ++ (", ".toList ++ content)) := by
    rw [hstop, ← List.append_assoc, Text.size_append, Text.size_append]
    rfl
  unfold Flow.remove
  dsimp only
  rw [if_neg (by omega), if_neg (by omega), hstart', hstop']
  exact Flow.removeLast_eq hs

/-- An entry is taken out with the lines that it stands on. -/
theorem Block.remove_lines {column : Nat}
    (hs : s.Within (front ++ (Text.spaces column ++ content ++ ['\n'] ++ back)))
    (hline : LineIndex.EndsLine front)
    (hstart : Block.entryStart s parent first = .ok (Text.size front + column))
    (hstop : last.stop.line =
      (s.lines.position (Text.size front + column + Text.size content)).line) :
    Block.remove s parent first last index =
      .ok (Splice.remove (Text.size front)
        (Text.size (front ++ (Text.spaces column ++ content ++ ['\n'])))) := by
  have hplace : Text.size front + column = Text.size (front ++ Text.spaces column) := by
    rw [Text.size_append, Text.size_spaces]
  -- the first line starts where the lines have been put
  have hs' : s.Within (front ++ Text.spaces column ++ (content ++ ['\n'] ++ back)) := by
    simpa using hs
  have hfirst := Snapshot.lineStart_eq hs'.map hline (Text.count_spaces column)
  have hprefix := Snapshot.linePrefix_eq hs'.map hline (Text.count_spaces column)
  rw [← hplace] at hfirst hprefix
  -- and the line behind the last one where they end
  have hnext : s.lines.nextLineStart last.stop =
      Text.size (front ++ (Text.spaces column ++ content ++ ['\n'])) := by
    have hlines : s.lines =
        LineIndex.ofText (front ++ Text.spaces column ++ content ++ (['\n'] ++ back)) := by
      simpa using Snapshot.lines_eq hs.map
    have hstop' : last.stop.line + 1 =
        (front ++ Text.spaces column ++ content ++ ['\n']).count '\n' := by
      rw [hstop, hlines, hplace, ← Text.size_append, LineIndex.line_position,
        Text.count_lineFeed]
    have hends : LineIndex.EndsLine (front ++ Text.spaces column ++ content ++ ['\n']) :=
      .inr ⟨_, rfl⟩
    rw [LineIndex.nextLineStart, hstop', hlines, ← List.append_assoc,
      LineIndex.lineStart_count hends]
    simp
  unfold Block.remove
  rw [hstart, ok_bind, hprefix, ok_bind, if_pos (Text.allBlank_spaces column)]
  dsimp only
  rw [hfirst, hnext]
  rfl

/-- An entry is taken out up to the next one. -/
theorem Block.remove_upTo {before : Text} {next : Node}
    (hbefore : s.linePrefix (Text.size front) = .ok before) (hshared : before.allBlank = false)
    (hnext : parent.children[index + 1]? = some next)
    (hstart : Block.entryStart s parent first = .ok (Text.size front))
    (hstop : Block.entryStart s parent next = .ok (Text.size front + Text.size content)) :
    Block.remove s parent first last index =
      .ok (Splice.remove (Text.size front) (Text.size (front ++ content))) := by
  unfold Block.remove
  rw [hstart, ok_bind, hbefore, ok_bind, if_neg (by simp [hshared]), hnext]
  dsimp only
  rw [hstop, ok_bind, Text.size_append]
  rfl

/-- The text in front of a place on its line depends on what is in front of the place only. -/
theorem linePrefix_of_same_front {s s' : Snapshot} {back' before : Text}
    (hs : s.Within (front ++ back)) (hs' : s'.Within (front ++ back'))
    (h : s.linePrefix (Text.size front) = .ok before) :
    s'.linePrefix (Text.size front) = .ok before := by
  obtain ⟨x, line, rfl, hx, hline⟩ := LineIndex.exists_line front
  rw [Snapshot.linePrefix_eq hs.map hx hline] at h
  rw [Snapshot.linePrefix_eq hs'.map hx hline]
  exact h

/-- **An entry that stands where it has been put is taken out again**, with what has been put in
around it. -/
theorem remove_of_standsAt {s s' : Snapshot} {parent parent' : Node} {i : Nat} {body : Text}
    {σ : Setting} (hs : s.Within (front ++ back))
    (hs' : s'.Within (front ++ (σ.around body ++ back)))
    (hsets : Sets s parent i (Text.size front) σ) (hgrown : Grown parent parent' i)
    (h : StandsAt s' parent' first last i (Text.size front) body σ) :
    (if parent'.isFlow then
      Flow.remove s' parent' first last (if parent'.isMapping then i / 2 else i)
    else Block.remove s' parent' first last i) =
      .ok (Splice.remove (Text.size front) (Text.size (front ++ σ.around body))) := by
  have hstyle : parent'.isFlow = parent.isFlow := by
    obtain ⟨style, hold, hnew⟩ := hgrown.style
    simp only [Node.isFlow, Kind.isFlow, hold, hnew]
  cases hsets with
  | commaBehind hflow hnext hplace =>
      cases h with
      | commaBehind hstart hstop hshared =>
          rw [if_pos (hstyle.trans hflow)]
          exact Flow.remove_between hs' hgrown.more
            (hgrown.between (List.getElem?_eq_some_iff.mp hnext).1) hstart hstop hshared
  | commaBefore hflow hlast hend hplace =>
      cases h with
      | commaBefore hstart hstop =>
          rw [if_pos (hstyle.trans hflow)]
          exact Flow.remove_atEnd hs' hgrown.more (hgrown.atEnd hend) hstart hstop
  | lines hblock hline =>
      cases h with
      | lines hstart hstop =>
          rw [hs.source_eq, Text.upTo_append] at hline
          rw [if_neg (by simp [hstyle, hblock])]
          exact Block.remove_lines hs' hline hstart hstop
  | inFrontOf hblock hbefore hshared =>
      cases h with
      | inFrontOf hnext hstart hstop =>
          rw [if_neg (by simp [hstyle, hblock])]
          exact Block.remove_upTo (linePrefix_of_same_front hs hs' hbefore) hshared hnext hstart
            hstop

/-- **The removal of an entry that stands where it has been put** takes out what has been put in. -/
theorem delete_of_stands {s s' : Snapshot} {path body : Text} {a : Address} {i : Nat}
    {parent : Node} {σ : Setting} (hread : Snapshot.ofText (front ++ back) = .ok s)
    (hread' : Snapshot.ofText (front ++ (σ.around body ++ back)) = .ok s')
    (hpath : s'.addressOf path = some (a ++ [i]))
    (hsets : Sets s parent i (Text.size front) σ)
    (hgrown : ∃ parent', s'.tree.root.descendant? a = some parent' ∧ Grown parent parent' i)
    (hstands : Stands s' a i (Text.size front) body σ) :
    delete s' path =
      .ok (Splice.remove (Text.size front) (Text.size (front ++ σ.around body))) := by
  obtain ⟨parent', hparent, hgrown⟩ := hgrown
  obtain ⟨style, -, hstyle⟩ := hgrown.style
  have hentry : s'.entryStyle? (a ++ [i]) = some style := by
    rw [Snapshot.entryStyle?, List.dropLast_concat, hparent]
    exact hstyle
  obtain ⟨target, _, hresolve, hentry, hparent', hlast⟩ :=
    Snapshot.child_of_addressOf hread' hpath hentry .delete
  cases hparent'.symm.trans hparent
  obtain ⟨hparent', hlast', hfirst, hstands⟩ := hstands
  cases hparent'.symm.trans hparent
  cases hlast'.symm.trans hlast
  rw [delete_eq hresolve hentry hfirst]
  exact remove_of_standsAt (Snapshot.within_of_ofText hread) (Snapshot.within_of_ofText hread')
    hsets hgrown hstands

end TakenBack

end Plan

/-- An operation that has a plan whose splice makes a text that can be read is an edit. -/
theorem Editor.exists_edit_of_apply {source text : Text} {s s' : Snapshot} {o : Operation}
    {splice : Splice} (hread : Snapshot.ofText source = .ok s)
    (hplan : Plan.operation s o = .ok splice) (happly : splice.apply source = .ok text)
    (hread' : Snapshot.ofText text = .ok s') :
    ∃ e e', Editor.edit source o = some (e, e', text) ∧ e.snapshot = s ∧ e'.snapshot = s' := by
  have hload : Editor.load source = .ok ⟨source, s, [], .idle⟩ := by
    rw [Editor.load, hread]
    rfl
  have happly' : Editor.apply s o = .ok s' := by
    rw [Editor.apply, hplan, ok_bind, Snapshot.source_of_ofText hread, happly]
    exact hread'
  refine ⟨⟨source, s, [], .idle⟩, ⟨source, s', [], .idle⟩,
    edit_eq_some.mpr ⟨hload, ?_⟩, rfl, rfl⟩
  rw [render_one (resting_of_load hload)]
  dsimp only
  rw [happly']
  dsimp only
  rw [Snapshot.source_of_ofText hread']

/-- **What an addition has put in can be taken out again**: an addition writes one entry, set apart
from the others, and where the tree of the new text says that the entry stands there, its removal
gives the old text back, to the last byte. -/
theorem delete_restores_text {source text path : Text} {e e' : Editor} {o : Operation}
    {a : Address} {i : Nat} (hedit : Editor.edit source o = some (e, e', text))
    (hfeed : LineIndex.EndsLine source) (hadds : Plan.Adds e.snapshot e'.snapshot a i o)
    (hpath : e'.snapshot.addressOf path = some (a ++ [i])) :
    ∃ parent place σ body, e.snapshot.tree.root.descendant? a = some parent ∧
      Plan.Sets e.snapshot parent i place σ ∧
      Plan.operation e.snapshot o = .ok (Splice.insert place (σ.around body)) ∧
      (Plan.Stands e'.snapshot a i place body σ →
        ∃ d d', Editor.edit text (.delete path) = some (d, d', source) ∧
          d.snapshot = e'.snapshot ∧ d'.snapshot = e.snapshot) := by
  obtain ⟨splice, hplan, htext, hread, hread'⟩ := Editor.splice_of_edit hedit
  obtain ⟨parent, place, σ, body, hparent, rfl, hsets⟩ :=
    Plan.sets_of_adds hread hfeed hadds hplan
  refine ⟨parent, place, σ, body, hparent, hsets, hplan, fun hstands => ?_⟩
  obtain ⟨front, back, rfl, hplace⟩ :=
    ((yields_iff.mp ((Snapshot.within_of_ofText hread).operation o)).1 _ hplan).start
  obtain rfl : Text.size front = place := hplace
  rw [Splice.written_insert] at htext
  subst htext
  have hdelete := Plan.delete_of_stands hread hread' hpath hsets
    (Plan.grown_of_adds hread hadds hparent) hstands
  exact Editor.exists_edit_of_apply (o := .delete path) hread' hdelete Splice.apply_remove hread

/-- An item behind another one in brackets is taken out again. -/
theorem delete_restores_text_in_brackets :
    ∃ e e' text parent place σ body d d',
      Editor.edit "[a]\n".toList (.seqAdd [] (.string "x".toList) none) = some (e, e', text) ∧
      text = "[a, x]\n".toList ∧ LineIndex.EndsLine "[a]\n".toList ∧
      Plan.Adds e.snapshot e'.snapshot [0, 0] 1 (.seqAdd [] (.string "x".toList) none) ∧
      e'.snapshot.addressOf "1".toList = some ([0, 0] ++ [1]) ∧
      Plan.Sets e.snapshot parent 1 place σ ∧
      Plan.Stands e'.snapshot [0, 0] 1 place body σ ∧
      Editor.edit text (.delete "1".toList) = some (d, d', "[a]\n".toList) := by
  obtain ⟨e, e', text, hedit, hsplice, htext, hpath, hitems, hnew⟩ :=
    Editor.exists_edit "[a]\n".toList (.seqAdd [] (.string "x".toList) none)
    (P := fun e e' text =>
      (Plan.operation e.snapshot (.seqAdd [] (.string "x".toList) none)).toOption =
        some (Splice.insert 2 ", x".toList) ∧
      text = "[a, x]\n".toList ∧ e.snapshot.addressOf [] = some [0, 0] ∧
      (e.snapshot.outline.at? [0, 0]).map Outline.signs =
        some (Outline.group (.sequence .flow) [.scalar "a".toList]).signs ∧
      e'.snapshot.outline.signs = (e.snapshot.outline.modify
        (Outline.insertChild 1 (.scalar "x".toList)) [0, 0]).signs)
    (by decide +kernel)
  obtain ⟨e₂, e₂', text₂, hedit₂, hpath', parent', hparent', last, hlast, hmapping, hstart,
      hstop⟩ :=
    Editor.exists_edit "[a]\n".toList (.seqAdd [] (.string "x".toList) none)
    (P := fun _ e' _ => e'.snapshot.addressOf "1".toList = some ([0, 0] ++ [1]) ∧
      ∃ parent ∈ e'.snapshot.tree.root.descendant? [0, 0], ∃ last ∈ parent.children[1]?,
        parent.isMapping = false ∧ e'.snapshot.startOf last = 4 ∧ e'.snapshot.stopOf last = 5)
    (by decide +kernel)
  cases hedit₂.symm.trans hedit
  obtain ⟨x, hx, hxsigns⟩ := Option.map_eq_some_iff.mp hitems
  rw [Outline.signs_injective hxsigns] at hx
  have hadds : Plan.Adds e.snapshot e'.snapshot [0, 0] 1
      (.seqAdd [] (.string "x".toList) none) :=
    .item hpath hx (List.cons_ne_nil _ _) rfl (Outline.signs_injective hnew)
  have hfeed : LineIndex.EndsLine "[a]\n".toList := .inr ⟨"[a]".toList, rfl⟩
  obtain ⟨parent, place, σ, body, hparent, hsets, hplan, hrestores⟩ :=
    delete_restores_text hedit hfeed hadds hpath'
  have hsplice := Except.ok.inj (hplan.symm.trans (toOption_eq_some.mp hsplice))
  obtain rfl : place = 2 := congrArg Splice.start hsplice
  have hcontent : σ.around body = ", x".toList := congrArg Splice.content hsplice
  obtain ⟨n, hn, ho, hlength⟩ := Snapshot.exists_collection hx
  cases hn.symm.trans hparent
  have hflow : parent.isFlow = true := by
    simp [Node.isFlow, Kind.isFlow, Node.style?_of_group ho (.inl rfl)]
  have hfirst : (if parent'.isMapping then parent'.pairedKey 1 else .ok last) = .ok last := by
    rw [hmapping]
    rfl
  -- there is no item behind the new one, which is written with a comma in front of it
  have hstands : Plan.Stands e'.snapshot [0, 0] 1 2 body σ := by
    refine .mk hparent' hlast hfirst ?_
    cases hsets with
    | commaBehind _ hnext _ =>
        obtain ⟨hlt, -⟩ := List.getElem?_eq_some_iff.mp hnext
        rw [hlength] at hlt
        cases hlt with
        | step h => cases h
    | commaBefore _ _ _ _ =>
        obtain rfl : body = "x".toList := List.append_cancel_left hcontent
        exact .commaBefore hstart hstop
    | lines hblock _ => cases hblock.symm.trans hflow
    | inFrontOf hblock _ _ => cases hblock.symm.trans hflow
  obtain ⟨d, d', hdelete, -, -⟩ := hrestores hstands
  exact ⟨e, e', text, parent, 2, σ, body, d, d', hedit, htext, hfeed, hadds, hpath', hsets,
    hstands, hdelete⟩

/-- A string of one line feed is put in as a literal without lines, which ends where the next line
starts: the next item is taken out with it. -/
theorem delete_takes_next_item_along :
    ∃ e e' text d d',
      Editor.edit "- a\n- b\n".toList (.seqAdd [] (.string "\n".toList) (some 1)) =
        some (e, e', text) ∧
      e'.snapshot.addressOf "1".toList = some ([0, 0] ++ [1]) ∧
      Editor.edit text (.delete "1".toList) = some (d, d', "- a\n".toList) := by
  obtain ⟨e, e', text, hedit, hpath, htext⟩ :=
    Editor.exists_edit "- a\n- b\n".toList (.seqAdd [] (.string "\n".toList) (some 1))
    (P := fun _ e' text => e'.snapshot.addressOf "1".toList = some ([0, 0] ++ [1]) ∧
      text = "- a\n- |2+\n- b\n".toList)
    (by decide +kernel)
  obtain ⟨d, d', text', hdelete, rfl⟩ :=
    Editor.exists_edit "- a\n- |2+\n- b\n".toList (.delete "1".toList)
    (P := fun _ _ text' => text' = "- a\n".toList)
    (by decide +kernel)
  exact ⟨e, e', text, d, d', hedit, hpath, htext ▸ hdelete⟩

end YamlEdit
