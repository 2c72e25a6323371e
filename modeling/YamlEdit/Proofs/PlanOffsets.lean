import YamlEdit.Proofs.InternalErrors
import YamlEdit.Proofs.Planning
import YamlEdit.Proofs.Removal
import YamlEdit.Proofs.TreeOffsets

/-!
# Where planners cut

Planners take the places of nodes from the tree, and lines from the line index. All of them are
boundaries of the text, and so is what planners make of them: they step over characters of one byte
only, or by the size of a text that stands there. So a planner fails at an offset only in the search
for the dash of an item (`Plan.Stumbles`), and its splice starts and stops at boundaries
(`Snapshot.Within.operation`).
-/

namespace YamlEdit

open EditError (Result)

/-! ## Lines -/

namespace LineIndex

theorem isBoundary_of_mem_startsAfter {x y : Text} {n : Nat}
    (h : n ∈ startsAfter (Text.size x) y) : (x ++ y).IsBoundary n := by
  induction y generalizing x with
  | nil => cases h
  | cons c y ih =>
      have htext : x ++ c :: y = (x ++ [c]) ++ y := by simp
      rw [startsAfter, ← Text.size_concat] at h
      rw [htext]
      split at h
      · rcases List.mem_cons.mp h with rfl | h
        · exact Text.isBoundary_append
        · exact ih h
      · exact ih h

/-- **Lines start at boundaries.** -/
theorem isBoundary_lineStart (source : Text) (line : Nat) :
    source.IsBoundary ((ofText source).lineStart line) := by
  rw [lineStart, List.getD_eq_getElem?_getD]
  cases hline : (ofText source).lineStarts[line]? with
  | none => exact source.isBoundary_size
  | some n =>
      rcases List.mem_cons.mp (List.mem_of_getElem? hline) with rfl | hn
      · exact source.isBoundary_zero
      · exact isBoundary_of_mem_startsAfter (x := []) hn

/-- The line of a place starts at or before the place. -/
theorem lineStart_position_le {source : Text} {place : Nat} (h : place ≤ Text.size source) :
    (ofText source).lineStart ((ofText source).position place).line ≤ place := by
  obtain ⟨k, start, hposition, hstart, hle, -⟩ := position_eq h
  rw [hposition, lineStart, List.getD_eq_getElem?_getD, hstart]
  exact hle

end LineIndex

/-! ## Snapshots of texts -/

/-- A snapshot of a text, the nodes of its tree being within the text. -/
structure Snapshot.Within (source : Text) (s : Snapshot) : Prop where
  map : s.map = SourceMap.ofText source
  nodes : s.tree.root.All (Node.Within source)
  sound : s.Sound

/-- Whether an error of an edit shows a bad offset, which is possible only if `C` holds. -/
def EditError.OffsetOnlyIf (C : Prop) (e : EditError) : Prop := ∀ b, e = .badOffset b → C

theorem Snapshot.within_of_ofText {source : Text} {s : Snapshot}
    (h : Snapshot.ofText source = .ok s) : s.Within source := by
  have hsound := Snapshot.sound_of_ofText h
  obtain ⟨events, root, -, hroot, rfl⟩ := Snapshot.ofText_eq_ok h
  exact ⟨rfl, Node.within_of_ofEvents hroot, hsound⟩

namespace Snapshot.Within

variable {source : Text} {s : Snapshot} {n : Node} {place : Nat}

theorem source_eq (hs : s.Within source) : s.source = source := by
  rw [Snapshot.source, hs.map]
  rfl

theorem node (hs : s.Within source) (h : s.tree.Holds n) : n.Within source := by
  obtain ⟨a, ha⟩ := h
  exact (hs.nodes.descendant? ha).here

theorem startOf (hs : s.Within source) (h : s.tree.Holds n) :
    source.IsBoundary (s.startOf n) := by
  rw [Snapshot.startOf, Snapshot.offset, hs.map]
  exact (hs.node h).start

theorem stopOf (hs : s.Within source) (h : s.tree.Holds n) : source.IsBoundary (s.stopOf n) := by
  rw [Snapshot.stopOf, Snapshot.offset, hs.map]
  exact (hs.node h).stop

theorem lineStart (hs : s.Within source) (line : Nat) :
    source.IsBoundary (s.lines.lineStart line) := by
  rw [Snapshot.lines, hs.map]
  exact LineIndex.isBoundary_lineStart source line

theorem nextLineStart (hs : s.Within source) (p : Position) :
    source.IsBoundary (s.lines.nextLineStart p) :=
  hs.lineStart _

/-- The text in front of a place on its line can be taken. -/
theorem linePrefix (hs : s.Within source) (h : source.IsBoundary place) :
    ∃ before, s.linePrefix place = .ok before ∧ source.IsBoundary (place - Text.size before) := by
  obtain ⟨before, hbefore⟩ := Text.slice_of_isBoundary
    (hs.lineStart (s.lines.position place).line) h (by
      rw [Snapshot.lines, hs.map]
      exact LineIndex.lineStart_position_le h.le_size)
  refine ⟨before, ?_, ?_⟩
  · unfold Snapshot.linePrefix
    rw [hs.source_eq, hbefore]
    rfl
  · obtain ⟨x, z, hsource, hx, hplace⟩ := Text.slice_eq_ok.mp hbefore
    rw [← hplace, Nat.add_sub_cancel, hsource, List.append_assoc]
    exact Text.isBoundary_append

end Snapshot.Within

/-! ## Splices -/

/-- A splice that starts at a boundary. It stops at one as well; if `C` holds, it only does not stop
behind the end of the text. -/
structure Splice.Fits (C : Prop) (source : Text) (splice : Splice) : Prop where
  start : source.IsBoundary splice.start
  finish : source.IsBoundary splice.finish ∨ C ∧ splice.finish ≤ Text.size source

namespace Splice

section Fits

variable {C : Prop} {source content : Text} {start stop : Nat}

theorem fits_replace (hstart : source.IsBoundary start) (hstop : source.IsBoundary stop) :
    (Splice.replace start stop content).Fits C source :=
  ⟨hstart, .inl (hstart.max hstop)⟩

theorem fits_remove (hstart : source.IsBoundary start) (hstop : source.IsBoundary stop) :
    (Splice.remove start stop).Fits C source :=
  fits_replace hstart hstop

theorem fits_insert (hstart : source.IsBoundary start) :
    (Splice.insert start content).Fits C source :=
  ⟨hstart, .inl hstart⟩

end Fits

end Splice

namespace Plan

/-- The searches for a dash when an entry of a block collection is taken out: for that of the entry
itself, and, if the entry shares its line, for that of the one behind it. -/
inductive Block.StumblesOn (s : Snapshot) (parent first : Node) (index : Nat) : Prop where
  | entry (sequence : parent.isMapping = false)
      (lost : Extent.DashLostAt s.source (s.startOf first))
  | next {place : Nat} {before : Text} {follower : Node} (sequence : parent.isMapping = false)
      (start : Block.entryStart s parent first = .ok place)
      (line : s.linePrefix place = .ok before) (shared : before.allBlank = false)
      (next : parent.children[index + 1]? = some follower)
      (lost : Extent.DashLostAt s.source (s.startOf follower))

/-- An operation on an item of a block sequence, the search for whose dash stumbles. -/
inductive Stumbles (s : Snapshot) : Operation → Prop where
  | delete {path : Text} {target : Target} {parent : Node} {index : Nat}
      (reach : s.resolve path = .ok target) (entry : target.entry .delete = .ok (parent, index))
      (block : parent.isFlow = false) (sequence : parent.isMapping = false)
      (lost : Block.StumblesOn s parent target.node index) : Stumbles s (.delete path)
  | seqAdd {path : Text} {value : Value} {index : Option Nat} {target : Target} {f : Fragment}
      {follower : Node} (reach : s.resolve path = .ok target)
      (sequence : target.node.isSequence = true) (block : target.node.isFlow = false)
      (written : Fragment.ofValue value = .ok f)
      (next : index.bind (target.node.children[·]?) = some follower)
      (lost : Extent.DashLostAt s.source (s.startOf follower)) :
      Stumbles s (.seqAdd path value index)

/-- An operation that takes the only entry out of a collection in flow style that does not end with
its bracket. -/
inductive EmptiesUnclosed (s : Snapshot) : Operation → Prop where
  | delete {path : Text} {target : Target} {parent : Node} {index : Nat}
      (reach : s.resolve path = .ok target) (entry : target.entry .delete = .ok (parent, index))
      (flow : parent.isFlow = true) (only : parent.entryCount = 1)
      (unclosed : ¬ s.source.EndsAt (s.stopOf parent) (closingBracket parent.isMapping)) :
      EmptiesUnclosed s (.delete path)

section Parts

variable {α : Type} {source : Text} {s : Snapshot} {C D : Prop} {P : α → Prop} {place : Nat}

theorem linePrefix_bind {Q : EditError → Prop} (hs : s.Within source) (h : source.IsBoundary place)
    {f : Text → Result α}
    (hf : ∀ before, s.linePrefix place = .ok before →
      source.IsBoundary (place - Text.size before) → Yields Q P (f before)) :
    Yields Q P (s.linePrefix place >>= f) := by
  obtain ⟨before, hbefore, hplace⟩ := hs.linePrefix h
  rw [hbefore]
  exact hf before hbefore hplace

theorem takeBytes_bind {Q : EditError → Prop} (hs : s.Within source) (h : source.IsBoundary place)
    {f : Text → Result α}
    (hf : ∀ x y, source = x ++ y → Text.size x = place → Yields Q P (f x)) :
    Yields Q P ((liftM (s.source.takeBytes place) : Result Text) >>= f) := by
  obtain ⟨x, y, rfl, rfl⟩ := h
  have htake : (x ++ y : Text).takeBytes (Text.size x) = .ok x :=
    Text.takeBytes_eq_ok.mpr ⟨y, rfl, rfl⟩
  rw [hs.source_eq, htake]
  exact hf x y rfl rfl

theorem dash_bind (hs : s.Within source) {n : Node} (hn : s.tree.Holds n)
    (hC : Extent.DashLostAt s.source (s.startOf n) → C) {f : Option Nat → Result α}
    (hf : ∀ r, Extent.itemMarker s.source (s.startOf n) = .ok r →
      source.IsBoundary (r.getD (s.startOf n)) → Yields (EditError.OffsetOnlyIf C) P (f r)) :
    Yields (EditError.OffsetOnlyIf C) P
      ((liftM (Extent.itemMarker s.source (s.startOf n)) : Result (Option Nat)) >>= f) := by
  have hstart := hs.startOf hn
  have hmarker := (Extent.yields_itemMarker hstart).and_eq
  rw [← hs.source_eq] at hmarker
  cases hfound : Extent.itemMarker s.source (s.startOf n) with
  | error e =>
      rw [hfound] at hmarker
      exact fun _ _ => hC hmarker
  | ok r =>
      rw [hfound] at hmarker
      refine hf r hfound ?_
      cases r with
      | none => exact hstart
      | some k =>
          rw [← hs.source_eq]
          exact hmarker.2 k rfl

end Parts

section Planners

variable {source : Text} {s : Snapshot} {C : Prop} {parent first last mapping sequence : Node}
  {i : Nat}

/-! ## Block collections -/

theorem Block.lands_entryStart (hs : s.Within source) (hfirst : s.tree.Holds first) :
    Yields
      (EditError.OffsetOnlyIf
        (parent.isMapping = false ∧ Extent.DashLostAt s.source (s.startOf first)))
      source.IsBoundary (entryStart s parent first) := by
  unfold entryStart
  dsimp only
  split
  · exact hs.startOf hfirst
  · next hsequence =>
      refine dash_bind hs hfirst (fun h => ⟨by simpa using hsequence, h⟩) fun r _ hplace => ?_
      exact hplace

theorem Block.fits_remove (hs : s.Within source) (hparent : s.tree.Holds parent)
    (hfirst : s.tree.Holds first) (hlast : s.tree.Holds last) :
    Yields (EditError.OffsetOnlyIf (Block.StumblesOn s parent first i)) (Splice.Fits C source)
      (Block.remove s parent first last i) := by
  unfold Block.remove
  refine ((Block.lands_entryStart hs hfirst).and_eq.mono_error ?_).bind fun start hstart => ?_
  · exact fun e h b hb => .entry (h b hb).1 (h b hb).2
  obtain ⟨hentry, hstart⟩ := hstart
  refine linePrefix_bind hs hstart fun before hbefore _ => ?_
  split
  · exact Splice.fits_remove (hs.lineStart _) (hs.nextLineStart _)
  · next hshared =>
      split
      · next follower hnext =>
          refine ((Block.lands_entryStart hs (hparent.child hnext)).mono_error ?_).bind
            fun stop hstop => Splice.fits_remove hstart hstop
          exact fun e h b hb =>
            .next (h b hb).1 hentry hbefore (by simpa using hshared) hnext (h b hb).2
      · exact Splice.fits_replace hstart (hs.stopOf hlast)

theorem Block.fits_addLines (hs : s.Within source) (last : Node) (content : Text) :
    (addLines s last content).Fits C source := by
  unfold addLines Snapshot.insertAfterLine
  dsimp only
  split <;> exact Splice.fits_insert (hs.nextLineStart _)

theorem Block.fits_addPair (hs : s.Within source) (key value : Fragment) {D : Prop} :
    Yields (EditError.OffsetOnlyIf D) (Splice.Fits C source)
      (Block.addPair s mapping key value) := by
  unfold Block.addPair
  split
  · exact Block.fits_addLines hs _ _
  · exact nofun

theorem Block.fits_addItem (hs : s.Within source) (hsequence : s.tree.Holds sequence)
    (item : Fragment) (index : Option Nat) :
    Yields
      (EditError.OffsetOnlyIf (∃ follower, index.bind (sequence.children[·]?) = some follower ∧
        Extent.DashLostAt s.source (s.startOf follower)))
      (Splice.Fits C source) (Block.addItem s sequence item index) := by
  unfold Block.addItem
  dsimp only
  split
  · next follower hnext =>
      obtain ⟨k, -, hk⟩ := Option.bind_eq_some_iff.mp hnext
      unfold Block.addItemBefore
      refine dash_bind hs (hsequence.child hk) (fun h => ⟨follower, hnext, h⟩)
        fun r _ hplace => ?_
      refine linePrefix_bind hs hplace fun before _ hline => ?_
      dsimp only
      split
      · exact Splice.fits_insert hline
      · exact Splice.fits_insert hplace
  · exact Block.fits_addLines hs _ _
  · exact nofun

/-! ## Flow collections -/

/-- Behind the bracket of a collection there is a boundary. -/
theorem Flow.isBoundary_inside (hs : s.Within source) (hparent : s.tree.Holds parent)
    (hflow : parent.isFlow = true) : source.IsBoundary (Flow.inside s parent).1 := by
  have hnext := ((hs.node hparent).opened hflow).next
  rw [utf8Size_openingBracket, ← hs.map] at hnext
  exact hnext

/-- In front of the bracket that a collection ends with there is a boundary. -/
theorem Flow.isBoundary_inside_of_endsAt (hs : s.Within source) (hparent : s.tree.Holds parent)
    (hflow : parent.isFlow = true)
    (h : source.EndsAt (s.stopOf parent) (closingBracket parent.isMapping)) :
    source.IsBoundary (Flow.inside s parent).2 := by
  have hprevious := h.previous
  rw [utf8Size_closingBracket] at hprevious
  exact hprevious.max (Flow.isBoundary_inside hs hparent hflow)

theorem Flow.fits_append (hs : s.Within source) (hparent : s.tree.Holds parent)
    (hflow : parent.isFlow = true) (content : Text) :
    (Flow.append s parent content).Fits C source := by
  unfold Flow.append
  split
  · next last hlast =>
      obtain ⟨k, hk⟩ := List.mem_iff_getElem?.mp (List.mem_of_getLast? hlast)
      exact Splice.fits_insert (hs.stopOf (hparent.child hk))
  · next hempty =>
      -- an empty collection ends with its bracket, or is nothing else than the first one
      have hstart := Flow.isBoundary_inside hs hparent hflow
      have hstop : source.IsBoundary (Flow.inside s parent).2 := by
        rcases (hs.node hparent).closed hflow (List.getLast?_eq_none_iff.mp hempty) with
          hclosed | hopen
        · rw [← hs.map] at hclosed
          exact Flow.isBoundary_inside_of_endsAt hs hparent hflow hclosed
        · rw [← hs.map] at hopen
          have hsame : (Flow.inside s parent).2 = (Flow.inside s parent).1 := by
            show max (s.stopOf parent - 1) (s.startOf parent + 1) = s.startOf parent + 1
            have : s.stopOf parent = s.startOf parent + 1 := hopen
            omega
          rw [hsame]
          exact hstart
      exact Splice.fits_replace hstart hstop

theorem Flow.fits_addPair (hs : s.Within source) (hmapping : s.tree.Holds mapping)
    (hflow : mapping.isFlow = true) (key value : Fragment) {D : Prop} :
    Yields (EditError.OffsetOnlyIf D) (Splice.Fits C source)
      (Flow.addPair s mapping key value) := by
  unfold Flow.addPair Flow.inline
  split
  · exact Flow.fits_append hs hmapping hflow _
  · exact nofun

theorem Flow.fits_addItem (hs : s.Within source) (hsequence : s.tree.Holds sequence)
    (hflow : sequence.isFlow = true) (item : Fragment) (index : Option Nat) {D : Prop} :
    Yields (EditError.OffsetOnlyIf D) (Splice.Fits C source)
      (Flow.addItem s sequence item index) := by
  unfold Flow.addItem Flow.inline
  split
  · rw [ok_bind]
    split
    · next follower hnext =>
        obtain ⟨k, -, hk⟩ := Option.bind_eq_some_iff.mp hnext
        exact Splice.fits_insert (hs.startOf (hsequence.child hk))
    · exact Flow.fits_append hs hsequence hflow _
  · exact nofun

theorem Flow.fits_removeWithNext (hs : s.Within source) {start stop : Nat}
    (hstart : source.IsBoundary start) (hstop : source.IsBoundary stop) {D : Prop} :
    Yields (EditError.OffsetOnlyIf D) (Splice.Fits C source)
      (Flow.removeWithNext s start stop) := by
  obtain ⟨x, rest, rfl, rfl⟩ := hstop
  unfold removeWithNext
  rw [hs.source_eq, Extent.dropBytes_append]
  dsimp only
  split
  · exact Splice.fits_remove hstart Text.isBoundary_append
  · next after hafter =>
      obtain ⟨u, rfl, -⟩ := afterComma_eq_some hafter
      -- the comma is followed by a part of the text
      have hcut : ∀ {v w : Text}, after = v ++ w →
          (x ++ (u ++ ',' :: after) : Text).IsBoundary
            (Text.size (x ++ (u ++ ',' :: after)) - Text.size after + Text.size v) := by
        rintro v w rfl
        refine ⟨x ++ u ++ ',' :: v, w, by simp, ?_⟩
        simp only [Text.size_append, Text.size_cons]
        omega
      have hcomma := hcut (v := []) rfl
      refine linePrefix_bind hs hstart fun before _ hline => ?_
      split
      · next hown =>
          obtain ⟨w, hw⟩ := takeWhile_append_of_contains hown.1
          have hbehind := hcut (v := after.takeWhile (· ≠ '\n') ++ ['\n']) (w := w) (by
            rw [List.append_assoc]
            exact hw)
          rw [Text.size_append _ ['\n'], ← Nat.add_assoc] at hbehind
          exact Splice.fits_remove hline hbehind
      · refine Splice.fits_remove hstart ?_
        split
        · next hspace =>
            obtain ⟨w, hw⟩ := List.head?_eq_some_iff.mp hspace
            exact hcut (v := [' ']) hw
        · exact hcomma

theorem Flow.fits_removeLast (hs : s.Within source) {start stop : Nat}
    (hstart : source.IsBoundary start) (hstop : source.IsBoundary stop) {D : Prop} :
    Yields (EditError.OffsetOnlyIf D) (Splice.Fits C source) (Flow.removeLast s start stop) := by
  unfold Flow.removeLast
  refine takeBytes_bind hs hstart fun x y hsource hsize => ?_
  dsimp only
  split
  · next hcomma =>
      obtain ⟨u, hu⟩ := List.getLast?_eq_some_iff.mp hcomma
      have hcut : source.IsBoundary (Text.size u) := by
        rw [hsource]
        refine Text.isBoundary_of_isPrefix (List.IsPrefix.trans ?_ (List.prefix_append x y))
        exact List.IsPrefix.trans ⟨[','], hu.symm⟩ (Extent.trimEnd_isPrefix x)
      rw [hu, Text.size_append, show Text.size [','] = 1 from rfl, Nat.add_sub_cancel]
      exact Splice.fits_remove hcut hstop
  · exact Splice.fits_remove hstart hstop

/-- What is taken out in flow style. Only an entry that is alone may reach up to a closing bracket
that is not there. -/
theorem Flow.fits_remove (hs : s.Within source) (hparent : s.tree.Holds parent)
    (hflow : parent.isFlow = true) (hfirst : s.tree.Holds first) (hlast : s.tree.Holds last)
    (position : Nat) {D : Prop} :
    Yields (EditError.OffsetOnlyIf D)
      (Splice.Fits (parent.entryCount = 1 ∧
        ¬ source.EndsAt (s.stopOf parent) (closingBracket parent.isMapping)) source)
      (Flow.remove s parent first last position) := by
  unfold Flow.remove
  dsimp only
  split
  · next honly =>
      have hstart := Flow.isBoundary_inside hs hparent hflow
      by_cases hclosed : source.EndsAt (s.stopOf parent) (closingBracket parent.isMapping)
      · exact Splice.fits_remove hstart
          (Flow.isBoundary_inside_of_endsAt hs hparent hflow hclosed)
      · refine ⟨hstart, .inr ⟨⟨honly, hclosed⟩, ?_⟩⟩
        have hlt := hstart.le_size
        have hle := (hs.stopOf hparent).le_size
        show max (Flow.inside s parent).1 (max (s.stopOf parent - 1) (Flow.inside s parent).1) ≤ _
        omega
  · split
    · exact Flow.fits_removeWithNext hs (hs.startOf hfirst) (hs.stopOf hlast)
    · exact Flow.fits_removeLast hs (hs.startOf hfirst) (hs.stopOf hlast)

/-! ## Replacements -/

/-- A part of the text that is between boundaries. -/
structure Replacement.Fits (source : Text) (r : Replacement) : Prop where
  start : source.IsBoundary r.start
  stop : source.IsBoundary r.stop

theorem Replacement.fits_ofNode (hs : s.Within source) {n : Node} (hn : s.tree.Holds n)
    (content : Text) : (Replacement.ofNode s n content).Fits source :=
  ⟨hs.startOf hn, hs.stopOf hn⟩

theorem fits_replaceUnderKey (hs : s.Within source) {key node : Node} (hkey : s.tree.Holds key)
    (hnode : s.tree.Holds node) (f : Fragment) {D : Prop} :
    Yields (EditError.OffsetOnlyIf D) (Replacement.Fits source) (replaceUnderKey s key node f) := by
  have hstart := hs.startOf hnode
  have hgap := (hs.stopOf hkey).min hstart
  obtain ⟨gap, hslice⟩ := Text.slice_of_isBoundary hgap hstart (Nat.min_le_right _ _)
  have hpulled : source.IsBoundary
      (min (s.stopOf key) (s.startOf node) + Text.size gap.trimEnd) := by
    obtain ⟨x, z, hsource, hx, -⟩ := Text.slice_eq_ok.mp hslice
    rw [hsource, ← hx, List.append_assoc]
    refine Text.IsBoundary.append_left (Text.isBoundary_of_isPrefix ?_)
    exact (Extent.trimEnd_isPrefix gap).trans (List.prefix_append gap z)
  have hpulled : ∀ content, Replacement.Fits source ⟨min (s.stopOf key) (s.startOf node) +
      Text.size gap.trimEnd, s.stopOf node, content⟩ := fun _ => ⟨hpulled, hs.stopOf hnode⟩
  unfold replaceUnderKey
  dsimp only
  rw [hs.source_eq, hslice]
  show Yields _ _ (if f.isContainer then _ else _)
  split
  · split
    · exact Replacement.fits_ofNode hs hnode _
    · exact hpulled _
  · split
    · exact hpulled _
    · exact Replacement.fits_ofNode hs hnode _

theorem Replacement.fits_splice (hs : s.Within source) {r : Replacement} (hr : r.Fits source)
    {D : Prop} :
    Yields (EditError.OffsetOnlyIf D) (Splice.Fits C source) (Replacement.splice s r) := by
  unfold Replacement.splice
  split
  · exact Splice.fits_replace hr.start hr.stop
  · exact takeBytes_bind hs hr.start fun x y _ _ => Splice.fits_replace hr.start hr.stop

/-! ## Operations -/

theorem yields_resolve (hs : s.Within source) (path : Text) {D : Prop} :
    Yields (EditError.OffsetOnlyIf D) (fun t => s.resolve path = .ok t ∧ s.Reaches t)
      (s.resolve path) := by
  have hnode : ∀ {α : Type} {P : α → Prop} (a : Address) {f : Node → Result α},
      (∀ n, Yields (EditError.OffsetOnlyIf D) P (f n)) →
      Yields (EditError.OffsetOnlyIf D) P ((liftM (s.tree.node a) : Result Node) >>= f) := by
    intro α P a f hf
    refine yields_mapError (fun e => ?_) hf
    cases e <;> exact nofun
  have hfails : Yields (EditError.OffsetOnlyIf D) (fun _ => True) (s.resolve path) := by
    unfold Snapshot.resolve
    refine yields_mapError (fun _ => nofun) fun selector => ?_
    refine yields_mapError (fun e => ?_) fun location => ?_
    · cases e <;> exact nofun
    · cases location with
      | none => exact nofun
      | some l =>
          refine hnode _ fun node => ?_
          cases l.parent with
          | none => trivial
          | some p => exact hnode _ fun parent => trivial
  refine (hfails.of_ok fun t ht => ?_).and_eq
  exact (yields_iff.mp (hs.sound.resolve path)).1 t ht

theorem yields_fragment (value : Value) {D : Prop} :
    Yields (EditError.OffsetOnlyIf D) (fun f => Fragment.ofValue value = .ok f)
      (liftM (Fragment.ofValue value) : Result Fragment) := by
  refine yields_iff.mpr ⟨fun f hf => lift_write_eq_ok.mp hf, fun e he b hb => ?_⟩
  obtain ⟨fault, -, rfl⟩ := mapError_eq_error.mp he
  cases hb

/-- The key of a value is a node of the tree. -/
theorem holds_pairedKey (hparent : s.tree.Holds parent) {D : Prop} :
    Yields (EditError.OffsetOnlyIf D) s.tree.Holds (parent.pairedKey i) := by
  unfold Node.pairedKey
  dsimp only
  split
  · exact nofun
  · split
    · next key hkey => exact hparent.child hkey
    · exact nofun

end Planners

end Plan

namespace Snapshot.Within

variable {source : Text} {s : Snapshot}

open Plan

theorem delete (hs : s.Within source) (path : Text) :
    Yields (EditError.OffsetOnlyIf (Plan.Stumbles s (.delete path)))
      (Splice.Fits (Plan.EmptiesUnclosed s (.delete path)) source) (Plan.delete s path) := by
  refine (yields_resolve hs path).bind fun target ht => ?_
  obtain ⟨hresolve, ht⟩ := ht
  refine (ht.yields_entry (fun _ => nofun) .delete).and_eq.bind fun p hp => ?_
  obtain ⟨parent, i⟩ := p
  obtain ⟨hentry, hparent, hchild, -⟩ := hp
  have hremove : ∀ first position, s.tree.Holds first →
      (parent.isMapping = false → first = target.node) →
      Yields (EditError.OffsetOnlyIf (Plan.Stumbles s (.delete path)))
        (Splice.Fits (Plan.EmptiesUnclosed s (.delete path)) source)
        (if parent.isFlow then Flow.remove s parent first target.node position
          else Block.remove s parent first target.node i) := by
    intro first position hfirst hsame
    split
    · next hflow =>
        refine (Flow.fits_remove hs hparent hflow hfirst ht.node position).mono
          fun splice h => ⟨h.start, h.finish.imp_right fun h => ⟨?_, h.2⟩⟩
        refine .delete hresolve hentry hflow h.1.1 ?_
        rw [hs.source_eq]
        exact h.1.2
    · next hblock =>
        refine (Block.fits_remove hs hparent hfirst ht.node).mono_error fun e h b hb => ?_
        have hlost := h b hb
        have hsequence : parent.isMapping = false := by
          cases hlost with
          | entry hsequence => exact hsequence
          | next hsequence => exact hsequence
        rw [hsame hsequence] at hlost
        exact .delete hresolve hentry (by simpa using hblock) hsequence hlost
  dsimp only
  split
  · next hmapping =>
      exact (holds_pairedKey hparent).bind fun first hfirst =>
        hremove first _ hfirst fun h => by simp [h] at hmapping
  · exact hremove target.node _ ht.node fun _ => rfl

theorem replaceEntry {D : Prop} {parent node : Node} (hs : s.Within source) (path : Text)
    (hparent : s.tree.Holds parent) (hnode : s.tree.Holds node) (i : Nat) (f : Fragment) :
    Yields (EditError.OffsetOnlyIf D) (Replacement.Fits source)
      (Plan.replaceEntry s path parent node i f) := by
  unfold Plan.replaceEntry
  split
  · exact (holds_pairedKey hparent).bind fun key hkey => fits_replaceUnderKey hs hkey hnode f
  · exact Replacement.fits_ofNode hs hnode _
  · split
    · exact Replacement.fits_ofNode hs hnode _
    · exact nofun
  · split
    · exact Replacement.fits_ofNode hs hnode _
    · exact nofun
  · exact nofun

theorem update {C D : Prop} (hs : s.Within source) (path : Text) (value : Value) :
    Yields (EditError.OffsetOnlyIf D) (Splice.Fits C source) (Plan.update s path value) := by
  refine (yields_resolve hs path).bind fun target ht => ?_
  obtain ⟨-, ht⟩ := ht
  refine (ht.yields_entry (fun _ => nofun) .update).bind fun p hp => ?_
  obtain ⟨parent, i⟩ := p
  obtain ⟨hparent, hchild, -⟩ := hp
  exact (yields_fragment value).bind fun f _ =>
    (hs.replaceEntry path hparent ht.node i f).bind fun r hr => Replacement.fits_splice hs hr

theorem rename {C D : Prop} (hs : s.Within source) (path newName : Text) :
    Yields (EditError.OffsetOnlyIf D) (Splice.Fits C source) (Plan.rename s path newName) := by
  refine (yields_resolve hs path).bind fun target ht => ?_
  obtain ⟨-, ht⟩ := ht
  refine (ht.yields_entry (fun _ => nofun) .rename).bind fun p hp => ?_
  obtain ⟨parent, i⟩ := p
  obtain ⟨hparent, -⟩ := hp
  dsimp only
  split
  · exact nofun
  · refine (yields_fragment _).bind fun name _ => ?_
    split
    · exact nofun
    · exact (holds_pairedKey hparent).bind fun key hkey =>
        Splice.fits_replace (hs.startOf hkey) (hs.stopOf hkey)

theorem mapAdd {C D : Prop} (hs : s.Within source) (path key : Text) (value : Value) :
    Yields (EditError.OffsetOnlyIf D) (Splice.Fits C source) (Plan.mapAdd s path key value) := by
  refine (yields_resolve hs path).bind fun target ht => ?_
  obtain ⟨-, ht⟩ := ht
  dsimp only
  split
  · exact nofun
  · refine (yields_fragment _).bind fun key _ => ?_
    split
    · exact nofun
    · refine (yields_fragment _).bind fun value _ => ?_
      split
      · next hflow => exact Flow.fits_addPair hs ht.node hflow key value
      · exact Block.fits_addPair hs key value

theorem seqAdd {C : Prop} (hs : s.Within source) (path : Text) (value : Value)
    (index : Option Nat) :
    Yields (EditError.OffsetOnlyIf (Plan.Stumbles s (.seqAdd path value index)))
      (Splice.Fits C source) (Plan.seqAdd s path value index) := by
  refine (yields_resolve hs path).bind fun target ht => ?_
  obtain ⟨hresolve, ht⟩ := ht
  dsimp only
  split
  · exact nofun
  · next hsequence =>
      refine (yields_fragment _).bind fun item hitem => ?_
      split
      · next hflow => exact Flow.fits_addItem hs ht.node hflow item index
      · next hblock =>
          refine (Block.fits_addItem hs ht.node item index).mono_error fun e h b hb => ?_
          obtain ⟨follower, hnext, hlost⟩ := h b hb
          exact .seqAdd hresolve (by simpa using hsequence) (by simpa using hblock) hitem hnext
            hlost

/-- **Where an operation cuts.** It can be planned, or fails for another reason, unless the search
for a dash stumbles; and its splice starts and stops at boundaries, unless it empties a collection
that is not closed. -/
theorem operation (hs : s.Within source) (o : Operation) :
    Yields (EditError.OffsetOnlyIf (Plan.Stumbles s o))
      (Splice.Fits (Plan.EmptiesUnclosed s o) source) (Plan.operation s o) := by
  cases o with
  | delete path => exact hs.delete path
  | update path value => exact hs.update path value
  | rename path newName => exact hs.rename path newName
  | mapAdd path key value => exact hs.mapAdd path key value
  | seqAdd path value index => exact hs.seqAdd path value index

end Snapshot.Within

namespace Plan

theorem entryStart_of_dashLostAt {s : Snapshot} {parent first : Node}
    (hsequence : parent.isMapping = false)
    (h : Extent.DashLostAt s.source (s.startOf first)) :
    ∃ b, Block.entryStart s parent first = .error (.badOffset b) := by
  obtain ⟨b, hb⟩ := Extent.itemMarker_of_dashLostAt h
  refine ⟨b, ?_⟩
  unfold Block.entryStart
  dsimp only
  rw [if_neg (by rw [hsequence]; nofun), hb]
  rfl

theorem Block.remove_of_stumblesOn {s : Snapshot} {parent first : Node} {i : Nat}
    (h : Block.StumblesOn s parent first i) (last : Node) :
    ∃ b, Block.remove s parent first last i = .error (.badOffset b) := by
  unfold Block.remove
  cases h with
  | entry hsequence hlost =>
      obtain ⟨b, hb⟩ := entryStart_of_dashLostAt hsequence hlost
      exact ⟨b, by rw [hb]; rfl⟩
  | @next place before follower hsequence hstart hline hshared hnext hlost =>
      obtain ⟨b, hb⟩ := entryStart_of_dashLostAt hsequence hlost
      refine ⟨b, ?_⟩
      rw [hstart, ok_bind, hline, ok_bind, if_neg (by rw [hshared]; nofun), hnext]
      dsimp only
      rw [hb]
      rfl

/-- An operation that stumbles fails. -/
theorem operation_of_stumbles {s : Snapshot} {o : Operation} (h : Stumbles s o) :
    ∃ b, Plan.operation s o = .error (.badOffset b) := by
  cases h with
  | @delete path target parent i hresolve hentry hblock hsequence hlost =>
      obtain ⟨b, hb⟩ := Block.remove_of_stumblesOn hlost target.node
      refine ⟨b, ?_⟩
      have hfirst : (if parent.isMapping then parent.pairedKey i else pure target.node) =
          .ok target.node := by
        rw [if_neg (by rw [hsequence]; nofun)]
        rfl
      show Plan.delete s path = _
      rw [delete_eq hresolve hentry hfirst, if_neg (by rw [hblock]; nofun)]
      exact hb
  | @seqAdd path value index target f follower hresolve hsequence hblock hwritten hnext hlost =>
      obtain ⟨b, hb⟩ := Extent.itemMarker_of_dashLostAt hlost
      refine ⟨b, ?_⟩
      show Plan.seqAdd s path value index = _
      rw [seqAdd_eq hresolve hsequence hwritten, if_neg (by rw [hblock]; nofun)]
      unfold Block.addItem Block.addItemBefore
      rw [hnext]
      dsimp only
      rw [hb]
      rfl

end Plan

end YamlEdit
