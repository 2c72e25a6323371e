import YamlEdit.Proofs.SheetFragments
import YamlEdit.Proofs.SheetValues
import YamlEdit.Proofs.Update

/-!
# Updates and renamings of sheets

A value of a sheet is replaced by a fragment that is a sheet itself. It stays behind its `-`, and
behind its key a collection starts a line of its own and a scalar goes on the line of the key,
unless there is a comment between the two (`Head.gapFor`). The new text is a sheet again, in which
the path leads to the new value and nothing else has changed (`update_of_sheet_reads_back`). The
value is read there as in the text that it was written as (`Fragment.IsSheet.readsAs`).

A name that is written as it is takes the place of a key in the same way
(`rename_in_sheet_changes_key`).
-/

namespace YamlEdit

/-! ## The margin in front of a new value -/

namespace Head

/-- The head with another margin. -/
def withGap (gap : Text) : Head → Head
  | dash _ => dash gap
  | key name _ => key name gap

/-- The margin between the key of a new pair at a column and its value. -/
def newGap (column : Nat) (isContainer : Bool) : Text :=
  if isContainer then '\n' :: Text.spaces (Indentation.nested column) else [' ']

/-- The margin in front of a value that is put behind a head at a column. A comment keeps it as it
is. -/
def gapFor (column : Nat) (isContainer : Bool) : Head → Text
  | dash gap => gap
  | key _ gap =>
    if '#' ∈ gap ∨ (isContainer = false ∧ '\n' ∉ gap) then gap else newGap column isContainer

variable {head : Head} {column : Nat} {gap : Text} {isContainer : Bool}

@[simp] theorem isKey_withGap (gap : Text) (head : Head) :
    (head.withGap gap).isKey = head.isKey := by
  cases head <;> rfl

@[simp] theorem gap_withGap (gap : Text) (head : Head) : (head.withGap gap).gap = gap := by
  cases head <;> rfl

@[simp] theorem outlines_withGap (gap : Text) (head : Head) :
    (head.withGap gap).outlines = head.outlines := by
  cases head <;> rfl

theorem text_withGap (gap : Text) (head : Head) : (head.withGap gap).text = head.mark ++ gap := by
  cases head <;> rfl

/-- A comment ends with its line. -/
theorem Fits.feed_of_comment (h : head.Fits column) (hhash : '#' ∈ head.gap) : '\n' ∈ head.gap := by
  have hmargin := h.margin
  generalize head.gap = g at hmargin hhash
  induction hmargin with
  | nil => cases hhash
  | space _ ih | feed _ ih => exact List.mem_cons_of_mem _ (ih (by simpa using hhash))
  | comment => simp

theorem columnBehind_nested (name : Text) (column : Nat) :
    Text.columnBehind column (name ++ [':'] ++ newGap column true) = Indentation.nested column := by
  rw [Text.columnBehind_append]
  show Text.columnBehind 0 (Text.spaces _) = _
  rw [Text.columnBehind_spaces, Nat.zero_add]

/-- The head of a new pair. -/
theorem fits_newGap {name : Text} (hname : Token.PlainLine name ∧ Text.size name ≤ 1024)
    (column : Nat) (isContainer : Bool) : (key name (newGap column isContainer)).Fits column where
  margin := by
    cases isContainer with
    | true => exact .feed (.of_spaces _)
    | false => exact .space .nil
  first := by cases isContainer <;> rfl
  deeper := by
    cases isContainer with
    | true =>
        show column < Text.columnBehind column (name ++ [':'] ++ newGap column true)
        rw [columnBehind_nested]
        exact Nat.lt_add_of_pos_right (by decide)
    | false =>
        have hfeed := Scan.not_mem_of_staysPlain hname.1.stays
        show column < Text.columnBehind column (name ++ [':'] ++ [' '])
        rw [Text.columnBehind_of_not_mem (by simpa using hfeed)]
        simp
  item := nofun
  name := hname

/-- A scalar may stand behind a new key, and a collection in a line below it. -/
theorem follows_newGap {t : Sheet} (ht : isContainer = !t.isWord) (name : Text) (column : Nat) :
    Sheet.Follows (key name (newGap column isContainer)) t := by
  intro _ hfeed
  cases isContainer with
  | true => exact absurd List.mem_cons_self hfeed
  | false => simpa using ht

/-- **The head with the new margin fits** in the place of the old one. -/
theorem Fits.withGapFor (h : head.Fits column) (isContainer : Bool) :
    (head.withGap (head.gapFor column isContainer)).Fits column := by
  cases head with
  | dash gap => exact h
  | key name gap =>
      rw [gapFor]
      split
      · exact h
      · exact fits_newGap h.name column isContainer

/-- What is put there may stand behind the new margin. -/
theorem Fits.follows_gapFor (h : head.Fits column) {t : Sheet} (ht : isContainer = !t.isWord) :
    Sheet.Follows (head.withGap (head.gapFor column isContainer)) t := by
  cases head with
  | dash => exact nofun
  | key name gap =>
      rw [gapFor]
      split
      · next hstays =>
          intro _ hfeed
          rcases hstays with hhash | ⟨hscalar, -⟩
          · exact absurd (h.feed_of_comment hhash) hfeed
          · simpa [hscalar] using ht
      · exact follows_newGap ht name column

end Head

namespace Sheet

/-- The sheet of a scalar is the same at every column, but for the margin. -/
theorem body_shift_word {t : Sheet} (h : t.isWord = true) (n : Nat) :
    (t.shift n).body = t.body := by
  cases t with
  | word => rfl
  | last | more => cases h

theorem Fits.of_isWord {t : Sheet} {column column' : Nat} (h : t.Fits column)
    (hword : t.isWord = true) : t.Fits column' := by
  cases h with
  | word hw hmargin => exact .word hw hmargin
  | last | more => cases hword

end Sheet

/-! ## Putting in a value -/

namespace Plan

variable {source g path : Text} {fs : List Frame} {f : Frame} {t u s : Sheet} {new : Fragment}

/-- A replacement of what is not empty. -/
theorem splice_of_lt {snap : Snapshot} {r : Replacement} (h : r.start < r.stop) :
    r.splice snap = .ok (Splice.replace r.start r.stop r.content) := by
  unfold Replacement.splice
  rw [if_pos (.inl h)]
  rfl

/-- A node is replaced in its place. -/
theorem apply_ofNode (h : source.IsSheet g (Sheet.plug fs u)) (content : Text) :
    ∃ splice, (Replacement.ofNode ((Sheet.plug fs u).snapshot source g)
        (u.tree (.ofText source) (Text.size (g ++ Sheet.front fs))) content).splice
          ((Sheet.plug fs u).snapshot source g) = .ok splice ∧
      splice.apply source =
        .ok (g ++ Sheet.front fs ++ (content ++ (u.tail ++ Sheet.back fs))) := by
  have hsource := h.text_plug
  have hreplacement : Replacement.ofNode ((Sheet.plug fs u).snapshot source g)
      (u.tree (.ofText source) (Text.size (g ++ Sheet.front fs))) content =
        ⟨Text.size (g ++ Sheet.front fs), Text.size (g ++ Sheet.front fs ++ u.body), content⟩ := by
    rw [Replacement.ofNode, h.startOf, h.stopOf]
  have hpos := Sheet.size_body_pos h.fits.of_plug
  rw [hreplacement]
  refine ⟨_, splice_of_lt ?_, ?_⟩
  · show Text.size (g ++ Sheet.front fs) < Text.size (g ++ Sheet.front fs ++ u.body)
    rw [Text.size_append _ u.body]
    omega
  · conv_lhs => rw [hsource]
    exact Splice.apply_replace content

/-- How the value of a key is replaced, by what is between the two. -/
theorem replaceUnderKey_eq {snap : Snapshot} {key node : Node} (gap : Text)
    (hle : snap.stopOf key ≤ snap.startOf node)
    (hlt : snap.startOf node < snap.stopOf node)
    (hgap : snap.source.slice (snap.stopOf key) (snap.startOf node) = .ok gap)
    (hline : key.stop.line < node.start.line ↔ '\n' ∈ gap) :
    replaceUnderKey snap key node new = .ok (
      if '#' ∈ gap ∨ (new.isContainer = false ∧ '\n' ∉ gap) then
        .ofNode snap node (new.indented
          (if new.isContainer then node.start.column else Indentation.nested key.start.column)
          false)
      else ⟨snap.stopOf key + Text.size gap.trimEnd, snap.stopOf node,
        if new.isContainer then '\n' :: new.indented (Indentation.nested key.start.column) true
        else ' ' :: new.indented (Indentation.nested key.start.column) false⟩) := by
  unfold replaceUnderKey
  dsimp only
  rw [Nat.min_eq_left hle, hgap]
  show (if new.isContainer = true then _ else _) = _
  cases new.isContainer with
  | true =>
      by_cases hhash : '#' ∈ gap <;> simp [hhash, pure, Except.pure]
  | false =>
      have hempty : ¬ snap.stopOf node ≤ snap.startOf node := Nat.not_le.mpr hlt
      by_cases hhash : '#' ∈ gap <;> by_cases hfeed : '\n' ∈ gap <;>
        simp [hhash, hfeed, hline, hempty, pure, Except.pure]

/-- The text of the fragment, which is put where a sheet has the column `c`: a scalar is the same at
every column. -/
theorem indented_eq (hnew : new.IsSheet s) {v : Value} (hv : Fragment.ofValue v = .ok new)
    {n c : Nat} (hn : new.isContainer = true → n = c) :
    new.indented n false = (s.shift c).body := by
  rw [(hnew.at_column hv n).2.1]
  cases hcontainer : new.isContainer with
  | true => rw [hn hcontainer]
  | false =>
      have hword : s.isWord = true := by
        have := hnew.container
        rw [hcontainer] at this
        simpa using this.symm
      rw [Sheet.body_shift_word hword, Sheet.body_shift_word hword]

section Pairs

variable {name gap x z : Text} {key : Node}

/-- What is between a key and its value, and where it is. -/
structure Between (snap : Snapshot) (key node : Node) (x gap body : Text) : Prop where
  stopOf : snap.stopOf key = Text.size x
  startOf : snap.startOf node = Text.size (x ++ gap)
  finish : snap.stopOf node = Text.size (x ++ gap ++ body)
  slice : snap.source.slice (Text.size x) (Text.size (x ++ gap)) = .ok gap
  line : key.stop.line < node.start.line ↔ '\n' ∈ gap

theorem between_of_source (hsource : source = x ++ (gap ++ (u.body ++ z)))
    (hkey : key.stop = (SourceMap.ofText source).position (Text.size x)) :
    Between (t.snapshot source g) key (u.tree (.ofText source) (Text.size (x ++ gap))) x gap
      u.body where
  stopOf := by
    unfold Snapshot.stopOf
    rw [hkey, Sheet.offset_snapshot hsource]
  startOf := by
    unfold Snapshot.startOf
    rw [Sheet.start_tree, Sheet.offset_snapshot (y := u.body ++ z)]
    rw [hsource, List.append_assoc]
  finish := by
    unfold Snapshot.stopOf
    rw [Sheet.stop_tree, ← Text.size_append, Sheet.offset_snapshot (y := z)]
    rw [hsource, List.append_assoc, List.append_assoc]
  slice := Text.slice_eq_ok.mpr ⟨x, u.body ++ z, by
    rw [List.append_assoc]
    exact hsource, rfl, (Text.size_append _ _).symm⟩
  line := by
    have hkeyline : key.stop.line = x.count '\n' := by
      rw [hkey, hsource]
      exact LineIndex.line_position _ _
    have hnodeline : (u.tree (.ofText source) (Text.size (x ++ gap))).start.line =
        (x ++ gap).count '\n' := by
      rw [Sheet.start_tree, hsource, ← List.append_assoc]
      exact LineIndex.line_position _ _
    rw [hkeyline, hnodeline, List.count_append, Nat.lt_add_right_iff_pos, List.count_pos_iff]

/-- A value that a comment keeps in its place, or that is a scalar on the line of its key. -/
theorem apply_inPlace (h : source.IsSheet g (Sheet.plug (f :: fs) u)) (hnew : new.IsSheet s)
    {v : Value} (hv : Fragment.ofValue v = .ok new) {c n : Nat}
    (hc : Sheet.columnIn (Text.columnBehind 0 g) (f :: fs) = c)
    (hstays : '#' ∈ f.head.gap ∨ (new.isContainer = false ∧ '\n' ∉ f.head.gap)) :
    ∃ splice, (Replacement.ofNode ((Sheet.plug (f :: fs) u).snapshot source g)
        (u.tree (.ofText source) (Text.size (g ++ Sheet.front (f :: fs)))) (new.indented
          (if new.isContainer then (u.tree (.ofText source)
            (Text.size (g ++ Sheet.front (f :: fs)))).start.column else n) false)).splice
        ((Sheet.plug (f :: fs) u).snapshot source g) = .ok splice ∧
      splice.apply source = .ok (g ++ Sheet.front (f :: fs) ++
        ((s.shift c).body ++ (u.tail ++ Sheet.back (f :: fs)))) := by
  obtain ⟨splice, hsplice, happly⟩ := apply_ofNode h (new.indented (if new.isContainer then
    (u.tree (.ofText source) (Text.size (g ++ Sheet.front (f :: fs)))).start.column else n) false)
  refine ⟨splice, hsplice, ?_⟩
  rw [happly, indented_eq hnew hv]
  intro hcontainer
  have hhash := hstays.resolve_right fun hscalar => by
    rw [hcontainer] at hscalar
    cases hscalar.1
  have hupright := h.fits.upright_node h.isUpright fun _ =>
    (Frame.fits_of_fill (Sheet.Fits.of_plug h.fits)).1.feed_of_comment hhash
  have hcolumn := SourceMap.column_of_upright hupright (u.body ++ (u.tail ++ Sheet.back (f :: fs)))
  rw [← h.text_plug, Sheet.Fits.columnBehind_front (u := u) h.fits, hc] at hcolumn
  rw [if_pos hcontainer, Sheet.start_tree, hcolumn]

/-- What is written behind a key, in place of the margin and the value. -/
theorem content_newGap (hnew : new.IsSheet s) {v : Value} (hv : Fragment.ofValue v = .ok new)
    (name : Text) (column : Nat) :
    (if new.isContainer then '\n' :: new.indented (Indentation.nested column) true
      else ' ' :: new.indented (Indentation.nested column) false) =
      Head.newGap column new.isContainer ++ (s.shift (Text.columnBehind column
        (Head.key name (Head.newGap column new.isContainer)).text)).body := by
  cases hcontainer : new.isContainer with
  | true =>
      rw [if_pos rfl, (hnew.at_column hv _).2.2]
      show _ = _ ++ (s.shift
        (Text.columnBehind column (name ++ [':'] ++ Head.newGap column true))).body
      rw [Head.columnBehind_nested]
      rfl
  | false =>
      rw [if_neg (by decide), indented_eq hnew hv (by rw [hcontainer]; nofun)]
      rfl

/-- A value that is replaced together with the margin in front of it. -/
theorem apply_behindKey {snap : Snapshot} {body : Text}
    (hbetween : Between snap key (u.tree (.ofText source) (Text.size (x ++ ':' :: gap))) x
      (':' :: gap) body) (hsource : source = x ++ (':' :: gap ++ (body ++ z)))
    (hpos : 0 < Text.size body) (hmargin : Token.Margin gap) (hhash : '#' ∉ gap)
    (content : Text) :
    ∃ splice, Replacement.splice snap ⟨snap.stopOf key + Text.size (Text.trimEnd (':' :: gap)),
        snap.stopOf (u.tree (.ofText source) (Text.size (x ++ ':' :: gap))), content⟩ = .ok splice ∧
      splice.apply source = .ok (x ++ [':'] ++ (content ++ z)) := by
  have htrim : Text.trimEnd (':' :: gap) = [':'] :=
    Text.trimEnd_append_of_blank (u := [':']) (hmargin.isBlank_of_not_mem hhash)
  have hsplit : source = x ++ [':'] ++ (gap ++ body ++ z) := by rw [hsource]; simp
  have hstop : Text.size (x ++ ':' :: gap ++ body) = Text.size (x ++ [':'] ++ (gap ++ body)) := by
    simp
  rw [htrim, hbetween.stopOf, hbetween.finish, hstop, ← Text.size_append]
  refine ⟨_, splice_of_lt ?_, ?_⟩
  · show Text.size (x ++ [':']) < Text.size (x ++ [':'] ++ (gap ++ body))
    rw [Text.size_append _ (gap ++ body), Text.size_append gap]
    omega
  · conv_lhs => rw [hsplit]
    exact Splice.apply_replace content

/-- **The value of a pair is replaced** in its place, or together with the margin in front of it. -/
theorem replaceUnderKey_sheet (h : source.IsSheet g (Sheet.plug (f :: fs) u))
    (hhead : f.head = .key name gap) (hnew : new.IsSheet s) {v : Value}
    (hv : Fragment.ofValue v = .ok new)
    (hkeystart : key.start = (SourceMap.ofText source).position
      (Text.size (g ++ Sheet.front fs ++ Entry.textOf f.before)))
    (hkeystop : key.stop = (SourceMap.ofText source).position
      (Text.size (g ++ Sheet.front fs ++ Entry.textOf f.before ++ name)))
    {column c : Nat} (hcolumn : Sheet.columnIn (Text.columnBehind 0 g) fs = column)
    (hc : Text.columnBehind column
      (f.head.withGap (f.head.gapFor column new.isContainer)).text = c) :
    ∃ splice, (replaceUnderKey ((Sheet.plug (f :: fs) u).snapshot source g) key
        (u.tree (.ofText source) (Text.size (g ++ Sheet.front (f :: fs)))) new >>=
          (·.splice ((Sheet.plug (f :: fs) u).snapshot source g))) = .ok splice ∧
      splice.apply source = .ok (g ++ Sheet.front fs ++ Entry.textOf f.before ++ f.head.mark ++
        (f.head.gapFor column new.isContainer ++ (s.shift c).body ++
          (u.tail ++ Sheet.back (f :: fs)))) := by
  have hfront : g ++ Sheet.front (f :: fs) =
      g ++ Sheet.front fs ++ Entry.textOf f.before ++ name ++ ':' :: gap := by
    simp [Sheet.front, Frame.front, hhead, Head.text, Head.mark, Head.gap]
  have hsource : source = g ++ Sheet.front fs ++ Entry.textOf f.before ++ name ++
      (':' :: gap ++ (u.body ++ (u.tail ++ Sheet.back (f :: fs)))) := by
    rw [← List.append_assoc _ (':' :: gap), ← hfront]
    exact h.text_plug
  have hbetween := between_of_source (t := Sheet.plug (f :: fs) u) (g := g) hsource hkeystop
  have hpos := Sheet.size_body_pos h.fits.of_plug
  have hkeycolumn : key.start.column = column := by
    have := SourceMap.column_of_upright (h.fits.upright_entry h.isUpright)
      (name ++ (':' :: gap ++ (u.body ++ (u.tail ++ Sheet.back (f :: fs)))))
    rw [← List.append_assoc, ← hsource, ← hkeystart] at this
    rw [this, Text.columnBehind_append, Sheet.Fits.columnBehind_front (u := f.fill u) h.fits,
      Sheet.columnBehind_textOf h.fits.before_of_plug, hcolumn]
  rw [replaceUnderKey_eq (':' :: gap)]
  · rw [ok_bind, hkeycolumn]
    rw [hhead] at hc ⊢
    by_cases hstays : '#' ∈ gap ∨ (new.isContainer = false ∧ '\n' ∉ gap)
    · rw [Head.gapFor, if_pos hstays] at hc ⊢
      rw [if_pos (by simpa using hstays)]
      obtain ⟨splice, hsplice, happly⟩ := apply_inPlace h hnew hv (c := c)
        (n := Indentation.nested column) (by rw [Sheet.columnIn, hcolumn, hhead]; exact hc)
        (by rw [hhead]; exact hstays)
      refine ⟨splice, hsplice, happly.trans ?_⟩
      rw [hfront]
      simp [Head.mark]
    · have hhash : '#' ∉ gap := fun h => hstays (.inl h)
      have hmargin : Token.Margin gap := by
        have := (Frame.fits_of_fill (Sheet.Fits.of_plug h.fits)).1.margin
        rwa [hhead] at this
      rw [Head.gapFor, if_neg hstays] at hc ⊢
      rw [if_neg (by simpa using hstays), content_newGap hnew hv name column]
      rw [hfront]
      rw [show Text.columnBehind column (Head.key name _).text = c from hc]
      obtain ⟨splice, hsplice, happly⟩ := apply_behindKey hbetween hsource hpos hmargin hhash
        (Head.newGap column new.isContainer ++ (s.shift c).body)
      refine ⟨splice, hsplice, happly.trans ?_⟩
      simp [Head.mark]
  · rw [hfront, hbetween.stopOf, hbetween.startOf, Text.size_append _ (':' :: gap)]
    exact Nat.le_add_right _ _
  · rw [hfront, hbetween.startOf, hbetween.finish, Text.size_append _ u.body]
    omega
  · rw [hfront, hbetween.stopOf, hbetween.startOf]
    exact hbetween.slice
  · rw [hfront]
    exact hbetween.line

end Pairs

/-- The key of a pair of a sheet. -/
theorem exists_key_of_plug {name gap : Text} (h : source.IsSheet g (Sheet.plug (f :: fs) u))
    (hhead : f.head = .key name gap) :
    ∃ key, ((f.fill u).tree (.ofText source) (Text.size (g ++ Sheet.front fs))).pairedKey f.index =
        .ok key ∧
      ((f.fill u).tree (.ofText source) (Text.size (g ++ Sheet.front fs))).children[
        (Entry.outlinesOf f.before).length]? = some key ∧
      key.start = (SourceMap.ofText source).position
        (Text.size (g ++ Sheet.front fs ++ Entry.textOf f.before)) ∧
      key.stop = (SourceMap.ofText source).position
        (Text.size (g ++ Sheet.front fs ++ Entry.textOf f.before ++ name)) := by
  have hkey := f.nodes_fill_key (.ofText source) hhead u (Text.size (g ++ Sheet.front fs))
  have hkinds : ∀ e ∈ f.before, e.1.isKey = true := fun e he => by
    rw [(h.fits.before_of_plug e he).kind, hhead]
    rfl
  have hindex := Frame.index_of_key hhead
  have heven := Entry.even_outlinesOf hkinds
  rw [← Text.size_append, ← Text.size_append] at hkey
  refine ⟨_, ?_, hkey, rfl, rfl⟩
  unfold Node.pairedKey
  dsimp only
  rw [hindex, if_neg (by omega), Nat.add_sub_cancel, hkey]

/-- **A value of a sheet is replaced** by a fragment that is a sheet. -/
theorem update_sheet (h : source.IsSheet g (Sheet.plug (f :: fs) u)) (hnew : new.IsSheet s)
    {v : Value} (hv : Fragment.ofValue v = .ok new)
    (hpath : ((Sheet.plug (f :: fs) u).snapshot source g).addressOf path =
      some ([0, 0] ++ Sheet.addr (f :: fs)))
    {column c : Nat} (hcolumn : Sheet.columnIn (Text.columnBehind 0 g) fs = column)
    (hc : Text.columnBehind column
      (f.head.withGap (f.head.gapFor column new.isContainer)).text = c) :
    ∃ splice, update ((Sheet.plug (f :: fs) u).snapshot source g) path v = .ok splice ∧
      splice.apply source = .ok (g ++ Sheet.front fs ++ Entry.textOf f.before ++ f.head.mark ++
        (f.head.gapFor column new.isContainer ++ (s.shift c).body ++
          (u.tail ++ Sheet.back (f :: fs)))) := by
  obtain ⟨target, hresolve, hentry, hnode⟩ := h.exists_target hpath .update
  have hkind := Sheet.kind_tree (Frame.isKey?_fill (Sheet.Fits.of_plug h.fits))
    (.ofText source) (Text.size (g ++ Sheet.front fs))
  rw [update_eq hresolve hentry hv, hnode, replaceEntry, hkind]
  cases hhead : f.head with
  | dash gap =>
      have hupright := h.fits.upright_node h.isUpright (by rw [hhead]; nofun)
      have hstart := SourceMap.column_of_upright hupright
        (u.body ++ (u.tail ++ Sheet.back (f :: fs)))
      rw [← h.text_plug, Sheet.Fits.columnBehind_front (u := u) h.fits, Sheet.columnIn,
        hcolumn] at hstart
      have hcontent : new.indented (u.tree (.ofText source)
          (Text.size (g ++ Sheet.front (f :: fs)))).start.column false = (s.shift c).body := by
        refine indented_eq hnew hv fun _ => ?_
        rw [Sheet.start_tree, hstart, ← hc, hhead]
        rfl
      obtain ⟨splice, hsplice, happly⟩ := apply_ofNode h (s.shift c).body
      refine ⟨splice, ?_, happly.trans ?_⟩
      · rw [← hsplice, ← hcontent]
        rfl
      · simp [Sheet.front, Frame.front, hhead, Head.text, Head.mark, Head.gapFor, Head.gap]
  | key name gap =>
      obtain ⟨key, hkey, -, hkeystart, hkeystop⟩ := exists_key_of_plug h hhead
      have hreplace := replaceUnderKey_sheet h hhead hnew hv hkeystart hkeystop hcolumn hc
      rw [hhead] at hreplace
      simpa [hkey, Head.isKey, ok_bind] using hreplace

end Plan

/-! ## What is read then -/

/-- Whether a value can be written so that it is read as the same again. -/
def Value.RoundTrips (v : Value) : Prop :=
  ∃ text w, v.render = .ok text ∧ Value.parse text = .ok w ∧ Value.same w v = true

instance (v : Value) : Decidable v.RoundTrips :=
  decidable_of_iff (v.render.toOption.any fun text =>
      (Value.parse text).toOption.any (Value.same · v)) (by
    simp only [Option.any_eq_true, toOption_eq_some]
    exact ⟨fun ⟨text, htext, w, hw, hsame⟩ => ⟨text, w, htext, hw, hsame⟩,
      fun ⟨text, w, htext, hw, hsame⟩ => ⟨text, htext, w, hw, hsame⟩⟩)

/-- Whether a fragment is read as a value, wherever it is put. -/
def Fragment.ReadsAs (f : Fragment) (v : Value) : Prop :=
  ∀ column, ∃ w, Value.parse (Text.spaces column ++ f.indented column false) = .ok w ∧
    Value.same w v = true

theorem Text.exists_trimLineFeeds (t : Text) :
    ∃ k, t = t.trimLineFeeds ++ List.replicate k '\n' := by
  refine ⟨(t.reverse.takeWhile (· == '\n')).length, ?_⟩
  have hfeeds : (t.reverse.takeWhile (· == '\n')).reverse =
      List.replicate (t.reverse.takeWhile (· == '\n')).length '\n' := by
    rw [List.eq_replicate_iff]
    refine ⟨List.length_reverse, fun c hc => ?_⟩
    simpa using List.mem_takeWhile_imp (List.mem_reverse.mp hc)
  rw [← hfeeds, Text.trimLineFeeds, ← List.reverse_append, List.takeWhile_append_dropWhile,
    List.reverse_reverse]

theorem Text.IsLegible.shift {t : Text} (h : t.IsLegible) (n : Nat) : (t.shift n).IsLegible := by
  intro c hc
  obtain ⟨d, hd, hc⟩ := List.mem_flatMap.mp hc
  split at hc
  · next hfeed =>
      rcases List.mem_cons.mp hc with rfl | hc
      · exact h _ (hfeed ▸ hd)
      · exact IsLegible.of_spaces n c hc
  · exact List.mem_singleton.mp hc ▸ h d hd

/-- **A fragment that is a sheet is read at every column as it is on its own.** -/
theorem Fragment.IsSheet.readsAs {f : Fragment} {t : Sheet} {v : Value} (h : f.IsSheet t)
    (hf : Fragment.ofValue v = .ok f) (hlegible : f.text.IsLegible) (hv : v.RoundTrips) :
    f.ReadsAs v := by
  intro column
  obtain ⟨text, w, hrender, hparse, hsame⟩ := hv
  refine ⟨w, ?_, hsame⟩
  obtain ⟨k, htext⟩ := text.exists_trimLineFeeds
  have htrim : f.text = text.trimLineFeeds := by
    rw [Fragment.ofValue, hrender] at hf
    cases hf
    rfl
  rw [← htrim, ← h.body] at htext
  -- on its own
  have hown : (Value.parse text).toOption = t.outline.value? Value.maxDepth := by
    rw [htext]
    refine Value.parse_sheet (g := []) .nil h.fits ?_ ?_
    · cases k with
      | zero => exact .inr rfl
      | succ k =>
          exact .inl ⟨.of_blank fun c hc => .inr (List.eq_of_mem_replicate hc), rfl,
            List.mem_cons_self⟩
    · rw [List.nil_append]
      refine Text.IsLegible.append_iff.mpr ⟨h.body ▸ hlegible, fun c hc => ?_⟩
      obtain rfl := List.eq_of_mem_replicate hc
      decide
  -- at the column
  obtain ⟨hfits, hindented, -⟩ := h.at_column hf column
  have hmoved : (Value.parse (Text.spaces column ++ f.indented column false)).toOption =
      t.outline.value? Value.maxDepth := by
    rw [hindented, ← List.append_nil (t.shift column).body, ← Sheet.outline_shift column]
    refine Value.parse_sheet (.of_spaces column) ?_ (.inr rfl) ?_
    · rwa [Text.columnBehind_spaces, Nat.zero_add]
    · rw [List.append_nil, (h.fits.body_shift column).2, h.body]
      exact Text.IsLegible.append_iff.mpr ⟨.of_spaces column, hlegible.shift column⟩
  rw [hparse] at hown
  exact toOption_eq_some.mp (hmoved.trans hown.symm)

namespace Text.IsSheet

variable {source text g path : Text} {fs : List Frame} {f : Frame} {u s : Sheet} {new : Fragment}
  {v : Value}

/-- A fragment that has been put into a sheet decodes to its value. -/
theorem decodes (h : source.IsSheet g (Sheet.plug fs u)) (hnew : new.IsSheet s)
    (hv : Fragment.ofValue v = .ok new) (hread : new.ReadsAs v)
    (hbody : u.body = (s.shift (Sheet.columnIn (Text.columnBehind 0 g) fs)).body)
    (hword : u.isWord = s.isWord) :
    ((Sheet.plug fs u).snapshot source g).Decodes ([0, 0] ++ Sheet.addr fs) v := by
  have hvalue := h.valueAt
  generalize hcolumn : ((SourceMap.ofText source).position
    (Text.size (g ++ Sheet.front fs))).column = column at hvalue
  obtain ⟨w, hw, hsame⟩ := hread column
  refine ⟨w, ?_, hsame⟩
  rw [hvalue, hbody, ← Plan.indented_eq hnew hv (n := column), hw]
  · rfl
  · intro hcontainer
    have hcollection : u.isWord = false := by
      have := hnew.container
      rw [hcontainer, ← hword] at this
      simpa using this.symm
    have := SourceMap.column_of_upright (h.fits.upright_front h.isUpright hcollection)
      (u.body ++ (u.tail ++ Sheet.back fs))
    rw [← h.text_plug, Sheet.Fits.columnBehind_front h.fits, hcolumn] at this
    exact this

/-- An address in a collection of a sheet is that of a node in a frame. -/
theorem exists_frame {t : Sheet} {a : Address} (h : source.IsSheet g t)
    (hpath : (t.snapshot source g).addressOf path = some a) {style : Style}
    (hstyle : (t.snapshot source g).entryStyle? a = some style) :
    ∃ f fs u, t = Sheet.plug (f :: fs) u ∧ a = [0, 0] ++ Sheet.addr (f :: fs) := by
  obtain ⟨fs, u, rfl, rfl⟩ := Sheet.exists_plug_of_addressOf h hpath
  cases fs with
  | nil =>
      obtain ⟨b, i, hb, hne⟩ := Snapshot.eq_append_of_entryStyle? h.ofText hpath hstyle
      exact absurd (List.append_inj_left' (show [0] ++ [0] = b ++ [i] from hb) rfl).symm hne
  | cons f fs => exact ⟨f, fs, u, rfl, rfl⟩

end Text.IsSheet

/-- **A value that an update puts into a sheet reads back**, if its text is a sheet: the update
renders, the path leads to where it did, to the new value, and nothing else changes. -/
theorem update_of_sheet_reads_back {source g path : Text} {t s : Sheet} {e : Editor} {a : Address}
    {v : Value} {new : Fragment} (h : source.IsSheet g t) (hload : Editor.load source = .ok e)
    (hpath : e.snapshot.addressOf path = some a)
    (hstyle : e.snapshot.entryStyle? a = some .block) (hv : Fragment.ofValue v = .ok new)
    (hnew : new.IsSheet s) (hlegible : new.text.IsLegible) (hround : v.RoundTrips) :
    ∃ e' text, Editor.edit source (.update path v) = some (e, e', text) ∧
      ReadsBack e e' path a v := by
  have he := h.snapshot_of_load hload
  rw [he] at hpath hstyle
  obtain ⟨f, fs, u, rfl, rfl⟩ := h.exists_frame hpath hstyle
  obtain ⟨hhead, -, hu⟩ := Frame.fits_of_fill (Sheet.Fits.of_plug h.fits)
  generalize hcolumn : Sheet.columnIn (Text.columnBehind 0 g) fs = column at hhead hu
  generalize hgap : f.head.gapFor column new.isContainer = gap
  generalize hc : Text.columnBehind column (f.head.withGap gap).text = c
  have hfits := hhead.withGapFor new.isContainer
  have hcontainer : new.isContainer = !((s.shift c).setTail u.tail).isWord := by
    rw [Sheet.isWord_setTail, Sheet.isWord_shift]
    exact hnew.container
  have hfollows := hhead.follows_gapFor hcontainer
  obtain ⟨splice, hplan, happly⟩ := Plan.update_sheet h hnew hv hpath hcolumn (c := c)
    (by rw [hgap]; exact hc)
  rw [hgap] at hfits hfollows happly
  -- what is written is a sheet again, with the new node
  have hnode : ((s.shift c).setTail u.tail).Fits
      (Text.columnBehind (Sheet.columnIn (Text.columnBehind 0 g) fs)
        (f.head.withGap gap).text) := by
    rw [hcolumn, hc]
    exact (hnew.at_column hv c).1.setTail hu.isBreak_tail
  have hsheet := h.plug_head (hcolumn ▸ hfits)
    (Head.isKey_withGap gap f.head) hnode hfollows (by rw [Sheet.tail_setTail])
  have haddr := Sheet.addr_head (f := f) (Head.outlines_withGap gap f.head) fs
  have htext : g ++ (Sheet.plug ({ f with head := f.head.withGap gap } :: fs)
      ((s.shift c).setTail u.tail)).text = g ++ Sheet.front fs ++ Entry.textOf f.before ++
        f.head.mark ++ (gap ++ (s.shift c).body ++ (u.tail ++ Sheet.back (f :: fs))) := by
    rw [Sheet.text_plug, Sheet.text_setTail, Sheet.front, Frame.front, Head.text_withGap]
    simp [Sheet.back, Frame.back]
  obtain ⟨e', hedit, he'⟩ := h.exists_edit hsheet hload (o := .update path v) hplan
    (happly.trans (congrArg Except.ok htext.symm))
  refine ⟨e', _, hedit, ?_⟩
  have houtline : e'.snapshot.outline = e.snapshot.outline.replace
      ([0, 0] ++ Sheet.addr (f :: fs)) ((s.shift c).setTail u.tail).outline := by
    rw [he', he, Sheet.outline_snapshot, Sheet.outline_snapshot,
      Sheet.outline_plug_head (Head.isKey_withGap gap f.head)
        (Head.outlines_withGap gap f.head) fs u]
    rfl
  have hlocated : e'.snapshot.addressOf path = some ([0, 0] ++ Sheet.addr (f :: fs)) := by
    rw [Sheet.addr, ← List.append_assoc] at hpath houtline ⊢
    refine (Snapshot.addressOf_replace (he ▸ hpath) (by simp) houtline).mpr ?_
    exact Sheet.isReference_outline _
  refine ⟨hlocated, ?_, _, houtline⟩
  have hdecodes := hsheet.decodes hnew hv (hnew.readsAs hv hlegible hround) (by
    rw [Sheet.body_setTail, Sheet.columnIn, hcolumn, hc]) (by
    rw [Sheet.isWord_setTail, Sheet.isWord_shift])
  rw [← he', haddr] at hdecodes
  obtain ⟨w, hw, hsame⟩ := hdecodes
  have hread' := he' ▸ hsheet.ofText
  exact ⟨w, (Snapshot.value_eq_valueAt hread' hlocated).trans hw, hsame⟩

/-- A list takes the place of a word with a comment behind it. -/
theorem update_of_sheet_reads_back_list :
    ∃ e e' text,
      Editor.edit "a: b # x\nc:\n  - d\n".toList
        (.update "a".toList (.sequence [.string "x".toList, .string "y".toList])) =
          some (e, e', text) ∧
      ReadsBack e e' "a".toList [0, 0, 1]
        (.sequence [.string "x".toList, .string "y".toList]) := by
  obtain ⟨e, hload, hpath, hstyle⟩ := Editor.exists_load "a: b # x\nc:\n  - d\n".toList
    (P := fun e => e.snapshot.addressOf "a".toList = some [0, 0, 1] ∧
      e.snapshot.entryStyle? [0, 0, 1] = some .block) (by decide +kernel)
  obtain ⟨e', text, h⟩ := update_of_sheet_reads_back (g := [])
    (t := .more (.key "a".toList [' ']) (.word "b".toList " # x\n".toList)
      (.last (.key "c".toList "\n  ".toList) (.last (.dash [' ']) (.word "d".toList ['\n']))))
    (s := .more (.dash [' ']) (.word "x".toList ['\n'])
      (.last (.dash [' ']) (.word "y".toList ['\n'])))
    (v := .sequence [.string "x".toList, .string "y".toList]) (by decide +kernel) hload hpath
    hstyle rfl
    (by decide +kernel) (by decide +kernel) (by decide +kernel)
  exact ⟨e, e', text, h⟩

/-! ## Renamed keys -/

namespace Head

variable {head : Head} {column : Nat} {name name' gap : Text}

/-- Behind a line feed it makes no difference what the key is. -/
theorem columnBehind_key (hfeed : '\n' ∈ gap) (name name' : Text) :
    Text.columnBehind column (key name' gap).text =
      Text.columnBehind column (key name gap).text := by
  show Text.columnBehind column (name' ++ [':'] ++ gap) =
    Text.columnBehind column (name ++ [':'] ++ gap)
  rw [Text.columnBehind_append _ (name' ++ [':']), Text.columnBehind_append _ (name ++ [':'])]
  exact Text.columnBehind_of_mem hfeed _ _

/-- Another key in front of the same margin. -/
theorem Fits.rename (h : (key name gap).Fits column) (hname : Token.PlainLine name')
    (hlength : Text.size name' ≤ 1024) : (key name' gap).Fits column where
  margin := h.margin
  first := h.first
  deeper := by
    have hdeeper := h.deeper
    by_cases hfeed : '\n' ∈ gap
    · rwa [columnBehind_key hfeed name name']
    · have hline : '\n' ∉ name' ++ [':'] ++ gap := by
        simpa using ⟨Scan.not_mem_of_staysPlain hname.stays, hfeed⟩
      show column < Text.columnBehind column (name' ++ [':'] ++ gap)
      rw [Text.columnBehind_of_not_mem hline, List.length_append, List.length_append,
        List.length_singleton]
      omega
  item := nofun
  name := ⟨hname, hlength⟩

/-- What is behind the key stays where it fits. -/
theorem Fits.columnBehind_rename {t : Sheet} (hfollows : Sheet.Follows (key name gap) t)
    (ht : t.Fits (Text.columnBehind column (key name gap).text)) :
    t.Fits (Text.columnBehind column (key name' gap).text) := by
  by_cases hfeed : '\n' ∈ gap
  · rwa [columnBehind_key hfeed name name']
  · exact ht.of_isWord (hfollows rfl hfeed)

end Head

/-- The entries of a mapping are pairs, and those of a sequence are not. -/
theorem Sheet.isKey?_of_outline {t : Sheet} {style : Style} {l : List Outline} (isMapping : Bool)
    (h : t.outline = .group (if isMapping then .mapping style else .sequence style) l) :
    t.isKey? = some isMapping := by
  have hhead : ∀ {head : Head} {l' : List Outline}, Outline.group head.bracket l' =
      .group (if isMapping then .mapping style else .sequence style) l →
        head.isKey = isMapping := by
    intro head l' h
    rw [Head.bracket] at h
    cases hkey : head.isKey <;> cases isMapping <;> first | rfl | (rw [hkey] at h; cases h)
  cases t with
  | word => cases isMapping <;> cases h
  | last head _ | more head _ _ => exact congrArg some (hhead h)

/-- A key is replaced where it stands. -/
theorem Plan.rename_sheet {source g path name old gap : Text} {f : Frame} {fs : List Frame}
    {u : Sheet} (h : source.IsSheet g (Sheet.plug (f :: fs) u))
    (hpath : ((Sheet.plug (f :: fs) u).snapshot source g).addressOf path =
      some ([0, 0] ++ Sheet.addr (f :: fs))) (hhead : f.head = .key old gap)
    (hname : Fragment.ofValue (.string name) = .ok ⟨name, false⟩) (hline : '\n' ∉ name) :
    ∃ splice, rename ((Sheet.plug (f :: fs) u).snapshot source g) path name = .ok splice ∧
      splice.apply source = .ok (g ++ Sheet.front fs ++ Entry.textOf f.before ++
        (name ++ (':' :: gap ++ (u.text ++ Sheet.back (f :: fs))))) := by
  obtain ⟨target, hresolve, hentry, -⟩ := h.exists_target hpath .rename
  obtain ⟨key, hkey, -, hstart, hstop⟩ := exists_key_of_plug h hhead
  have hkind := Sheet.kind_tree (Frame.isKey?_fill (Sheet.Fits.of_plug h.fits))
    (.ofText source) (Text.size (g ++ Sheet.front fs))
  have hsource : source = g ++ Sheet.front fs ++ Entry.textOf f.before ++
      (old ++ (':' :: gap ++ (u.text ++ Sheet.back (f :: fs)))) := by
    rw [h.text, Sheet.text_plug, Sheet.front, Frame.front, hhead]
    simp [Head.text, Head.mark, Head.gap]
  refine ⟨_, rename_eq hresolve hentry ?_ hname ?_ hkey, ?_⟩
  · rw [Node.isMapping, hkind, hhead]
    rfl
  · simpa [Fragment.isMultiline] using hline
  · rw [Snapshot.startOf, Snapshot.stopOf, hstart, hstop, Sheet.offset_snapshot hsource,
      Sheet.offset_snapshot (y := ':' :: gap ++ (u.text ++ Sheet.back (f :: fs)))]
    · conv_lhs => rw [hsource]
      exact Splice.apply_replace name
    · rw [hsource]
      simp

theorem Fragment.indented_of_line {text : Text} (h : '\n' ∉ text) (isContainer : Bool)
    (column : Nat) : (⟨text, isContainer⟩ : Fragment).indented column false = text := by
  rw [indented, Indentation.reindent_eq, if_pos (.inr (by simpa using h))]

theorem Scalar.isLegible_of_printable {c : Char} (h : isPrintable c = true)
    (hc : isBreak c = false) :
    Value.Source.isTextChar c = true ∧ Value.Source.isForeign c = false := by
  constructor
  · simp only [isPrintable, Value.Source.isTextChar, Bool.or_eq_true, Bool.and_eq_true, beq_iff_eq,
      decide_eq_true_eq] at h ⊢
    omega
  · simp only [isBreak, Bool.or_eq_false_iff] at hc
    have hmark : (c == '\uFEFF') = false := by
      rw [beq_eq_false_iff_ne]
      rintro rfl
      exact absurd h (by decide)
    simp [Value.Source.isForeign, hc, hmark]

/-- A string that is written as it is is neither quoted nor taken for something else. -/
theorem Scalar.plain_of_written {name : Text} (hline : Token.PlainLine name)
    (hname : Fragment.ofValue (.string name) = .ok ⟨name, false⟩) :
    Plain.isAmbiguous name = false ∧ allowsPlain name = true := by
  have hfeed : name.contains '\n' = false := by
    simpa using Scan.not_mem_of_staysPlain hline.stays
  have hopen : (ofString 2 name).lineOpen = true := by
    rw [ofString, hfeed, if_neg (by decide)]
    split
    · rfl
    · split <;> rfl
  have hrender : Value.render (.string name) = .ok ((ofString 2 name).text ++ ['\n']) := by
    show Except.ok ((ofString 2 name).text ++ if (ofString 2 name).lineOpen then ['\n'] else []) = _
    rw [hopen]
    rfl
  have htrim : ((ofString 2 name).text ++ ['\n']).trimLineFeeds = name := by
    rw [Fragment.ofValue, hrender] at hname
    exact congrArg Fragment.text (Except.ok.inj hname)
  obtain ⟨k, hk⟩ := ((ofString 2 name).text ++ ['\n']).exists_trimLineFeeds
  rw [htrim] at hk
  by_cases hplain : (!Plain.isAmbiguous name && allowsPlain name) = true
  · simpa using hplain
  · -- a quote is no start of a plain line
    have hquote : ∃ q r, (ofString 2 name).text = q :: r ∧ Token.isReserved q = true := by
      rw [ofString, hfeed, if_neg (by decide), if_neg hplain]
      split
      · exact ⟨_, _, rfl, rfl⟩
      · exact ⟨_, _, rfl, rfl⟩
    obtain ⟨q, r, hquoted, hreserved⟩ := hquote
    obtain ⟨c, rest, rfl⟩ := List.exists_cons_of_ne_nil hline.ne_nil
    rw [hquoted] at hk
    obtain ⟨rfl, -⟩ := List.cons_eq_cons.mp hk
    exact absurd (hreserved.symm.trans hline.starts.2.1) (by decide)

theorem Scalar.ofPlain_of_written {name : Text} (hname : Plain.isAmbiguous name = false) :
    Value.ofPlain name = .ok (.string name) := by
  rw [Plain.isAmbiguous, Bool.or_eq_false_iff] at hname
  rw [Value.ofPlain]
  cases hsense : Plain.sense name <;> rw [hsense] at hname
  all_goals cases hname.2

theorem Scalar.isLegible_of_allowsPlain {name : Text} (h : allowsPlain name = true) :
    name.IsLegible := by
  intro c hc
  simp only [allowsPlain, allowsSingleQuotes, needsEscapes, Bool.and_eq_true, Bool.not_eq_true',
    Bool.or_eq_false_iff, Bool.not_eq_false', List.any_eq_false, List.all_eq_true] at h
  exact isLegible_of_printable (h.1.1.1.1.1.1.1 c hc) (by simpa using h.1.1.1.1.2 c hc)

/-- **A name that is written as it is is read as that string**, wherever it is put. -/
theorem Fragment.readsAs_name {name : Text} (hline : Token.PlainLine name)
    (hname : Fragment.ofValue (.string name) = .ok ⟨name, false⟩) :
    Fragment.ReadsAs ⟨name, false⟩ (.string name) := by
  intro column
  obtain ⟨hclear, hplain⟩ := Scalar.plain_of_written hline hname
  refine ⟨.string name, toOption_eq_some.mp ?_, by simp [Value.same]⟩
  have hread := Value.parse_sheet (g := Text.spaces column) (t := .word name ['\n'])
    (.of_spaces column)
    (.word hline ⟨.feed .nil, rfl, List.mem_cons_self⟩) (.inr rfl)
    (Text.IsLegible.append_iff.mpr ⟨.of_spaces column, by
      rw [List.append_nil]
      exact Scalar.isLegible_of_allowsPlain hplain⟩)
  rw [List.append_nil] at hread
  rw [indented_of_line (Scan.not_mem_of_staysPlain hline.stays)]
  refine hread.trans ?_
  rw [Sheet.outline, Outline.value?, Scalar.ofPlain_of_written hclear]
  rfl

/-- A key decodes to what it is read as. -/
theorem Text.IsSheet.decodes_key {source g name gap : Text} {f : Frame} {fs : List Frame}
    {u : Sheet} {v : Value} (h : source.IsSheet g (Sheet.plug (f :: fs) u))
    (hhead : f.head = .key name gap) (hread : Fragment.ReadsAs ⟨name, false⟩ v) :
    ((Sheet.plug (f :: fs) u).snapshot source g).Decodes
      ([0, 0] ++ Sheet.addr fs ++ [(Entry.outlinesOf f.before).length]) v := by
  have hname := (Frame.fits_of_fill (Sheet.Fits.of_plug h.fits)).1.name
  rw [hhead] at hname
  have hline := Scan.not_mem_of_staysPlain hname.1.stays
  have hsource : source = g ++ Sheet.front fs ++ Entry.textOf f.before ++
      (name ++ (':' :: gap ++ (u.text ++ Sheet.back (f :: fs)))) := by
    rw [h.text, Sheet.text_plug, Sheet.front, Frame.front, hhead]
    simp [Head.text, Head.mark, Head.gap]
  have hkey := f.nodes_fill_key (.ofText source) hhead u (Text.size (g ++ Sheet.front fs))
  rw [← Text.size_append, ← Text.size_append] at hkey
  have hnode : ((Sheet.plug (f :: fs) u).snapshot source g).tree.root.descendant?
      ([0, 0] ++ Sheet.addr fs ++ [(Entry.outlinesOf f.before).length]) =
        some ⟨.scalar name, (SourceMap.ofText source).position
            (Text.size (g ++ Sheet.front fs ++ Entry.textOf f.before)),
          (SourceMap.ofText source).position
            (Text.size (g ++ Sheet.front fs ++ Entry.textOf f.before ++ name)), none, []⟩ := by
    have hcollection := Sheet.descendant?_snapshot source g fs (f.fill u)
    rw [show Sheet.plug fs (f.fill u) = Sheet.plug (f :: fs) u from rfl] at hcollection
    rw [Node.descendant?_append hcollection, Node.descendant?, hkey]
    rfl
  have hvalue := Text.IsSheet.valueAt_of_node (t := Sheet.plug (f :: fs) u) (g := g) hsource hnode
    rfl rfl
  obtain ⟨w, hw, hsame⟩ := hread ((SourceMap.ofText source).position
    (Text.size (g ++ Sheet.front fs ++ Entry.textOf f.before))).column
  rw [Fragment.indented_of_line hline] at hw
  refine ⟨w, ?_, hsame⟩
  rw [hvalue, hw]
  rfl

/-- **A name that is written as it is takes the place of a key**: the renaming renders, the key is
the new name, and nothing else changes. -/
theorem rename_in_sheet_changes_key {source g path name : Text} {t : Sheet} {e : Editor}
    {a : Address} {i : Nat} {style : Style} {l : List Outline} (h : source.IsSheet g t)
    (hload : Editor.load source = .ok e) (hpath : e.snapshot.addressOf path = some (a ++ [i]))
    (hpairs : e.snapshot.outline.at? a = some (.group (.mapping style) l))
    (hline : Token.PlainLine name) (hlength : Text.size name ≤ 1024)
    (hname : Fragment.ofValue (.string name) = .ok ⟨name, false⟩) :
    ∃ e' text, Editor.edit source (.rename path name) = some (e, e', text) ∧
      KeyRenamed e e' (a ++ [i - 1]) name := by
  have he := h.snapshot_of_load hload
  rw [he] at hpath hpairs
  obtain ⟨fs, u, rfl, ha⟩ := Sheet.exists_plug_of_addressOf h hpath
  cases fs with
  | nil =>
      obtain ⟨rfl, -⟩ := List.append_inj' (show a ++ [i] = [0] ++ [0] from ha) rfl
      rw [Sheet.outline_snapshot] at hpairs
      cases hpairs
  | cons f fs =>
  rw [Sheet.addr, ← List.append_assoc] at ha
  obtain ⟨rfl, hi⟩ := List.append_inj' ha rfl
  obtain rfl : i = f.index := List.singleton_inj.mp hi
  rw [List.append_assoc] at hpath
  have hfill := h.fits.fill.of_plug
  have hmapping : (f.fill u).outline = .group (.mapping style) l := by
    have := Sheet.at?_plug fs (f.fill u)
    rw [Sheet.outline_snapshot] at hpairs
    exact Option.some.inj (this.symm.trans hpairs)
  have hkey := (Frame.isKey?_fill hfill).symm.trans (Sheet.isKey?_of_outline true hmapping)
  obtain ⟨old, gap, hhead⟩ : ∃ old gap, f.head = .key old gap := by
    cases hhead : f.head with
    | dash => rw [hhead] at hkey; cases hkey
    | key old gap => exact ⟨old, gap, rfl⟩
  -- what is written is a sheet again, with the new key
  obtain ⟨hfits, hfollows, hu⟩ := Frame.fits_of_fill hfill
  rw [hhead] at hfits hfollows hu
  have hsheet := h.plug_head (hfits.rename hline hlength)
    (by rw [hhead]; rfl) (Head.Fits.columnBehind_rename hfollows hu) hfollows rfl
  obtain ⟨splice, hplan, happly⟩ := Plan.rename_sheet h hpath hhead hname
    (Scan.not_mem_of_staysPlain hline.stays)
  have htext : g ++ (Sheet.plug ({ f with head := .key name gap } :: fs) u).text =
      g ++ Sheet.front fs ++ Entry.textOf f.before ++
        (name ++ (':' :: gap ++ (u.text ++ Sheet.back (f :: fs)))) := by
    rw [Sheet.text_plug, Sheet.front, Frame.front]
    simp [Head.text, Head.mark, Head.gap, Sheet.back, Frame.back]
  obtain ⟨e', hedit, he'⟩ := h.exists_edit hsheet hload (o := .rename path name) hplan
    (happly.trans (congrArg Except.ok htext.symm))
  have hindex : f.index - 1 = (Entry.outlinesOf f.before).length := by
    rw [Frame.index_of_key hhead, Nat.add_sub_cancel]
  refine ⟨e', _, hedit, ?_, ?_⟩
  · rw [he', he, hindex, Sheet.outline_snapshot, Sheet.outline_snapshot,
      Sheet.outline_plug_key hhead fs u, List.append_assoc]
    rfl
  · have := hsheet.decodes_key (f := { f with head := .key name gap }) rfl
      (Fragment.readsAs_name hline hname)
    rwa [← he', ← hindex] at this

/-- A key with a comment behind its value. -/
theorem rename_in_sheet_changes_commented_key :
    ∃ e e' text,
      Editor.edit "a: b # x\nc: d\n".toList (.rename "a".toList "k l".toList) =
        some (e, e', text) ∧
      KeyRenamed e e' [0, 0, 0] "k l".toList := by
  obtain ⟨e, hload, hpath, hpairs⟩ := Editor.exists_load "a: b # x\nc: d\n".toList
    (P := fun e => e.snapshot.addressOf "a".toList = some ([0, 0] ++ [1]) ∧
      (e.snapshot.outline.at? [0, 0]).map Outline.signs = some (Outline.group (.mapping .block)
        (["a", "b", "c", "d"].map (.scalar ·.toList))).signs) (by decide +kernel)
  obtain ⟨x, hat, hx⟩ := Option.map_eq_some_iff.mp hpairs
  obtain rfl := Outline.signs_injective hx
  obtain ⟨e', text, h⟩ := rename_in_sheet_changes_key (g := [])
    (t := .more (.key "a".toList [' ']) (.word "b".toList " # x\n".toList)
      (.last (.key "c".toList [' ']) (.word "d".toList ['\n'])))
    (by decide +kernel) hload hpath hat (show Token.PlainLine "k l".toList by decide +kernel)
    (by decide +kernel) rfl
  exact ⟨e, e', text, h⟩

end YamlEdit
