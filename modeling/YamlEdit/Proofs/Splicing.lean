import YamlEdit.Edit.Editor
import YamlEdit.Proofs.Inversion

/-!
# Splices and renderings

A cut of a text at an offset is a way to write it as two texts (`Text.cutAt_eq_ok`), so taking,
dropping and slicing are statements about appended texts. A splice leaves what is in front of its
start and what is behind its end alone (`Splice.apply_eq`), and one operation that renders is one
splice of the text, read anew (`Editor.splice_of_edit`).
-/

namespace YamlEdit

namespace Text

/-! ## Cuts -/

theorem size_pos_of_cons (c : Char) (t : Text) : 0 < size (c :: t) := by
  have := c.utf8Size_pos
  rw [size_cons]
  omega

theorem size_concat (x : Text) (c : Char) : size (x ++ [c]) = size x + c.utf8Size := by
  rw [size_append, size_cons, size_nil, Nat.add_zero]

theorem cutFrom_eq_ok {offset : Nat} {before t : Text} {n : Nat} {cut : Cut} :
    cutFrom offset before n t = .ok cut ↔
      ∃ x, t = x ++ cut.after ∧ cut.before = x.reverse ++ before ∧ size x = n := by
  fun_induction cutFrom offset before n t with
  | case1 before t =>
      constructor
      · intro h
        cases h
        exact ⟨[], rfl, rfl, rfl⟩
      · rintro ⟨x, rfl, hbefore, hx⟩
        cases x with
        | nil =>
            obtain ⟨b, a⟩ := cut
            cases hbefore
            rfl
        | cons c x =>
            have := size_pos_of_cons c x
            omega
  | case2 before n =>
      constructor
      · intro h
        cases h
      · rintro ⟨x, hx, -, hsize⟩
        obtain ⟨rfl, -⟩ := List.append_eq_nil_iff.mp hx.symm
        cases hsize
  | case3 before n c t hle ih =>
      rw [ih]
      constructor
      · rintro ⟨x, rfl, hbefore, hx⟩
        refine ⟨c :: x, rfl, by simp [hbefore], ?_⟩
        rw [size_cons]
        omega
      · rintro ⟨x, ht, hbefore, hx⟩
        cases x with
        | nil => cases hx
        | cons d x =>
            obtain ⟨rfl, rfl⟩ := List.cons.inj ht
            refine ⟨x, rfl, by simp [hbefore], ?_⟩
            rw [size_cons] at hx
            omega
  | case4 before n c t hlt =>
      constructor
      · intro h
        cases h
      · rintro ⟨x, ht, -, hx⟩
        cases x with
        | nil => cases hx
        | cons d x =>
            obtain ⟨rfl, rfl⟩ := List.cons.inj ht
            rw [size_cons] at hx
            omega

/-- **A cut at an offset** writes the text as two, the first one of that many bytes. -/
theorem cutAt_eq_ok {t : Text} {n : Nat} {cut : Cut} :
    t.cutAt n = .ok cut ↔ t = cut.before.reverse ++ cut.after ∧ size cut.before.reverse = n := by
  unfold cutAt
  rw [cutFrom_eq_ok]
  constructor
  · rintro ⟨x, rfl, hbefore, rfl⟩
    rw [List.append_nil] at hbefore
    rw [hbefore, List.reverse_reverse]
    exact ⟨rfl, rfl⟩
  · rintro ⟨ht, hsize⟩
    exact ⟨cut.before.reverse, ht, by simp, hsize⟩

theorem takeBytes_eq_ok {t x : Text} {n : Nat} :
    t.takeBytes n = .ok x ↔ ∃ y, t = x ++ y ∧ size x = n := by
  unfold takeBytes
  rw [map_eq_ok]
  constructor
  · rintro ⟨cut, hcut, rfl⟩
    obtain ⟨ht, hsize⟩ := cutAt_eq_ok.mp hcut
    exact ⟨cut.after, ht, hsize⟩
  · rintro ⟨y, ht, hsize⟩
    exact ⟨⟨x.reverse, y⟩, cutAt_eq_ok.mpr (by simpa using ⟨ht, hsize⟩), by simp⟩

theorem dropBytes_eq_ok {t y : Text} {n : Nat} :
    t.dropBytes n = .ok y ↔ ∃ x, t = x ++ y ∧ size x = n := by
  unfold dropBytes
  rw [map_eq_ok]
  constructor
  · rintro ⟨cut, hcut, rfl⟩
    obtain ⟨ht, hsize⟩ := cutAt_eq_ok.mp hcut
    exact ⟨cut.before.reverse, ht, hsize⟩
  · rintro ⟨x, ht, hsize⟩
    exact ⟨⟨x.reverse, y⟩, cutAt_eq_ok.mpr (by simpa using ⟨ht, hsize⟩), rfl⟩

/-- A slice is a part of the text between two others. -/
theorem slice_eq_ok {t y : Text} {start stop : Nat} :
    t.slice start stop = .ok y ↔
      ∃ x z, t = x ++ y ++ z ∧ size x = start ∧ size x + size y = stop := by
  unfold slice
  rw [bind_eq_ok]
  constructor
  · rintro ⟨rest, hrest, h⟩
    obtain ⟨x, rfl, rfl⟩ := dropBytes_eq_ok.mp hrest
    split at h
    · next hle =>
        obtain ⟨z, rfl, hsize⟩ := takeBytes_eq_ok.mp h
        exact ⟨x, z, by simp, rfl, by omega⟩
    · cases h
  · rintro ⟨x, z, rfl, rfl, rfl⟩
    refine ⟨y ++ z, dropBytes_eq_ok.mpr ⟨x, by simp, rfl⟩, ?_⟩
    rw [if_pos (by omega)]
    exact takeBytes_eq_ok.mpr ⟨z, rfl, by omega⟩

/-! ## The two sides of an offset -/

/-- The characters that end at or before an offset. -/
def upTo : Text → (offset : Nat) → Text
  | _, 0 => []
  | [], _ + 1 => []
  | c :: t, n + 1 => if c.utf8Size ≤ n + 1 then c :: upTo t (n + 1 - c.utf8Size) else []

/-- The other characters: those from the one that an offset is in or in front of. -/
def onFrom : Text → (offset : Nat) → Text
  | t, 0 => t
  | [], _ + 1 => []
  | c :: t, n + 1 => if c.utf8Size ≤ n + 1 then onFrom t (n + 1 - c.utf8Size) else c :: t

/-- The two sides make up the text. -/
theorem upTo_append_onFrom (t : Text) (n : Nat) : t.upTo n ++ t.onFrom n = t := by
  fun_induction upTo t n with
  | case1 t => cases t <;> rfl
  | case2 n => rfl
  | case3 c t n hle ih => rw [onFrom, if_pos hle, List.cons_append, ih]
  | case4 c t n hlt => rw [onFrom, if_neg hlt]; rfl

theorem upTo_append (x y : Text) : (x ++ y).upTo (size x) = x := by
  induction x with
  | nil => cases y <;> rfl
  | cons c x ih =>
      obtain ⟨n, hn⟩ : ∃ n, size (c :: x) = n + 1 :=
        Nat.exists_eq_add_one_of_ne_zero (Nat.ne_of_gt (size_pos_of_cons c x))
      rw [hn, List.cons_append, upTo, if_pos (by rw [size_cons] at hn; omega),
        show n + 1 - c.utf8Size = size x by rw [size_cons] at hn; omega, ih]

theorem onFrom_append (x y : Text) : (x ++ y).onFrom (size x) = y := by
  have h := upTo_append_onFrom (x ++ y) (size x)
  rw [upTo_append] at h
  exact List.append_cancel_left h

/-- Where a splice may cut is between the two sides. -/
theorem size_upTo {t : Text} {n k : Nat} (h : t.floorBoundary n = some k) :
    size (t.upTo n) = k := by
  fun_induction upTo t n generalizing k with
  | case1 t =>
      cases t <;> (cases h; rfl)
  | case2 n => cases h
  | case3 c t n hle ih =>
      rw [floorBoundary, if_pos hle] at h
      obtain ⟨j, hj, rfl⟩ := Option.map_eq_some_iff.mp h
      rw [size_cons, ih hj]
  | case4 c t n hlt =>
      rw [floorBoundary, if_neg hlt] at h
      cases h
      rfl

/-- Two ways to cut a text at one place are the same. -/
theorem append_inj_of_size {x y x' y' : Text} (h : x ++ y = x' ++ y') (hsize : size x = size x') :
    x = x' ∧ y = y' := by
  have hx : x = x' := by rw [← upTo_append x y, ← upTo_append x' y', h, hsize]
  subst hx
  exact ⟨rfl, List.append_cancel_left h⟩

/-! ## Blanks -/

/-- The blanks at the end of a text. -/
theorem trimEnd_append_blanks (t : Text) :
    ∃ blanks : Text, t = t.trimEnd ++ blanks ∧ blanks.allBlank = true := by
  refine ⟨(t.reverse.takeWhile isBlank).reverse, ?_, ?_⟩
  · rw [trimEnd, ← List.reverse_append, List.takeWhile_append_dropWhile, List.reverse_reverse]
  · rw [allBlank, List.all_reverse]
    exact List.all_takeWhile

theorem trimEnd_append_of_blank {u v : Text} (h : ∀ c ∈ v, isBlank c = true) :
    trimEnd (u ++ v) = trimEnd u := by
  rw [trimEnd, List.reverse_append, List.dropWhile_append_of_pos fun c hc =>
    h c (List.mem_reverse.mp hc), trimEnd]

/-- What is left when the blanks at the end are gone does not end with one. -/
theorem not_isBlank_of_trimEnd {t : Text} : ∀ c ∈ t.trimEnd.getLast?, isBlank c = false := by
  intro c hc
  rw [trimEnd, List.getLast?_reverse] at hc
  have hnot := List.head?_dropWhile_not isBlank t.reverse
  rwa [Option.mem_def.mp hc] at hnot

/-- The blanks at the end of a part of a text are a part of it. -/
theorem slice_trimEnd {t gap : Text} {start stop : Nat} (h : t.slice start stop = .ok gap) :
    ∃ blanks : Text, gap = gap.trimEnd ++ blanks ∧ blanks.allBlank = true ∧
      t.slice (start + size gap.trimEnd) stop = .ok blanks := by
  obtain ⟨front, back, rfl, rfl, hsize⟩ := slice_eq_ok.mp h
  obtain ⟨blanks, hblanks, hall⟩ := trimEnd_append_blanks gap
  refine ⟨blanks, hblanks, hall, slice_eq_ok.mpr ⟨front ++ gap.trimEnd, back, ?_, ?_, ?_⟩⟩
  · calc front ++ gap ++ back = front ++ (gap.trimEnd ++ blanks) ++ back := by rw [← hblanks]
      _ = front ++ gap.trimEnd ++ blanks ++ back := by simp only [List.append_assoc]
  · rw [size_append]
  · rw [size_append, Nat.add_assoc, ← size_append, ← hblanks]
    exact hsize

theorem isBlank_of_isAsciiBlank {c : Char} (h : isAsciiBlank c = true) : isBlank c = true := by
  simp only [isAsciiBlank, Bool.or_eq_true, beq_iff_eq] at h
  rcases h with (((rfl | rfl) | rfl) | rfl) | rfl <;> decide

end Text

/-! ## Splices -/

namespace Splice

/-- A text with the part between two offsets replaced. -/
def written (s : Splice) (source : Text) : Text :=
  source.upTo s.start ++ s.content ++ source.onFrom s.finish

/-- **A splice changes one place of a text.** -/
theorem apply_eq {s : Splice} {source t : Text} (h : s.apply source = .ok t) :
    t = s.written source := by
  unfold apply at h
  split at h
  · next start stop hstart hstop =>
      obtain ⟨front, hfront, h⟩ := bind_eq_ok.mp h
      obtain ⟨back, hback, h⟩ := bind_eq_ok.mp h
      cases h
      obtain ⟨y, hy, hsize⟩ := Text.takeBytes_eq_ok.mp hfront
      obtain ⟨x, hx, hsize'⟩ := Text.dropBytes_eq_ok.mp hback
      -- both cuts are at the boundaries that the offsets stand for
      have hstart' := Text.size_upTo hstart
      have hstop' := Text.size_upTo hstop
      have hleft := (Text.append_inj_of_size
        (hy.symm.trans (Text.upTo_append_onFrom source s.start).symm) (by omega)).1
      have hright := (Text.append_inj_of_size
        (hx.symm.trans (Text.upTo_append_onFrom source s.finish).symm) (by omega)).2
      rw [written, hleft, hright]
  · cases h
  · cases h

end Splice

/-! ## One operation -/

namespace Snapshot

theorem source_of_ofText {source : Text} {s : Snapshot} (h : Snapshot.ofText source = .ok s) :
    s.source = source := by
  unfold Snapshot.ofText at h
  dsimp only at h
  split at h
  · cases h
  · cases h
    rfl

end Snapshot

namespace Editor

/-- A loaded editor has read its text, and nothing waits. -/
theorem load_eq_ok {source : Text} {e : Editor} (h : Editor.load source = .ok e) :
    Snapshot.ofText source = .ok e.snapshot ∧ e.queue = [] := by
  obtain ⟨s, hs, h⟩ := bind_eq_ok.mp h
  cases h
  exact ⟨hs, rfl⟩

/-- A text that loads into an editor which a check finds to have a property. -/
theorem exists_load (source : Text) {P : Editor → Prop} [∀ e, Decidable (P e)]
    (h : (load source).toOption.any (fun e => decide (P e)) = true) :
    ∃ e, load source = .ok e ∧ P e :=
  exists_ok_of_any h

/-- One operation on a text: the editor that has loaded it, the one after the rendering, and the
new text. There is none if the text does not load or the operation does not render. -/
def edit (source : Text) (o : Operation) : Option (Editor × Editor × Text) :=
  match load source with
  | .error _ => none
  | .ok e =>
    match (e.enqueue o).render with
    | (e', .ok text) => some (e, e', text)
    | (_, .error _) => none

theorem edit_eq_some {source text : Text} {o : Operation} {e e' : Editor} :
    edit source o = some (e, e', text) ↔
      load source = .ok e ∧ (e.enqueue o).render = (e', .ok text) := by
  unfold edit
  constructor
  · intro h
    split at h
    · cases h
    · next hload =>
        split at h
        · next hrender =>
            cases h
            exact ⟨hload, hrender⟩
        · cases h
  · rintro ⟨hload, hrender⟩
    rw [hload]
    dsimp only
    rw [hrender]

/-- An edit that a check finds to do something. -/
theorem exists_edit (source : Text) (o : Operation) {P : Editor → Editor → Text → Prop}
    [∀ e e' text, Decidable (P e e' text)]
    (h : (edit source o).any (fun p => decide (P p.1 p.2.1 p.2.2)) = true) :
    ∃ e e' text, edit source o = some (e, e', text) ∧ P e e' text := by
  obtain ⟨⟨e, e', text⟩, hedit, hp⟩ := (Option.any_eq_true _ _).mp h
  exact ⟨e, e', text, hedit, of_decide_eq_true hp⟩

/-- **An operation that is applied is one splice**, and the new text is read anew. -/
theorem apply_eq_ok {s s' : Snapshot} {o : Operation} (h : apply s o = .ok s') :
    ∃ splice, Plan.operation s o = .ok splice ∧ s'.source = splice.written s.source ∧
      Snapshot.ofText s'.source = .ok s' := by
  obtain ⟨splice, hplan, h⟩ := bind_eq_ok.mp h
  obtain ⟨t, ht, hs⟩ := bind_eq_ok.mp h
  rw [← Snapshot.source_of_ofText hs] at ht hs
  exact ⟨splice, hplan, Splice.apply_eq (lift_offset_eq_ok.mp ht), hs⟩

/-- **One operation that renders is one splice**: the text is the old one with the planned part
replaced, and the editor has read it anew. -/
theorem splice_of_edit {source text : Text} {e e' : Editor} {o : Operation}
    (hedit : edit source o = some (e, e', text)) :
    ∃ splice, Plan.operation e.snapshot o = .ok splice ∧ text = splice.written source ∧
      Snapshot.ofText source = .ok e.snapshot ∧ Snapshot.ofText text = .ok e'.snapshot := by
  obtain ⟨hload, hrender⟩ := edit_eq_some.mp hedit
  obtain ⟨hread, hqueue⟩ := load_eq_ok hload
  rw [render, enqueue] at hrender
  dsimp only at hrender
  -- the queue holds this operation only
  rw [hqueue, List.nil_append, applyAll] at hrender
  cases happly : Editor.apply e.snapshot o with
  | error fault =>
      rw [happly] at hrender
      cases hrender
  | ok s =>
      rw [happly] at hrender
      cases hrender
      obtain ⟨splice, hplan, hwritten, hs⟩ := apply_eq_ok happly
      rw [Snapshot.source_of_ofText hread] at hwritten
      exact ⟨splice, hplan, hwritten, hread, hs⟩

end Editor

end YamlEdit
