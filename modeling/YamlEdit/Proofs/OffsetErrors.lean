import YamlEdit.Proofs.Histories
import YamlEdit.Proofs.PlanOffsets

/-!
# Offsets inside characters

A text is cut at offsets that are computed, and a cut inside a character, or past the end, ends a
call with an error. Two searches can lead to one, for they step one byte past a blank that may be
longer: the one for the dash of an item and the one for the header of a block scalar. All other
offsets are boundaries of the text. So reading a text fails at an offset if and only if a search
stumbles (`Snapshot.ofText_fails_iff`), and so does a queue of operations
(`Editor.applyAll_fails_iff`).

Main statement: `Editor.fails_at_offset_iff`.
-/

namespace YamlEdit

open EditError (Result)

/-- The offset that a computation fails at. -/
def EditError.Result.offset? {α : Type} : Result α → Option BadOffset
  | .error (.badOffset b) => some b
  | _ => none

theorem EditError.Result.eq_of_offset? {α : Type} {x : Result α} {b : BadOffset}
    (h : Result.offset? x = some b) : x = .error (.badOffset b) := by
  unfold Result.offset? at h
  split at h
  · cases h
    rfl
  · cases h

/-! ## Blanks of one byte -/

namespace Extent

variable {source : Text} {place : Nat}

/-- Blanks that no search stumbles over. -/
def Narrow (t : Text) : Prop := ∀ c ∈ t, Text.isBlank c = true → c.utf8Size = 1

theorem not_dashLost_of_narrow {before : Text} (h : Narrow before) : ¬ DashLost before := by
  intro hlost
  induction hlost with
  | @wide before word rest c _ hword hwide =>
      have hc : c ∈ before := by
        refine (List.dropWhile_suffix Text.isBlank).subset ?_
        rw [hword.split]
        simp
      have := h c hc (hword.blank c rfl)
      omega
  | @property before word rest _ hword _ _ ih =>
      refine ih fun c hc => h c ((List.dropWhile_suffix Text.isBlank).subset ?_)
      rw [hword.split]
      exact List.mem_append_right _ hc

/-- **No search for a dash stumbles over blanks of one byte.** -/
theorem not_dashLostAt_of_narrow (h : Narrow source) : ¬ DashLostAt source place := by
  rintro ⟨x, y, rfl, -, hlost⟩
  refine not_dashLost_of_narrow (fun c hc => ?_) hlost
  exact h c (List.mem_append_left y (List.mem_reverse.mp hc))

/-- **No search for a header stumbles over blanks of one byte.** -/
theorem not_headerLostAt_of_narrow (h : Narrow source) : ¬ HeaderLostAt source place := by
  rintro ⟨x, y, rfl, -, -, word, c, rest, hword, hwide⟩
  obtain ⟨u, v, hx, -⟩ := exists_headerLine x
  have hline : c ∈ headerLine x.reverse := by
    rw [← List.mem_reverse, hword.split]
    simp
  have hc : c ∈ x ++ y := by
    rw [hx]
    simp [hline]
  have := h c hc (hword.blank c rfl)
  omega

end Extent

theorem TreeBuilder.not_stumbles_of_narrow {m : SourceMap} (h : Extent.Narrow m.source) {s : State}
    {events : List (Event × Span)} : ¬ Stumbles m s events := by
  intro hstumbles
  induction hstumbles with
  | here hstep =>
      cases hstep with
      | header _ _ _ hlost => exact Extent.not_headerLostAt_of_narrow h hlost
      | dash _ _ _ _ _ hlost => exact Extent.not_dashLostAt_of_narrow h hlost
  | later _ _ ih => exact ih

/-! ## Reading a text -/

namespace Snapshot

variable {source : Text} {s : Snapshot}

/-- A text that is well formed and on whose events the builder of the tree stumbles. -/
def Stumbles (source : Text) : Prop :=
  ∃ events, Event.ofDocument source = .ok events ∧
    TreeBuilder.Stumbles (SourceMap.ofText source) TreeBuilder.start events

/-- **A text fails at an offset if and only if the builder of its tree stumbles.** -/
theorem ofText_fails_iff :
    (∃ b, Snapshot.ofText source = .error (.badOffset b)) ↔ Snapshot.Stumbles source := by
  constructor
  · rintro ⟨b, hb⟩
    rcases ofText_eq_error hb with ⟨fault, -, hfault⟩ | ⟨events, b', hevents, hroot, -⟩
    · cases hfault
    · exact ⟨events, hevents, (Node.ofEvents_fails_iff hevents).mp ⟨b', hroot⟩⟩
  · rintro ⟨events, hevents, h⟩
    obtain ⟨b, hb⟩ := (Node.ofEvents_fails_iff hevents).mpr h
    refine ⟨b, ?_⟩
    have hroot : Node.ofText (SourceMap.ofText source) = .error (.badOffset b) := by
      unfold Node.ofText
      rw [show (SourceMap.ofText source).source = source from rfl, hevents]
      exact hb
    unfold Snapshot.ofText
    dsimp only
    rw [hroot]
    rfl

/-- The builder stumbles over long blanks only. -/
theorem not_stumbles_of_narrow (h : Extent.Narrow source) : ¬ Snapshot.Stumbles source := by
  rintro ⟨events, -, hstumbles⟩
  exact TreeBuilder.not_stumbles_of_narrow h hstumbles

end Snapshot

/-! ## Applying operations -/

/-- The start of the character that an offset is in. -/
theorem Text.floorBoundary_of_le {t : Text} {n : Nat} (h : n ≤ Text.size t) :
    ∃ k, t.floorBoundary n = some k ∧ t.IsBoundary k := by
  fun_induction floorBoundary t n with
  | case1 t => exact ⟨0, rfl, isBoundary_zero t⟩
  | case2 n =>
      rw [size_nil] at h
      omega
  | case3 c t n hle ih =>
      obtain ⟨k, hk, hboundary⟩ := ih (by rw [size_cons] at h; omega)
      refine ⟨c.utf8Size + k, by rw [hk]; rfl, ?_⟩
      have : Text.size [c] + k = c.utf8Size + k := by rw [size_cons, size_nil, Nat.add_zero]
      rw [← this]
      exact hboundary.append_left (x := [c])
  | case4 c t n hlt => exact ⟨0, rfl, isBoundary_zero _⟩

/-- A splice that fits a text can be applied to it. -/
theorem Splice.Fits.apply {C : Prop} {source : Text} {splice : Splice} (h : splice.Fits C source) :
    ∃ text, splice.apply source = .ok text := by
  have hfinish : splice.finish ≤ Text.size source := by
    rcases h.finish with hboundary | ⟨-, hle⟩
    · exact hboundary.le_size
    · exact hle
  obtain ⟨start, hstart, hbefore⟩ := Text.floorBoundary_of_le h.start.le_size
  obtain ⟨stop, hstop, hbehind⟩ := Text.floorBoundary_of_le hfinish
  obtain ⟨x, hx⟩ := Text.isBoundary_iff_takeBytes.mp hbefore
  obtain ⟨y, hy⟩ := Text.isBoundary_iff_dropBytes.mp hbehind
  refine ⟨x ++ splice.content ++ y, ?_⟩
  unfold Splice.apply
  rw [hstart, hstop]
  dsimp only
  rw [hx, hy]
  rfl

namespace Editor

/-- Operations of which one stumbles, when it is planned or when the new text is read. -/
inductive Stumbles : Snapshot → List Operation → Prop where
  | plan {s : Snapshot} {o : Operation} {rest : List Operation} (h : Plan.Stumbles s o) :
      Stumbles s (o :: rest)
  | read {s : Snapshot} {o : Operation} {rest : List Operation} {splice : Splice} {text : Text}
      (planned : Plan.operation s o = .ok splice) (applied : splice.apply s.source = .ok text)
      (h : Snapshot.Stumbles text) : Stumbles s (o :: rest)
  | later {s s' : Snapshot} {o : Operation} {rest : List Operation} (applied : apply s o = .ok s')
      (h : Stumbles s' rest) : Stumbles s (o :: rest)

section Stumbling

variable {source : Text} {s : Snapshot}

/-- **An operation fails at an offset if and only if it stumbles.** -/
theorem apply_fails_iff (hs : s.Within source) (o : Operation) :
    (∃ b, apply s o = .error (.badOffset b)) ↔
      Plan.Stumbles s o ∨ ∃ splice text, Plan.operation s o = .ok splice ∧
        splice.apply s.source = .ok text ∧ Snapshot.Stumbles text := by
  have hplan := hs.operation o
  constructor
  · rintro ⟨b, hb⟩
    rcases bind_eq_error.mp hb with hplanned | ⟨splice, hplanned, hb⟩
    · exact .inl ((yields_iff.mp hplan).2 _ hplanned b rfl)
    · have hfits := (yields_iff.mp hplan).1 splice hplanned
      rw [← hs.source_eq] at hfits
      obtain ⟨text, htext⟩ := hfits.apply
      have htext' : (liftM (splice.apply s.source) : Result Text) = .ok text :=
        lift_offset_eq_ok.mpr htext
      rw [htext', ok_bind] at hb
      exact .inr ⟨splice, text, hplanned, htext, Snapshot.ofText_fails_iff.mp ⟨b, hb⟩⟩
  · rintro (h | ⟨splice, text, hplanned, htext, h⟩)
    · obtain ⟨b, hb⟩ := Plan.operation_of_stumbles h
      exact ⟨b, bind_eq_error.mpr (.inl hb)⟩
    · obtain ⟨b, hb⟩ := Snapshot.ofText_fails_iff.mpr h
      refine ⟨b, bind_eq_error.mpr (.inr ⟨splice, hplanned, ?_⟩)⟩
      exact bind_eq_error.mpr (.inr ⟨text, lift_offset_eq_ok.mpr htext, hb⟩)

/-- The snapshot after an operation is one of a text. -/
theorem exists_within_of_apply {s' : Snapshot} {o : Operation} (h : apply s o = .ok s') :
    ∃ text, s'.Within text := by
  obtain ⟨splice, -, h⟩ := bind_eq_ok.mp h
  obtain ⟨text, -, h⟩ := bind_eq_ok.mp h
  exact ⟨text, Snapshot.within_of_ofText h⟩

/-- The same for operations one after the other. -/
theorem applyAll_fails_iff (hs : s.Within source) (os : List Operation) :
    (∃ b, (applyAll s os).2 = some (.badOffset b)) ↔ Stumbles s os := by
  induction os generalizing s source with
  | nil =>
      constructor
      · rintro ⟨b, hb⟩
        cases hb
      · rintro ⟨⟩
  | cons o rest ih =>
      have hfirst := apply_fails_iff hs o
      rw [applyAll]
      cases happly : apply s o with
      | ok s' =>
          obtain ⟨text, hs'⟩ := exists_within_of_apply happly
          rw [happly] at hfirst
          rw [ih hs']
          constructor
          · exact .later happly
          · intro h
            cases h with
            | plan h =>
                obtain ⟨b, hb⟩ := hfirst.mpr (.inl h)
                cases hb
            | read hplanned happlied h =>
                obtain ⟨b, hb⟩ := hfirst.mpr (.inr ⟨_, _, hplanned, happlied, h⟩)
                cases hb
            | later happlied h =>
                cases happly.symm.trans happlied
                exact h
      | error fault =>
          rw [happly] at hfirst
          constructor
          · rintro ⟨b, hb⟩
            cases hb
            rcases hfirst.mp ⟨b, rfl⟩ with h | ⟨splice, text, hplanned, happlied, h⟩
            · exact .plan h
            · exact .read hplanned happlied h
          · intro h
            have hfails : ∃ b, (Except.error fault : Result Snapshot) = .error (.badOffset b) := by
              cases h with
              | plan h => exact hfirst.mpr (.inl h)
              | read hplanned happlied h => exact hfirst.mpr (.inr ⟨_, _, hplanned, happlied, h⟩)
              | later happlied _ => cases happly.symm.trans happlied
            obtain ⟨b, hb⟩ := hfails
            cases hb
            exact ⟨b, rfl⟩

end Stumbling

/-- A text fails to load at an offset if and only if the builder of its tree stumbles. -/
theorem load_fails_iff {source : Text} :
    (∃ b, load source = .error (.badOffset b)) ↔ Snapshot.Stumbles source := by
  rw [← Snapshot.ofText_fails_iff]
  constructor
  · rintro ⟨b, hb⟩
    rcases bind_eq_error.mp hb with hfails | ⟨s, -, hfails⟩
    · exact ⟨b, hfails⟩
    · cases hfails
  · rintro ⟨b, hb⟩
    exact ⟨b, bind_eq_error.mpr (.inl hb)⟩

/-- **Where a text is cut.** A text that the event parser accepts loads, unless the builder of its
tree stumbles; then it fails at an offset. Whatever an editor for the text has done, a search by
path never fails at an offset; the splice of an operation starts and stops at boundaries of the
current text, but for the end of one that empties a collection whose closing bracket is not found;
and a queue fails at an offset if and only if an operation in it stumbles. No search stumbles over
blanks of one byte. -/
theorem fails_at_offset_iff {source : Text} {events : List (Event × Span)}
    (h : Event.ofDocument source = .ok events) :
    ((∃ e, load source = .ok e) ↔
        ¬ TreeBuilder.Stumbles (SourceMap.ofText source) TreeBuilder.start events) ∧
      ((∃ b, load source = .error (.badOffset b)) ↔
        TreeBuilder.Stumbles (SourceMap.ofText source) TreeBuilder.start events) ∧
      (Extent.Narrow source →
        ¬ TreeBuilder.Stumbles (SourceMap.ofText source) TreeBuilder.start events) ∧
      ∀ e, Reached source e →
        (∀ path b, e.find path ≠ .error (.badOffset b)) ∧
        (∀ o splice, Plan.operation e.snapshot o = .ok splice →
          splice.Fits (Plan.EmptiesUnclosed e.snapshot o) e.source) ∧
        ((∃ b, e.render.2 = .error (.badOffset b)) ↔ Stumbles e.snapshot e.queue) := by
  have hstumbles : Snapshot.Stumbles source ↔
      TreeBuilder.Stumbles (SourceMap.ofText source) TreeBuilder.start events := by
    constructor
    · rintro ⟨events', h', hstumbles⟩
      cases h.symm.trans h'
      exact hstumbles
    · exact fun hstumbles => ⟨events, h, hstumbles⟩
  rw [← hstumbles, load_fails_iff]
  refine ⟨⟨?_, fun hread => ?_⟩, Iff.rfl, Snapshot.not_stumbles_of_narrow, fun e he => ?_⟩
  · rintro ⟨e, he⟩ hfails
    obtain ⟨b, hb⟩ := load_fails_iff.mpr hfails
    cases he.symm.trans hb
  · cases hload : load source with
    | ok e => exact ⟨e, rfl⟩
    | error fault =>
        rcases bind_eq_error.mp hload with hfails | ⟨s, -, hfails⟩
        · rcases Snapshot.ofText_eq_error hfails with ⟨_, hmalformed, -⟩ | ⟨_, b, -, -, rfl⟩
          · cases h.symm.trans hmalformed
          · exact absurd (load_fails_iff.mp ⟨b, hload⟩) hread
        · cases hfails
  · have hs := Snapshot.within_of_ofText he.consistent.snapshot
    refine ⟨fun path b hb => ?_, fun o splice hplanned => ?_, ?_⟩
    · rcases bind_eq_error.mp hb with hresolve | ⟨target, -, hfails⟩
      · exact (yields_iff.mp (Plan.yields_resolve hs path)).2 _ hresolve b rfl
      · cases hfails
    · exact (yields_iff.mp (hs.operation o)).1 splice hplanned
    · rw [← applyAll_fails_iff hs]
      unfold render
      dsimp only
      split
      · next hnone =>
          rw [hnone]
          exact ⟨nofun, nofun⟩
      · next fault hfault =>
          rw [hfault]
          constructor
          · rintro ⟨b, hb⟩
            cases hb
            exact ⟨b, rfl⟩
          · rintro ⟨b, hb⟩
            cases hb
            exact ⟨b, rfl⟩

/-- The comment of the second item ends with a word behind a long blank. The text loads, for only
the first dash is looked for then, and the second item cannot be deleted. -/
theorem fails_at_offset_iff_behind_comment :
    ∃ events e, Event.ofDocument "- a\n- # c\u00a0d\n  x\n".toList = .ok events ∧
      Reached "- a\n- # c\u00a0d\n  x\n".toList e ∧ e.queue = [.delete "1".toList] ∧
      ¬ TreeBuilder.Stumbles (SourceMap.ofText "- a\n- # c\u00a0d\n  x\n".toList)
        TreeBuilder.start events ∧
      e.render.2 = .error (.badOffset ⟨10⟩) ∧ Stumbles e.snapshot e.queue := by
  obtain ⟨e, hload, hrender⟩ := exists_load "- a\n- # c\u00a0d\n  x\n".toList
    (P := fun e => Result.offset? (e.enqueue (.delete "1".toList)).render.2 = some ⟨10⟩)
    (by decide +kernel)
  obtain ⟨hread, hqueue⟩ := load_eq_ok hload
  obtain ⟨events, -, hevents, -, -⟩ := Snapshot.ofText_eq_ok hread
  obtain ⟨hloads, -, -, hedits⟩ := fails_at_offset_iff hevents
  have hreached : Reached "- a\n- # c\u00a0d\n  x\n".toList (e.enqueue (.delete "1".toList)) :=
    (Reached.loaded hload).called (.enqueue (.delete "1".toList))
  have hfails := Result.eq_of_offset? hrender
  refine ⟨events, _, hevents, hreached, ?_, hloads.mp ⟨e, hload⟩, hfails,
    (hedits _ hreached).2.2.mp ⟨_, hfails⟩⟩
  rw [enqueue, hqueue, List.nil_append]

/-- **A text that the event parser accepts fails to load**, at an offset inside the blank of its
comment. -/
theorem load_fails_behind_comment :
    (∃ events, Event.ofDocument "- # c\u00a0d\n  x\n".toList = .ok events) ∧
      load "- # c\u00a0d\n  x\n".toList = .error (.badOffset ⟨6⟩) := by
  have hload : load "- # c\u00a0d\n  x\n".toList = .error (.badOffset ⟨6⟩) :=
    Result.eq_of_offset? (by decide +kernel)
  obtain ⟨events, hevents, -⟩ := load_fails_iff.mp ⟨_, hload⟩
  exact ⟨⟨events, hevents⟩, hload⟩

end Editor

end YamlEdit
