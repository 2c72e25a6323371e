import YamlEdit.Proofs.Scanning

/-!
# What stands between tokens

Between two tokens of a document there are blanks, line breaks and comments: filler. The functions
that skip it step over filler and nothing else (`Scan.Trails`), other functions stay where they are
(`Scan.Stays`), and neither makes a key possible.

Main statements: the instances for `skipToToken`, `skipToLineEnd` and `skipAfterKeyIndicator`.
-/

namespace YamlEdit

namespace Text

/-- The characters of a text from number `i` on, up to number `j`. -/
def between (t : Text) (i j : Nat) : Text := (t.drop i).take (j - i)

@[simp] theorem between_self (t : Text) (i : Nat) : t.between i i = [] := by
  rw [between, Nat.sub_self, List.take_zero]

theorem between_append (t : Text) {i j k : Nat} (hij : i ≤ j) (hjk : j ≤ k) :
    t.between i j ++ t.between j k = t.between i k := by
  unfold between
  rw [show k - i = (j - i) + (k - j) by omega, List.take_add, List.drop_drop,
    show i + (j - i) = j by omega]

/-- What is read from a place on is what stands behind it. -/
theorem between_of_drop {t u v : Text} {i : Nat} (h : t.drop i = u ++ v) :
    t.between i (i + u.length) = u := by
  rw [between, h, Nat.add_sub_cancel_left, List.take_left]

end Text

namespace Token

/-- Blanks, line breaks and comments. A comment reaches up to the end of its line. -/
inductive Filler : Text → Prop where
  | nil : Filler []
  | blank {c : Char} {u : Text} (h : isSpaceOrBreak c = true) (rest : Filler u) : Filler (c :: u)
  | comment {body u : Text} (h : ∀ c ∈ body, isBreakOrEnd c = false) (rest : Filler u) :
      Filler ('#' :: (body ++ u))

theorem Filler.append {u v : Text} (hu : Filler u) (hv : Filler v) : Filler (u ++ v) := by
  induction hu with
  | nil => exact hv
  | blank h _ ih => exact .blank h ih
  | comment h _ ih =>
      rw [List.cons_append, List.append_assoc]
      exact .comment h ih

/-- White space is filler. -/
theorem filler_of_blank {u : Text} (h : ∀ c ∈ u, isSpaceOrBreak c = true) : Filler u := by
  induction u with
  | nil => exact .nil
  | cons c u ih =>
      exact .blank (h c List.mem_cons_self) (ih fun d hd => h d (List.mem_cons_of_mem c hd))

theorem isSpaceOrBreak_of_isSpace {c : Char} (h : isSpace c = true) : isSpaceOrBreak c = true := by
  rw [isSpaceOrBreak, h, Bool.true_or]

theorem isSpaceOrBreak_of_isBreak {c : Char} (h : isBreak c = true) : isSpaceOrBreak c = true := by
  rw [isSpaceOrBreak, h, Bool.or_true]

/-- Filler without a comment is blank. -/
theorem Filler.blank_of_not_mem {u : Text} (h : Filler u) (hu : '#' ∉ u) :
    ∀ c ∈ u, isSpaceOrBreak c = true := by
  induction h with
  | nil => exact fun c hc => nomatch hc
  | blank h _ ih =>
      intro d hd
      rcases List.mem_cons.mp hd with rfl | hd
      · exact h
      · exact ih (fun hmem => hu (List.mem_cons_of_mem _ hmem)) d hd
  | comment h _ _ => exact absurd List.mem_cons_self hu

end Token

namespace Scanner

/-- The keys that may still turn out to be one. -/
def possibleKeys (s : Scanner) : List PendingKey := s.keys.filter (·.possible)

/-- The tokens that wait are the same, and no key has become possible. -/
structure Waits (s s' : Scanner) : Prop where
  queue : s'.queue = s.queue
  taken : s'.taken = s.taken
  keys : s'.possibleKeys.Sublist s.possibleKeys
  bound : s'.bound = s.bound

theorem Waits.refl (s : Scanner) : s.Waits s := ⟨rfl, rfl, .refl _, rfl⟩

theorem Waits.trans {s s₁ s' : Scanner} (h : s.Waits s₁) (h' : s₁.Waits s') : s.Waits s' :=
  ⟨h'.queue.trans h.queue, h'.taken.trans h.taken, h'.keys.trans h.keys, h'.bound.trans h.bound⟩

/-- The scanner is where it was. -/
structure Stays (s s' : Scanner) : Prop extends s.Waits s' where
  rest : s'.rest = s.rest
  index : s'.mark.index = s.mark.index

/-- The scanner has stepped over filler. -/
structure Trails (s s' : Scanner) : Prop extends s.Waits s' where
  filler : ∃ u, s.rest = u ++ s'.rest ∧ s'.mark.index = s.mark.index + u.length ∧ Token.Filler u

/-- The scanner has moved on. -/
structure Forgets (s s' : Scanner) : Prop extends s.Waits s' where
  place : ∃ n, s'.rest = s.rest.drop n ∧ s'.mark.index = s.mark.index + n

section Courses

variable {s s' : Scanner}

instance : IsCourse Stays where
  refl s := ⟨.refl s, rfl, rfl⟩
  trans h h' := ⟨h.toWaits.trans h'.toWaits, h'.rest.trans h.rest, h'.index.trans h.index⟩

instance : IsCourse Trails where
  refl s := ⟨.refl s, [], rfl, rfl, .nil⟩
  trans h h' := by
    obtain ⟨u, hu, hindex, hfiller⟩ := h.filler
    obtain ⟨v, hv, hindex', hfiller'⟩ := h'.filler
    refine ⟨h.toWaits.trans h'.toWaits, u ++ v, ?_, ?_, hfiller.append hfiller'⟩
    · rw [hu, hv, List.append_assoc]
    · rw [hindex', hindex, List.length_append, Nat.add_assoc]

instance : IsCourse Forgets where
  refl s := ⟨.refl s, 0, rfl, rfl⟩
  trans h h' := by
    obtain ⟨n, hrest, hindex⟩ := h.place
    obtain ⟨n', hrest', hindex'⟩ := h'.place
    refine ⟨h.toWaits.trans h'.toWaits, n + n', ?_, ?_⟩
    · rw [hrest', hrest, List.drop_drop]
    · rw [hindex', hindex, Nat.add_assoc]

theorem Forgets.refl (s : Scanner) : s.Forgets s := IsCourse.refl s

theorem Forgets.trans {s₁ : Scanner} (h : s.Forgets s₁) (h' : s₁.Forgets s') : s.Forgets s' :=
  IsCourse.trans h h'

/-- No more is left than there was. -/
theorem Forgets.length_le (h : s.Forgets s') : s'.rest.length ≤ s.rest.length := by
  obtain ⟨n, hrest, -⟩ := h.place
  rw [hrest, List.length_drop]
  omega

theorem Stays.trails (h : s.Stays s') : s.Trails s' :=
  ⟨h.toWaits, [], by rw [h.rest]; rfl, h.index, .nil⟩

theorem Trails.forgets (h : s.Trails s') : s.Forgets s' := by
  obtain ⟨u, hu, hindex, -⟩ := h.filler
  exact ⟨h.toWaits, u.length, by rw [hu, List.drop_left], hindex⟩

theorem Passes.waits (h : s.Passes s') : s.Waits s' :=
  ⟨h.queue, h.taken, by rw [possibleKeys, h.keys]; exact .refl _, h.bound⟩

theorem Passes.forgets (h : s.Passes s') : s.Forgets s' := ⟨h.waits, h.place⟩

/-- Stepping over given characters. -/
theorem Passes.trails_of {u : Text} (h : s.Passes s') (hrest : s.rest = u ++ s'.rest)
    (hindex : s'.mark.index = s.mark.index + u.length) (hu : Token.Filler u) : s.Trails s' :=
  ⟨h.waits, u, hrest, hindex, hu⟩

end Courses

end Scanner

namespace Scan

open Token

-- an instance is as large as the function that it is about
set_option synthInstance.maxSize 4000

/-- A part of the scanner that stays where it is. -/
abbrev Stays {α : Type} (x : Scan α) : Prop := Takes Scanner.Stays x

/-- A part of the scanner that steps over filler. -/
abbrev Trails {α : Type} (x : Scan α) : Prop := Takes Scanner.Trails x

/-- A part of the scanner that moves on and makes no key possible. -/
abbrev Forgets {α : Type} (x : Scan α) : Prop := Takes Scanner.Forgets x

section Parts

variable {α : Type} {x : Scan α} {s s' : Scanner}

instance (priority := low) [hx : Stays x] : Trails x where
  course h := (hx.course h).trails

instance (priority := low) [hx : Trails x] : Forgets x where
  course h := (hx.course h).forgets

instance (priority := low) [hx : PassesOver x] : Forgets x where
  course h := (hx.course h).forgets

/-! ## Staying -/

/-- A change of what the scanner keeps beside the text, the queue and the keys. -/
theorem stays_note {f : Scanner → Scanner} (hrest : ∀ s : Scanner, (f s).rest = s.rest)
    (hindex : ∀ s : Scanner, (f s).mark.index = s.mark.index)
    (hqueue : ∀ s : Scanner, (f s).queue = s.queue) (htaken : ∀ s : Scanner, (f s).taken = s.taken)
    (hkeys : ∀ s : Scanner, (f s).keys = s.keys) (hbound : ∀ s : Scanner, (f s).bound = s.bound) :
    Stays (modify f : Scan Unit) :=
  takes_modify fun s => ⟨⟨hqueue s, htaken s, by rw [Scanner.possibleKeys, hkeys]; exact .refl _,
    hbound s⟩, hrest s, hindex s⟩

instance : Stays mark := by unfold mark; infer_instance

instance (n : Nat) : Stays (peekAt n) := by unfold peekAt; infer_instance

instance : Stays peek := by unfold peek; infer_instance

instance : Stays fuel := by unfold fuel; infer_instance

instance : Stays allowKey :=
  stays_note (fun _ => rfl) (fun _ => rfl) (fun _ => rfl) (fun _ => rfl) (fun _ => rfl) fun _ => rfl

instance : Stays forbidKey :=
  stays_note (fun _ => rfl) (fun _ => rfl) (fun _ => rfl) (fun _ => rfl) (fun _ => rfl) fun _ => rfl

/-- The keys are changed, and none becomes possible. -/
theorem stays_of_keys {keys : List PendingKey}
    (h : (keys.filter (·.possible)).Sublist s.possibleKeys) : s.Stays { s with keys } :=
  ⟨⟨rfl, rfl, h, rfl⟩, rfl, rfl⟩

instance : Stays dropPendingKey where
  course {s a s'} h := by
    unfold dropPendingKey at h
    obtain ⟨_, _, hget, h⟩ := stateful_bind_eq_ok.mp h
    cases hget
    cases hkeys : s.keys with
    | nil =>
        rw [hkeys] at h
        cases h
        exact Scanner.IsCourse.refl s
    | cons pending outer =>
        rw [hkeys] at h
        dsimp only at h
        split at h
        · cases h
        · cases h
          refine stays_of_keys ?_
          rw [Scanner.possibleKeys, hkeys, List.filter_cons_of_neg (by simp)]
          exact (List.sublist_cons_self pending outer).filter _

/-- Giving up keys makes none possible. -/
theorem filter_map_sublist {p : PendingKey → Bool} (keys : List PendingKey) :
    ((keys.map fun key => if p key then { key with possible := false } else key).filter
      (·.possible)).Sublist (keys.filter (·.possible)) := by
  induction keys with
  | nil => exact .slnil
  | cons key rest ih =>
      rw [List.map_cons]
      split
      · rw [List.filter_cons_of_neg (by simp)]
        exact ih.trans ((List.sublist_cons_self key rest).filter _)
      · rw [List.filter_cons, List.filter_cons]
        split
        · exact ih.cons_cons key
        · exact ih

instance : Stays dropStaleKeys where
  course {s a s'} h := by
    unfold dropStaleKeys at h
    obtain ⟨_, _, hget, h⟩ := stateful_bind_eq_ok.mp h
    cases hget
    split at h
    · cases h
    · cases h
      exact stays_of_keys (filter_map_sublist s.keys)

instance : Stays rollProvisional := by
  refine takes_modify fun s => ?_
  split
  · exact ⟨⟨rfl, rfl, .refl _, rfl⟩, rfl, rfl⟩
  · exact Scanner.IsCourse.refl s

instance : Stays enterFlow where
  course {s a s'} h := by
    unfold enterFlow at h
    obtain ⟨_, _, hget, h⟩ := stateful_bind_eq_ok.mp h
    cases hget
    split at h
    · cases h
    · cases h
      refine ⟨⟨rfl, rfl, ?_, rfl⟩, rfl, rfl⟩
      show ((PendingKey.none :: s.keys).filter (·.possible)).Sublist s.possibleKeys
      rw [List.filter_cons_of_neg (by simp [PendingKey.none])]
      exact .refl _

instance : Stays leaveFlow := by
  refine takes_modify fun s => ?_
  split
  · exact ⟨⟨rfl, rfl, (List.drop_sublist 1 s.keys).filter _, rfl⟩, rfl, rfl⟩
  · exact Scanner.IsCourse.refl s

/-! ## Stepping over filler -/

/-- The next characters of the line are stepped over. -/
theorem trails_skipN {u v : Text} (hrest : s.rest = u ++ v) (hu : Filler u)
    (h : skipN u.length s = .ok ((), s')) : s.Trails s' := by
  refine (PassesOver.passes h).trails_of (u := u) ?_ ?_ hu
  · cases h
    show s.rest = u ++ s.rest.drop u.length
    rw [hrest, List.drop_left]
  · cases h
    rfl

/-- Characters of the line that are filler are taken. -/
theorem trails_takeLine {p : Char → Bool} {taken : Text} (hfiller : Filler (s.rest.takeWhile p))
    (h : takeLine p s = .ok (taken, s')) : taken = s.rest.takeWhile p ∧ s.Trails s' := by
  unfold takeLine at h
  obtain ⟨_, _, hget, h⟩ := stateful_bind_eq_ok.mp h
  cases hget
  obtain ⟨_, s₁, hskip, h⟩ := stateful_bind_eq_ok.mp h
  cases h
  exact ⟨rfl, trails_skipN List.takeWhile_append_dropWhile.symm hfiller hskip⟩

/-- The next character, which is not the end of the document. -/
theorem rest_eq_of_peek {c : Char} (hc : c ≠ '\x00') (h : s.rest.headD '\x00' = c) :
    s.rest = c :: s.rest.drop 1 := by
  cases hrest : s.rest with
  | nil =>
      rw [hrest] at h
      exact absurd h.symm hc
  | cons d rest =>
      rw [hrest] at h
      obtain rfl : d = c := h
      rfl

theorem ne_end_of_isSpaceOrBreak {c : Char} (h : isSpaceOrBreak c = true) : c ≠ '\x00' := by
  rintro rfl
  cases h

/-- A comment is stepped over up to the end of its line. -/
theorem trails_skipComment (hc : s.rest.headD '\x00' = '#') (h : skipComment s = .ok ((), s')) :
    s.Trails s' := by
  have hrest := rest_eq_of_peek (by decide) hc
  change (takeLine (!isBreakOrEnd ·) >>= fun _ => pure ()) s = .ok ((), s') at h
  obtain ⟨taken, s₁, htake, h⟩ := stateful_bind_eq_ok.mp h
  cases h
  refine (trails_takeLine ?_ htake).2
  rw [hrest, List.takeWhile_cons_of_pos (by decide), ← List.append_nil (List.takeWhile _ _)]
  exact .comment (fun c hc => by simpa using List.all_eq_true.mp List.all_takeWhile c hc) .nil

theorem trails_skipSpace (hc : isSpaceOrBreak (s.rest.headD '\x00') = true)
    (h : skipSpace s = .ok ((), s')) : s.Trails s' :=
  trails_skipN (u := [s.rest.headD '\x00'])
    (rest_eq_of_peek (ne_end_of_isSpaceOrBreak hc) rfl) (.blank hc .nil) h

/-- A line break is stepped over: one character, or two. -/
theorem trails_skipBreak (h : skipBreak s = .ok ((), s')) : s.Trails s' := by
  have hend : ∀ {s s' : Scanner}, (do if isBreak (← peek) then skipLineEnd : Scan Unit) s =
      .ok ((), s') → s.Trails s' := by
    intro s s' h
    obtain ⟨_, _, hpeek, h⟩ := stateful_bind_eq_ok.mp h
    cases hpeek
    split at h
    · next hbreak =>
        have hblank := isSpaceOrBreak_of_isBreak hbreak
        have hrest := rest_eq_of_peek (ne_end_of_isSpaceOrBreak hblank) rfl
        refine (PassesOver.passes (x := skipLineEnd) h).trails_of (u := [s.rest.headD '\x00']) ?_
          ?_ (.blank hblank .nil)
        · cases h
          exact hrest
        · cases h
          rfl
    · cases h
      exact Scanner.IsCourse.refl s
  unfold skipBreak at h
  obtain ⟨_, _, hpeek, h⟩ := stateful_bind_eq_ok.mp h
  cases hpeek
  obtain ⟨_, _, hpeek, h⟩ := stateful_bind_eq_ok.mp h
  cases hpeek
  split at h
  · next hreturn =>
      obtain ⟨_, s₁, hskip, h⟩ := stateful_bind_eq_ok.mp h
      refine Scanner.IsCourse.trans (trails_skipSpace ?_ hskip) (hend h)
      rw [hreturn.1]
      rfl
  · exact hend h

instance : Trails skipBreak := ⟨trails_skipBreak⟩

instance (tabs : Bool) : Trails (skipToLineEnd tabs) where
  course {s a s'} h := by
    unfold skipToLineEnd at h
    obtain ⟨blanks, s₁, htake, h⟩ := stateful_bind_eq_ok.mp h
    have hblanks : Filler (s.rest.takeWhile fun c => c == ' ' || (tabs && c == '\t')) := by
      refine filler_of_blank fun c hc => ?_
      have := List.all_eq_true.mp List.all_takeWhile c hc
      cases tabs <;> simp_all [isSpaceOrBreak, isSpace]
    have hfirst := (trails_takeLine hblanks htake).2
    obtain ⟨_, _, hpeek, h⟩ := stateful_bind_eq_ok.mp h
    cases hpeek
    refine Scanner.IsCourse.trans hfirst ?_
    split at h
    · next hcomment =>
        dsimp only at h
        split at h
        · cases h
        · obtain ⟨⟨⟩, s₂, hskip, h⟩ := stateful_bind_eq_ok.mp h
          cases h
          exact trails_skipComment hcomment hskip
    · cases h
      exact Scanner.IsCourse.refl _

instance (fuel : Nat) : Trails (skipToToken fuel) := by
  induction fuel with
  | zero => unfold skipToToken; infer_instance
  | succ fuel ih =>
      constructor
      intro s a s' h
      unfold skipToToken at h
      obtain ⟨_, _, hget, h⟩ := stateful_bind_eq_ok.mp h
      cases hget
      obtain ⟨_, _, hpeek, h⟩ := stateful_bind_eq_ok.mp h
      cases hpeek
      split at h
      · have hline : Trails (do
            let _ ← skipToLineEnd true
            if !isBreakOrEnd (← peek) then fail .tabInBlockIndentation
            skipToToken fuel) := inferInstance
        exact hline.course h
      · split at h
        · next hspace =>
            obtain ⟨_, s₁, hskip, h⟩ := stateful_bind_eq_ok.mp h
            exact Scanner.IsCourse.trans (trails_skipSpace (isSpaceOrBreak_of_isSpace hspace) hskip)
              (ih.course h)
        · split at h
          · have hbreak : Trails (do
                skipBreak
                if s.flowLevel = 0 then allowKey
                skipToToken fuel) := inferInstance
            exact hbreak.course h
          · split at h
            · next hcomment =>
                obtain ⟨_, s₁, hskip, h⟩ := stateful_bind_eq_ok.mp h
                exact Scanner.IsCourse.trans (trails_skipComment hcomment hskip) (ih.course h)
            · cases h
              exact Scanner.IsCourse.refl s

theorem ne_end_of_ne {c : Char} (hc : c ≠ '\x00') (h : s.rest.headD '\x00' = c) : s.rest ≠ [] := by
  intro hnil
  rw [hnil] at h
  exact hc h.symm

theorem length_drop_lt {t : Text} {n : Nat} (ht : t ≠ []) (hn : 0 < n) :
    (t.drop n).length < t.length := by
  have := List.length_pos_iff.mpr ht
  rw [List.length_drop]
  omega

/-- Characters are taken if there are some. -/
theorem length_lt_of_takeLine {p : Char → Bool} {taken : Text} (hne : s.rest ≠ [])
    (hp : p (s.rest.headD '\x00') = true) (h : takeLine p s = .ok (taken, s')) :
    s'.rest.length < s.rest.length := by
  unfold takeLine at h
  obtain ⟨_, _, hget, h⟩ := stateful_bind_eq_ok.mp h
  cases hget
  obtain ⟨_, s₁, hskip, h⟩ := stateful_bind_eq_ok.mp h
  cases h
  cases hskip
  refine length_drop_lt hne (List.length_pos_iff.mpr ?_)
  obtain ⟨c, rest, hrest⟩ := List.exists_cons_of_ne_nil hne
  rw [hrest] at hp ⊢
  rw [List.takeWhile_cons_of_pos (by exact hp)]
  exact List.cons_ne_nil c _

theorem length_lt_of_skipComment (hc : s.rest.headD '\x00' = '#')
    (h : skipComment s = .ok ((), s')) : s'.rest.length < s.rest.length := by
  change (takeLine (!isBreakOrEnd ·) >>= fun _ => pure ()) s = .ok ((), s') at h
  obtain ⟨taken, s₁, htake, h⟩ := stateful_bind_eq_ok.mp h
  cases h
  exact length_lt_of_takeLine (ne_end_of_ne (by decide) hc) (by rw [hc]; rfl) htake

theorem length_lt_of_skipSpace (hc : isSpaceOrBreak (s.rest.headD '\x00') = true)
    (h : skipSpace s = .ok ((), s')) : s'.rest.length < s.rest.length := by
  cases h
  exact length_drop_lt (ne_end_of_ne (ne_end_of_isSpaceOrBreak hc) rfl) Nat.one_pos

theorem length_lt_of_skipBreak (hc : isBreak (s.rest.headD '\x00') = true)
    (h : skipBreak s = .ok ((), s')) : s'.rest.length < s.rest.length := by
  have hblank := isSpaceOrBreak_of_isBreak hc
  unfold skipBreak at h
  obtain ⟨_, _, hpeek, h⟩ := stateful_bind_eq_ok.mp h
  cases hpeek
  obtain ⟨_, _, hpeek, h⟩ := stateful_bind_eq_ok.mp h
  cases hpeek
  have hend : Forgets (do if isBreak (← peek) then skipLineEnd : Scan Unit) := inferInstance
  split at h
  · obtain ⟨_, s₁, hskip, h⟩ := stateful_bind_eq_ok.mp h
    exact Nat.lt_of_le_of_lt (hend.course h).length_le (length_lt_of_skipSpace hblank hskip)
  · obtain ⟨_, _, hpeek, h⟩ := stateful_bind_eq_ok.mp h
    cases hpeek
    rw [if_pos hc] at h
    cases h
    exact length_drop_lt (ne_end_of_ne (ne_end_of_isSpaceOrBreak hblank) rfl) Nat.one_pos

/-- **What is left behind filler** starts neither with a blank nor with a comment. -/
theorem skipToToken_stops {fuel : Nat} (hfuel : s.rest.length < fuel)
    (h : skipToToken fuel s = .ok ((), s')) :
    isSpaceOrBreak (s'.rest.headD '\x00') = false ∧ s'.rest.headD '\x00' ≠ '#' := by
  induction fuel generalizing s with
  | zero => exact absurd hfuel (Nat.not_lt_zero _)
  | succ fuel ih =>
      unfold skipToToken at h
      obtain ⟨_, _, hget, h⟩ := stateful_bind_eq_ok.mp h
      cases hget
      obtain ⟨_, _, hpeek, h⟩ := stateful_bind_eq_ok.mp h
      cases hpeek
      split at h
      · next htab =>
          obtain ⟨_, s₁, hline, h⟩ := stateful_bind_eq_ok.mp h
          have hlt : s₁.rest.length < s.rest.length := by
            unfold skipToLineEnd at hline
            obtain ⟨blanks, s₂, htake, hline⟩ := stateful_bind_eq_ok.mp hline
            have hlt := length_lt_of_takeLine (ne_end_of_ne (by decide) htab.1)
              (by rw [htab.1]; rfl) htake
            have hrest : Forgets (do
                if (← peek) = '#' then
                  if blanks.isEmpty then fail .commentWithoutSpace
                  skipComment
                return ⟨blanks.contains '\t', blanks.contains ' '⟩ : Scan Skipped) := inferInstance
            exact Nat.lt_of_le_of_lt (hrest.course hline).length_le hlt
          obtain ⟨_, _, hpeek, h⟩ := stateful_bind_eq_ok.mp h
          cases hpeek
          split at h
          · cases h
          · exact ih (by omega) h
      · split at h
        · next hspace =>
            obtain ⟨_, s₁, hskip, h⟩ := stateful_bind_eq_ok.mp h
            have := length_lt_of_skipSpace (isSpaceOrBreak_of_isSpace hspace) hskip
            exact ih (by omega) h
        · next hspace =>
            split at h
            · next hbreak =>
                obtain ⟨_, s₁, hskip, h⟩ := stateful_bind_eq_ok.mp h
                have := length_lt_of_skipBreak hbreak hskip
                split at h
                · obtain ⟨_, s₂, hallow, h⟩ := stateful_bind_eq_ok.mp h
                  cases hallow
                  exact ih (by simpa using by omega) h
                · exact ih (by omega) h
            · next hbreak =>
                split at h
                · next hcomment =>
                    obtain ⟨_, s₁, hskip, h⟩ := stateful_bind_eq_ok.mp h
                    have := length_lt_of_skipComment hcomment hskip
                    exact ih (by omega) h
                · next hcomment =>
                    cases h
                    refine ⟨?_, hcomment⟩
                    rw [isSpaceOrBreak, Bool.or_eq_false_iff]
                    exact ⟨by simpa using hspace, by simpa using hbreak⟩

instance (fuel : Nat) (found : Bool) : Trails (skipAfterKeyIndicator fuel found) := by
  induction fuel generalizing found with
  | zero => unfold skipAfterKeyIndicator; infer_instance
  | succ fuel ih =>
      constructor
      intro s a s' h
      unfold skipAfterKeyIndicator at h
      obtain ⟨_, _, hpeek, h⟩ := stateful_bind_eq_ok.mp h
      cases hpeek
      split at h
      · next hspace =>
          obtain ⟨_, s₁, hskip, h⟩ := stateful_bind_eq_ok.mp h
          refine Scanner.IsCourse.trans (trails_skipSpace ?_ hskip) ((ih true).course h)
          rw [hspace]
          rfl
      · split at h
        · have hbreak : Trails (do
              skipBreak
              if (← get).flowLevel = 0 then allowKey
              skipAfterKeyIndicator fuel true) := inferInstance
          exact hbreak.course h
        · split at h
          · next hcomment =>
              obtain ⟨_, s₁, hskip, h⟩ := stateful_bind_eq_ok.mp h
              exact Scanner.IsCourse.trans (trails_skipComment hcomment hskip)
                ((ih found).course h)
          · split at h
            · cases h
            · cases h
              exact Scanner.IsCourse.refl s

end Parts

end Scan

end YamlEdit
