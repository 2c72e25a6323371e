import YamlEdit.Proofs.Inversion
import YamlEdit.Token.Stream

/-!
# The scanner only moves on

What lies between two tokens, and inside of one, is scanned by functions that move on in the text
and leave the queue and the pending keys alone. They are put together from a few that step over
characters, so that this is inferred of a function from the functions that it calls
(`Scan.PassesOver`). What deals with the keys still moves on and leaves the queue alone
(`Scan.MovesOn`).

The parts of the scanner that put tokens into the queue are followed with what holds between them
(`Scan.Keeps`), and the ones that read a token with what they give (`Scan.Gives`). What a part that
only moves on needs for this is that the condition holds along its course (`Scan.Stable`).
-/

namespace YamlEdit

/-- The scanner has moved on in the text, and the tokens that wait are the same. -/
structure Scanner.Advances (s s' : Scanner) : Prop where
  place : ∃ n, s'.rest = s.rest.drop n ∧ s'.mark.index = s.mark.index + n
  queue : s'.queue = s.queue
  taken : s'.taken = s.taken

/-- The pending keys are the same, too. -/
structure Scanner.Passes (s s' : Scanner) : Prop extends s.Advances s' where
  keys : s'.keys = s.keys
  bound : s'.bound = s.bound

/-- What holds between the states of the scanner before and after a function, if it does so for
the functions that this one calls. -/
class Scanner.IsCourse (R : Scanner → Scanner → Prop) : Prop where
  refl : ∀ s, R s s
  trans : ∀ {s s₁ s'}, R s s₁ → R s₁ s' → R s s'

namespace Scanner

instance : IsCourse Advances where
  refl _ := ⟨⟨0, rfl, rfl⟩, rfl, rfl⟩
  trans h h' := by
    obtain ⟨⟨n, hrest, hindex⟩, hqueue, htaken⟩ := h
    obtain ⟨⟨n', hrest', hindex'⟩, hqueue', htaken'⟩ := h'
    refine ⟨⟨n + n', ?_, ?_⟩, hqueue'.trans hqueue, htaken'.trans htaken⟩
    · rw [hrest', hrest, List.drop_drop]
    · rw [hindex', hindex, Nat.add_assoc]

instance : IsCourse Passes where
  refl s := ⟨IsCourse.refl s, rfl, rfl⟩
  trans h h' := ⟨IsCourse.trans h.toAdvances h'.toAdvances, h'.keys.trans h.keys,
    h'.bound.trans h.bound⟩

theorem Advances.refl (s : Scanner) : s.Advances s := IsCourse.refl s

theorem Passes.refl (s : Scanner) : s.Passes s := IsCourse.refl s

theorem Passes.trans {s s₁ s' : Scanner} (h : s.Passes s₁) (h' : s₁.Passes s') : s.Passes s' :=
  IsCourse.trans h h'

/-- The scanner with a token behind those that wait. -/
def pushed (s : Scanner) (t : Located Token) : Scanner := { s with queue := s.queue ++ [t] }

/-- The scanner with a token in front of token number `n`. -/
def inserted (s : Scanner) (n : Nat) (t : Located Token) : Scanner :=
  { s with queue := s.queue.take (n - s.taken) ++ t :: s.queue.drop (n - s.taken) }

end Scanner

namespace Scan

open Token

-- an instance is as large as the function that it is about
set_option synthInstance.maxSize 4000

/-- A part of the scanner that takes a course. -/
class Takes {α : Type} (R : Scanner → Scanner → Prop) (x : Scan α) : Prop where
  course : ∀ {s a s'}, x s = .ok (a, s') → R s s'

/-- A part of the scanner that moves on. -/
abbrev MovesOn {α : Type} (x : Scan α) : Prop := Takes Scanner.Advances x

/-- A part of the scanner that moves on and leaves the pending keys alone. -/
abbrev PassesOver {α : Type} (x : Scan α) : Prop := Takes Scanner.Passes x

section Parts

variable {α β : Type} {R : Scanner → Scanner → Prop} [hR : Scanner.IsCourse R] {x y : Scan α}

theorem MovesOn.advances [hx : MovesOn x] {s s' : Scanner} {a : α} (h : x s = .ok (a, s')) :
    s.Advances s' :=
  hx.course h

theorem PassesOver.passes [hx : PassesOver x] {s s' : Scanner} {a : α} (h : x s = .ok (a, s')) :
    s.Passes s' :=
  hx.course h

instance (priority := low) [hx : PassesOver x] : MovesOn x where
  course h := (hx.course h).toAdvances

instance (a : α) : Takes R (pure a : Scan α) where
  course h := by
    cases h
    exact hR.refl _

theorem Takes.bind {f : α → Scan β} (hx : Takes R x) (hf : ∀ a, Takes R (f a)) :
    Takes R (x >>= f) where
  course h := by
    obtain ⟨a, s₁, ha, h⟩ := stateful_bind_eq_ok.mp h
    exact hR.trans (hx.course ha) ((hf a).course h)

instance {f : α → Scan β} [hx : Takes R x] [hf : ∀ a, Takes R (f a)] : Takes R (x >>= f) :=
  hx.bind hf

instance {f : α → β} [hx : Takes R x] : Takes R (f <$> x) where
  course h := by
    obtain ⟨p, hp, h⟩ := map_eq_ok.mp h
    cases h
    exact hx.course hp

instance {c : Prop} [Decidable c] [hx : Takes R x] [hy : Takes R y] :
    Takes R (if c then x else y) := by
  split
  · exact hx
  · exact hy

/-- A check in front of the rest of a function. -/
theorem Takes.check {c : Prop} [Decidable c] {f : Unit → Scan β} {x : Scan Unit}
    (hx : Takes R x) (hf : ∀ u, Takes R (f u)) : Takes R (if c then x >>= f else f ()) := by
  split
  · exact hx.bind hf
  · exact hf ()

-- so that the rest is looked at once and not for both outcomes
instance (priority := 2000) {c : Prop} [Decidable c] {f : Unit → Scan β} {x : Scan Unit}
    [hx : Takes R x] [hf : ∀ u, Takes R (f u)] : Takes R (if c then x >>= f else f ()) :=
  hx.check hf

instance (fault : SyntaxFault) : Takes R (fail fault : Scan α) := ⟨nofun⟩

instance (mark : Mark) (fault : SyntaxFault) : Takes R (failAt mark fault : Scan α) := ⟨nofun⟩

instance : Takes R (get : Scan Scanner) where
  course h := by
    cases h
    exact hR.refl _

omit hR in
/-- A change that takes a course. -/
theorem takes_modify {f : Scanner → Scanner} (hf : ∀ s : Scanner, R s (f s)) :
    Takes R (modify f : Scan Unit) where
  course h := by
    cases h
    exact hf _

end Parts

/-! ## What holds before and after -/

/-- What holds after a part of the scanner, if something holds before it. -/
def Keeps {α : Type} (I J : Scanner → Prop) (x : Scan α) : Prop :=
  ∀ ⦃s a s'⦄, I s → x s = .ok (a, s') → J s'

section Keeps

variable {α β : Type} {R : Scanner → Scanner → Prop} {I J K : Scanner → Prop} {x y : Scan α}

theorem Keeps.bind {f : α → Scan β} (hx : Keeps I J x) (hf : ∀ a, Keeps J K (f a)) :
    Keeps I K (x >>= f) := by
  intro s b s' hs h
  obtain ⟨a, s₁, ha, h⟩ := stateful_bind_eq_ok.mp h
  exact hf a (hx hs ha) h

theorem Keeps.weaken (h : Keeps J K x) (hI : ∀ {s}, I s → J s) : Keeps I K x :=
  fun _ _ _ hs hx => h (hI hs) hx

theorem keeps_pure {a : α} : Keeps I I (pure a) := by
  intro s b s' hs h
  cases h
  exact hs

theorem keeps_ite {c : Prop} [Decidable c] (hx : c → Keeps I J x) (hy : ¬ c → Keeps I J y) :
    Keeps I J (if c then x else y) := by
  split
  · next h => exact hx h
  · next h => exact hy h

theorem keeps_fail {fault : SyntaxFault} : Keeps I J (fail fault : Scan α) := nofun

theorem keeps_failAt {mark : Mark} {fault : SyntaxFault} : Keeps I J (failAt mark fault : Scan α) :=
  nofun

/-- What stays as it is while the scanner takes a course. -/
class Stable (R : outParam (Scanner → Scanner → Prop)) (I : Scanner → Prop) : Prop where
  along : ∀ {s s' : Scanner}, I s → R s s' → I s'

theorem keeps_of_takes [hI : Stable R I] (hx : Takes R x) : Keeps I I x :=
  fun _ _ _ hs h => hI.along hs (hx.course h)

/-- The scanner takes its course in front of the rest of a function. -/
theorem keeps_then [Stable R I] [hx : Takes R x] {f : α → Scan β} (hf : ∀ a, Keeps I J (f a)) :
    Keeps I J (x >>= f) :=
  .bind (keeps_of_takes hx) hf

/-- A check in front of the rest of a function. -/
theorem keeps_check {c : Prop} [Decidable c] {f : Unit → Scan β} {z : Scan Unit}
    (hz : Keeps I I z) (hf : ∀ u, Keeps I J (f u)) : Keeps I J (if c then z >>= f else f ()) :=
  keeps_ite (fun _ => hz.bind hf) fun _ => hf ()

end Keeps

/-- A part of the scanner that gives something that is `P`. -/
class Gives {α : Type} (P : α → Prop) (x : Scan α) : Prop where
  gives : ∀ {s a s'}, x s = .ok (a, s') → P a

section Gives

variable {β γ : Type} {P : β → Prop} {Q : γ → Prop}

/-- What is given in a run. -/
theorem Gives.of_run {x : Scan β} {s s' : Scanner} {b : β} (hx : Gives P x)
    (h : x s = .ok (b, s')) : P b :=
  hx.gives h

theorem Gives.bind {x : Scan β} {f : β → Scan γ} (hx : Gives P x) (hf : ∀ a, P a → Gives Q (f a)) :
    Gives Q (x >>= f) where
  gives h := by
    obtain ⟨a, s₁, ha, h⟩ := stateful_bind_eq_ok.mp h
    exact (hf a (hx.gives ha)).gives h

/-- What a function gives is what its last part does. -/
theorem Gives.last {x : Scan β} {f : β → Scan γ} (hf : ∀ a, Gives Q (f a)) : Gives Q (x >>= f) where
  gives h := by
    obtain ⟨a, s₁, -, h⟩ := stateful_bind_eq_ok.mp h
    exact (hf a).gives h

instance {x : Scan β} {f : β → Scan γ} [hf : ∀ a, Gives Q (f a)] : Gives Q (x >>= f) := .last hf

instance {c : Prop} [Decidable c] {x y : Scan β} [hx : Gives P x] [hy : Gives P y] :
    Gives P (if c then x else y) := by
  split
  · exact hx
  · exact hy

theorem Gives.check {c : Prop} [Decidable c] {x : Scan Unit} {f : Unit → Scan β}
    (hf : ∀ u, Gives P (f u)) : Gives P (if c then x >>= f else f ()) := by
  split
  · exact .last hf
  · exact hf ()

-- so that the rest behind a check is looked at once and not for both outcomes
instance (priority := 2000) {c : Prop} [Decidable c] {x : Scan Unit} {f : Unit → Scan β}
    [hf : ∀ u, Gives P (f u)] : Gives P (if c then x >>= f else f ()) :=
  .check hf

theorem gives_pure {a : β} (h : P a) : Gives P (pure a) where
  gives hx := by
    cases hx
    exact h

instance (mark : Mark) (fault : SyntaxFault) : Gives P (failAt mark fault) := ⟨nofun⟩

instance (fault : SyntaxFault) : Gives P (fail fault) := ⟨nofun⟩

/-- What a part of the scanner gives is known to the rest of a function. -/
theorem keeps_given {R : Scanner → Scanner → Prop} {I J : Scanner → Prop} [hI : Stable R I]
    {x : Scan β} [hx : Takes R x] [hgives : Gives P x] {f : β → Scan γ}
    (hf : ∀ a, P a → Keeps I J (f a)) : Keeps I J (x >>= f) := by
  intro s b s' hs h
  obtain ⟨a, s₁, ha, h⟩ := stateful_bind_eq_ok.mp h
  exact hf a (hgives.gives ha) (hI.along hs (hx.course ha)) h

end Gives

/-! ## Looking and moving -/

/-- A change of what the scanner keeps beside the text and the queue. -/
theorem movesOn_note {f : Scanner → Scanner} (hrest : ∀ s : Scanner, (f s).rest = s.rest)
    (hindex : ∀ s : Scanner, (f s).mark.index = s.mark.index)
    (hqueue : ∀ s : Scanner, (f s).queue = s.queue)
    (htaken : ∀ s : Scanner, (f s).taken = s.taken) : MovesOn (modify f : Scan Unit) :=
  takes_modify fun s => ⟨⟨0, hrest s, hindex s⟩, hqueue s, htaken s⟩

/-- The same for a change that leaves the pending keys alone, too. -/
theorem passesOver_note {f : Scanner → Scanner} (hrest : ∀ s : Scanner, (f s).rest = s.rest)
    (hindex : ∀ s : Scanner, (f s).mark.index = s.mark.index)
    (hqueue : ∀ s : Scanner, (f s).queue = s.queue) (htaken : ∀ s : Scanner, (f s).taken = s.taken)
    (hkeys : ∀ s : Scanner, (f s).keys = s.keys) (hbound : ∀ s : Scanner, (f s).bound = s.bound) :
    PassesOver (modify f : Scan Unit) :=
  takes_modify fun s => ⟨⟨⟨0, hrest s, hindex s⟩, hqueue s, htaken s⟩, hkeys s, hbound s⟩

instance : PassesOver mark := by unfold mark; infer_instance

instance (n : Nat) : PassesOver (peekAt n) := by unfold peekAt; infer_instance

instance : PassesOver peek := by unfold peek; infer_instance

instance : PassesOver fuel := by unfold fuel; infer_instance

instance (n : Nat) : PassesOver (skipN n) :=
  takes_modify fun _ => ⟨⟨⟨n, rfl, rfl⟩, rfl, rfl⟩, rfl, rfl⟩

instance : PassesOver skipSpace := by unfold skipSpace; infer_instance

instance (n : Nat) : PassesOver (skipContent n) := by
  have : PassesOver (modify fun s => { s with leading := false } : Scan Unit) :=
    passesOver_note (fun _ => rfl) (fun _ => rfl) (fun _ => rfl) (fun _ => rfl) (fun _ => rfl)
      fun _ => rfl
  unfold skipContent
  infer_instance

instance : PassesOver skipLineEnd :=
  takes_modify fun _ => ⟨⟨⟨1, rfl, rfl⟩, rfl, rfl⟩, rfl, rfl⟩

instance : PassesOver skipBreak := by unfold skipBreak; infer_instance

instance (p : Char → Bool) : PassesOver (takeLine p) := by unfold takeLine; infer_instance

instance : PassesOver skipComment :=
  inferInstanceAs (PassesOver ((fun _ => ()) <$> takeLine (!isBreakOrEnd ·)))

instance (tabs : Bool) : PassesOver (skipToLineEnd tabs) := by unfold skipToLineEnd; infer_instance

/-! ## Keys and indentation -/

instance : PassesOver allowKey :=
  passesOver_note (fun _ => rfl) (fun _ => rfl) (fun _ => rfl) (fun _ => rfl) (fun _ => rfl)
    fun _ => rfl

instance : PassesOver forbidKey :=
  passesOver_note (fun _ => rfl) (fun _ => rfl) (fun _ => rfl) (fun _ => rfl) (fun _ => rfl)
    fun _ => rfl

instance : MovesOn savePendingKey := by
  refine takes_modify fun s => ?_
  cases s.keyAllowed
  · exact .refl s
  · exact ⟨⟨0, rfl, rfl⟩, rfl, rfl⟩

instance : MovesOn dropPendingKey where
  course {s a s'} h := by
    unfold dropPendingKey at h
    obtain ⟨_, _, hget, h⟩ := stateful_bind_eq_ok.mp h
    cases hget
    cases hkeys : s.keys with
    | nil =>
        rw [hkeys] at h
        cases h
        exact .refl s
    | cons pending outer =>
        rw [hkeys] at h
        dsimp only at h
        split at h
        · cases h
        · cases h
          exact ⟨⟨0, rfl, rfl⟩, rfl, rfl⟩

instance : MovesOn dropStaleKeys where
  course {s a s'} h := by
    unfold dropStaleKeys at h
    obtain ⟨_, _, hget, h⟩ := stateful_bind_eq_ok.mp h
    cases hget
    split at h
    · cases h
    · cases h
      exact ⟨⟨0, rfl, rfl⟩, rfl, rfl⟩

instance : PassesOver rollProvisional := by
  refine takes_modify fun s => ?_
  split
  · exact ⟨⟨⟨0, rfl, rfl⟩, rfl, rfl⟩, rfl, rfl⟩
  · exact .refl s

theorem passes_forget (outer : List OuterIndent) (s : Scanner) :
    s.Passes (unrollProvisional.forget outer s) := by
  induction outer generalizing s with
  | nil => exact .refl s
  | cons o rest ih =>
      rw [unrollProvisional.forget]
      split
      · exact .refl s
      · have hclosed : s.Passes { s with indent := o.column, outer := rest } :=
          ⟨⟨⟨0, rfl, rfl⟩, rfl, rfl⟩, rfl, rfl⟩
        exact hclosed.trans (ih _)

instance : PassesOver unrollProvisional := takes_modify fun s => passes_forget s.outer s

instance : MovesOn enterFlow where
  course {s a s'} h := by
    unfold enterFlow at h
    obtain ⟨_, _, hget, h⟩ := stateful_bind_eq_ok.mp h
    cases hget
    split at h
    · cases h
    · cases h
      exact ⟨⟨0, rfl, rfl⟩, rfl, rfl⟩

instance : MovesOn leaveFlow := by
  refine takes_modify fun s => ?_
  split
  · exact ⟨⟨0, rfl, rfl⟩, rfl, rfl⟩
  · exact .refl s

instance : MovesOn startsKey := by unfold startsKey; infer_instance

instance : PassesOver atDocumentStart := by unfold atDocumentStart; infer_instance

instance : PassesOver atDocumentEnd := by unfold atDocumentEnd; infer_instance

instance : PassesOver atDocumentMarker := by unfold atDocumentMarker; infer_instance

/-- A part of the scanner that changes nothing. -/
class Looks {α : Type} (x : Scan α) : Prop where
  same : ∀ {s a s'}, x s = .ok (a, s') → s' = s

section Looks

variable {β γ : Type} {I J : Scanner → Prop}

instance : Looks (get : Scan Scanner) where
  same h := by
    cases h
    rfl

instance {x : Scan β} [hx : Looks x] {f : β → γ} : Looks (x >>= fun a => pure (f a)) where
  same h := by
    obtain ⟨a, s₁, ha, h⟩ := stateful_bind_eq_ok.mp h
    cases h
    exact hx.same ha

instance : Looks mark := by unfold mark; infer_instance

instance : Looks peek := by unfold peek; infer_instance

instance (n : Nat) : Looks (peekAt n) := by unfold peekAt; infer_instance

instance : Looks atDocumentStart := by unfold atDocumentStart; infer_instance

instance : Looks atDocumentEnd := by unfold atDocumentEnd; infer_instance

theorem keeps_get {f : Scanner → Scan γ} (hf : ∀ s, I s → Keeps I J (f s)) :
    Keeps I J (get >>= f) := by
  intro s b s' hs h
  obtain ⟨_, _, hget, h⟩ := stateful_bind_eq_ok.mp h
  cases hget
  exact hf s hs hs h

theorem keeps_mark {f : Mark → Scan γ} (hf : ∀ s : Scanner, I s → Keeps I J (f s.mark)) :
    Keeps I J (mark >>= f) := by
  intro s b s' hs h
  obtain ⟨_, _, hmark, h⟩ := stateful_bind_eq_ok.mp h
  cases hmark
  exact hf s hs hs h

theorem keeps_look {x : Scan β} [hx : Looks x] {f : β → Scan γ} (hf : ∀ a, Keeps I J (f a)) :
    Keeps I J (x >>= f) := by
  intro s b s' hs h
  obtain ⟨a, s₁, ha, hrest⟩ := stateful_bind_eq_ok.mp h
  obtain rfl := hx.same ha
  exact hf a hs hrest

end Looks

/-! ## Tokens that say how deep the text is -/

section Depth

variable {I : Scanner → Prop}

/-- The ends of blocks are put behind the other tokens, at the place of the scanner. -/
theorem unrollIndent_keeps_of
    (hnote : ∀ {s : Scanner} (indent : Int) (outer : List OuterIndent), I s →
      I { s with indent, outer })
    (hend : ∀ {s : Scanner}, I s → I (s.pushed ⟨Span.empty s.mark, .blockEnd⟩)) (column : Int) :
    Keeps I I (unrollIndent column) := by
  have hclose : ∀ (outer : List OuterIndent) {s : Scanner}, I s →
      I (unrollIndent.closeBeyond column outer s) := by
    intro outer
    induction outer with
    | nil => exact id
    | cons o rest ih =>
        intro s hs
        rw [unrollIndent.closeBeyond]
        split
        · refine ih ?_
          cases o.isOpen
          · exact hnote o.column rest hs
          · exact hnote o.column rest (hend hs)
        · exact hs
  intro s a s' hs h
  cases h
  show I (if s.flowLevel > 0 then s else _)
  split
  · exact hs
  · exact hclose s.outer hs

/-- A block is announced where its token is put, if it is. -/
theorem rollIndent_keeps_of {column : Nat} {number : Option Nat} {token : Token} {mark : Mark}
    (hnote : ∀ {s : Scanner} (indent : Int) (outer : List OuterIndent), I s →
      I { s with indent, outer })
    (hinsert : ∀ n, number = some n → Keeps I I (insertAt n mark token))
    (hpush : number = none → Keeps I I (push (Span.empty mark) token)) :
    Keeps I I (rollIndent column number token mark) := by
  refine keeps_look fun _ => keeps_ite (fun _ => .bind (J := I) ?_ fun _ => keeps_look fun s =>
    keeps_ite (fun _ => .bind (J := I) ?_ fun _ => ?_) fun _ => keeps_pure) fun _ => keeps_pure
  · intro s a s' hs h
    cases h
    dsimp only
    split
    · next o rest _ =>
        split
        · exact hnote o.column rest hs
        · exact hs
    · exact hs
  · intro s a s' hs h
    cases h
    exact hnote column (⟨s.indent, true⟩ :: s.outer) hs
  · cases number with
    | some n => exact hinsert n rfl
    | none => exact hpush rfl

/-- The end of a mapping without braces is put behind the other tokens, at the place of the
scanner. -/
theorem endPair_keeps_of
    (hnote : ∀ {s : Scanner} (flowMappingStarted : Bool) (pairs : List Bool), I s →
      I { s with flowMappingStarted, pairs })
    (hend : ∀ {s : Scanner}, I s → I (s.pushed ⟨Span.empty s.mark, .flowMappingEnd⟩)) :
    Keeps I I endPair := by
  intro s a s' hs h
  unfold endPair at h
  obtain ⟨_, _, hget, h⟩ := stateful_bind_eq_ok.mp h
  cases hget
  rcases hpairs : s.pairs with _ | ⟨_ | _, pairs⟩ <;> rw [hpairs] at h <;> cases h
  · exact hs
  · exact hs
  · exact hnote false (false :: pairs) (hend hs)

end Depth

/-! ## Between tokens -/

instance (fuel : Nat) : PassesOver (skipToToken fuel) := by
  induction fuel with
  | zero => unfold skipToToken; infer_instance
  | succ fuel ih => unfold skipToToken; infer_instance

instance (fuel : Nat) (found : Bool) : PassesOver (skipAfterKeyIndicator fuel found) := by
  induction fuel generalizing found with
  | zero => unfold skipAfterKeyIndicator; infer_instance
  | succ fuel ih => unfold skipAfterKeyIndicator; infer_instance

/-! ## Parts of the functions for indicators

What is read behind the checks of an indicator has a name here, since more than one property of it
is followed. -/

/-- The dash of an item, where `start` is its mark. -/
def dash (start : Mark) : Scan Unit := do
  skipContent 1
  rollIndent start.column none .blockSequenceStart start
  let skipped ← skipToLineEnd true
  if skipped.tab ∧ (← peek) = '-' ∧ isSpaceOrEnd (← peekAt 1) then fail .tabAfterBlockEntry
  let _ ← skipToLineEnd false
  if isBreak (← peek) ∨ isFlow (← peek) then rollProvisional
  dropPendingKey
  allowKey
  push (Span.empty (← mark)) .blockEntry

/-- The mark of a key, which is written at `start`. -/
def keyMark (start : Mark) : Scan Unit := do
  skipContent 1
  skipAfterKeyIndicator (← fuel) false
  if (← peek) = '\t' then fail .tabAfterKeyIndicator
  push ⟨start, ← mark⟩ .key

/-- The tokens that announce a pending key, the mark of the key first, and the `:` behind it. -/
def valueOfPending (isPair : Bool) (pending : PendingKey) (start : Mark) : Scan Unit := do
  insertAt pending.token pending.mark .key
  if isPair then
    if pending.mark.line < start.line then failAt start .misplacedColon
    insertAt pending.token pending.mark .flowMappingStart
  rollIndent pending.mark.column (some pending.token) .blockMappingStart pending.mark
  rollProvisional
  modify fun s => { s with keys := { pending with possible := false } :: s.keys.drop 1 }
  forbidKey
  push (Span.empty start) .value

/-- The `:` in front of which there is no key, met in the state `s`. -/
def valueOfNone (isPair : Bool) (s : Scanner) : Scan Unit := do
  if isPair then push (Span.empty s.mark) .flowMappingStart
  if s.flowLevel = 0 then
    if !s.keyAllowed then failAt s.mark .valueNotAllowed
    rollIndent s.mark.column none .blockMappingStart s.mark
  rollProvisional
  if s.flowLevel = 0 then allowKey else forbidKey
  push (Span.empty s.mark) .value

/-- A `:` that is met in the state `s`, behind its key or without one. -/
def value (isPair : Bool) (s : Scanner) : Scan Unit :=
  if (s.keys.headD PendingKey.none).possible then
    valueOfPending isPair (s.keys.headD PendingKey.none) s.mark
  else valueOfNone isPair s

/-! ## Anchors, tags and directives -/

instance (isAlias : Bool) : PassesOver (scanAnchor isAlias) := by unfold scanAnchor; infer_instance

instance (start : Mark) : PassesOver (escapedByte start) := by
  refine .bind inferInstance fun _ => .bind inferInstance fun _ => .bind inferInstance fun _ => ?_
  split <;> infer_instance

instance (start : Mark) (count code : Nat) : PassesOver (escapedRest start count code) := by
  induction count generalizing code with
  | zero => unfold escapedRest; infer_instance
  | succ count ih => unfold escapedRest; infer_instance

instance (start : Mark) : PassesOver (escapedChar start) := by
  refine .bind inferInstance fun byte => ?_
  split
  · infer_instance
  · refine .bind inferInstance fun code => ?_
    split <;> infer_instance

instance (start : Mark) : PassesOver (tagChar start) := by unfold tagChar; infer_instance

instance (start : Mark) (p : Char → Bool) (fuel : Nat) : PassesOver (tagChars start p fuel) := by
  induction fuel with
  | zero => unfold tagChars; infer_instance
  | succ fuel ih => unfold tagChars; infer_instance

instance (directive : Bool) (start : Mark) : PassesOver (tagHandle directive start) := by
  unfold tagHandle; infer_instance

instance : PassesOver scanTag := by unfold scanTag; infer_instance

instance (start : Mark) : PassesOver (versionNumber start) := by
  unfold versionNumber
  infer_instance

instance (start : Mark) : PassesOver (versionDirective start) := by
  unfold versionDirective; infer_instance

instance (start : Mark) : PassesOver (handleMeaning start) := by
  unfold handleMeaning
  infer_instance

instance (start : Mark) : PassesOver (tagDirective start) := by unfold tagDirective; infer_instance

instance : PassesOver scanDirective := by
  refine .bind inferInstance fun start => .bind inferInstance fun _ => .bind inferInstance fun _ =>
    .bind inferInstance fun name => .check inferInstance fun _ => .bind inferInstance fun _ =>
    .check inferInstance fun _ => ?_
  infer_instance

/-! ## Scalars -/

instance (start : Mark) (column : Int) (fuel : Nat) (gap : Gap) :
    PassesOver (plainGap start column fuel gap) := by
  induction fuel generalizing gap with
  | zero => unfold plainGap; infer_instance
  | succ fuel ih => unfold plainGap; infer_instance

instance (start : Mark) (column : Int) (fuel : Nat) (gap : Gap) (back : Text) (stop : Mark) :
    PassesOver (plainWords start column fuel gap back stop) := by
  induction fuel generalizing gap back stop with
  | zero => unfold plainWords; infer_instance
  | succ fuel ih => unfold plainWords; infer_instance

instance : PassesOver scanPlain := by unfold scanPlain; infer_instance

instance (start : Mark) : PassesOver (quotedEscape start) := by
  refine .bind inferInstance fun letter => ?_
  split
  · infer_instance
  · infer_instance
  · next count _ _ =>
      refine .bind inferInstance fun _ => .bind inferInstance fun s => ?_
      split
      · infer_instance
      · next digits _ =>
          have : PassesOver (match Text.charOfNat? (digits.foldl (fun n d => 16 * n + d) 0) with
              | none => failAt start .quotedCodepoint
              | some c => (do skipContent count; return c : Scan Char)) := by
            split <;> infer_instance
          infer_instance

instance (single : Bool) (start : Mark) (fuel : Nat) (back : Text) :
    PassesOver (quotedWord single start fuel back) := by
  induction fuel generalizing back with
  | zero => unfold quotedWord; infer_instance
  | succ fuel ih => unfold quotedWord; infer_instance

instance (escaped : Bool) (fuel : Nat) (gap : Gap) : PassesOver (quotedGap escaped fuel gap) := by
  induction fuel generalizing gap with
  | zero => unfold quotedGap; infer_instance
  | succ fuel ih => unfold quotedGap; infer_instance

instance (single : Bool) (start : Mark) (fuel : Nat) (back : Text) :
    PassesOver (quotedText single start fuel back) := by
  induction fuel generalizing back with
  | zero => unfold quotedText; infer_instance
  | succ fuel ih => unfold quotedText; infer_instance

instance (single : Bool) : PassesOver (scanQuoted single) := by unfold scanQuoted; infer_instance

instance : PassesOver chompingIndicator := by unfold chompingIndicator; infer_instance

instance (start : Mark) : PassesOver (indentIndicator start) := by
  unfold indentIndicator; infer_instance

instance (start : Mark) : PassesOver (blockIndicators start) := by
  refine .bind inferInstance fun chomping => ?_
  split <;> infer_instance

instance (indent fuel lines : Nat) : PassesOver (skipBlockIndent indent fuel lines) := by
  induction fuel generalizing lines with
  | zero => unfold skipBlockIndent; infer_instance
  | succ fuel ih => unfold skipBlockIndent; infer_instance

instance (fuel widest lines : Nat) : PassesOver (findBlockIndent fuel widest lines) := by
  induction fuel generalizing widest lines with
  | zero => unfold findBlockIndent; infer_instance
  | succ fuel ih => unfold findBlockIndent; infer_instance

instance (folded : Bool) (indent fuel : Nat) (b : BlockText) :
    PassesOver (blockLines folded indent fuel b) := by
  induction fuel generalizing b with
  | zero => unfold blockLines; infer_instance
  | succ fuel ih => unfold blockLines; infer_instance

instance (folded : Bool) : PassesOver (scanBlock folded) := by
  refine .bind inferInstance fun start => .bind inferInstance fun _ => .bind inferInstance fun _ =>
    .bind inferInstance fun _ => .bind inferInstance fun _ => .bind inferInstance fun _ =>
    .check inferInstance fun _ => .bind inferInstance fun _ => .bind inferInstance fun _ =>
    .bind inferInstance fun _ => .check inferInstance fun _ => .bind inferInstance fun s => ?_
  split
  · infer_instance
  · infer_instance

end Scan

end YamlEdit
