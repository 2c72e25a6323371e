import YamlEdit.Proofs.EventMarks

/-!
# How missing values are marked

A value that is not written is noticed when the token that should start it belongs to something
else. Its event is marked where the token of its own indicator is marked, the `-`, `?` or `:` in
front of it, or where the next token is (`EventReader.Marks`). Which token is its indicator is told
by the step that yields the event (`EventReader.nothingBehind?`).

Main statement: `Event.marks_of_ofDocument`, for all events of a text.
-/

namespace YamlEdit

/-- Whether a token is an indicator that a value may follow. -/
def Token.indicates : Token → Bool
  | .blockEntry | .key | .value => true
  | _ => false

/-- Whether a token writes a scalar. -/
def Token.isScalar : Token → Bool
  | .scalar _ _ => true
  | _ => false

/-- Whether a token is an anchor or a tag. -/
def Token.isProperty : Token → Bool
  | .anchor _ | .tag _ _ => true
  | _ => false

/-- Whether a token that is met in place of a value may say that there is none. -/
def Token.tellsNothing : Token → Bool
  | .blockEntry | .scalar _ _ => false
  | _ => true

namespace EventReader

/-- How a missing value behind an indicator is marked: like its indicator, unless that is the mark
of a key, or like the next token, unless that is an item. -/
def Marks (t : Located Token) (span : Span) (next : Option (Located Token)) : Prop :=
  span = t.span ∧ t.item ≠ .key ∨ ∃ x, next = some x ∧ span = x.span ∧ x.item.tellsNothing = true

/-- The number of the token behind which a step finds nothing, if that is what it yields: the last
token that it has taken. The key of a pair in brackets is looked for when its mark has been taken
already, and a scalar `~` is no missing value. -/
def nothingBehind? (total : Nat) (task : Task) (s s' : EventReader) (e : Event) : Option Nat :=
  match (s.tokens.take (s.tokens.length - s'.tokens.length)).getLast? with
  | none => none
  | some t =>
    if e = .missing ∧ !t.item.isScalar then
      some (total - (if task = .pairKey then s else s').tokens.length - 1)
    else none

/-- For each event the number of the token that it is missing behind. -/
def nothingsBehind (total : Nat) : (fuel : Nat) → EventReader → List (Option Nat)
  | 0, _ => []
  | fuel + 1, s =>
    match s.tasks with
    | [] => []
    | task :: _ =>
      match (step task).run s with
      | .error _ => []
      | .ok ((e, _), s') => nothingBehind? total task s s' e :: nothingsBehind total fuel s'

theorem nothingsBehind_of_tasks {s : EventReader} (htasks : s.tasks = []) (total fuel : Nat) :
    nothingsBehind total (fuel + 1) s = [] := by
  rw [nothingsBehind, htasks]

theorem nothingsBehind_of_step {s s' : EventReader} {task : Task} {rest : List Task} {y : Yield}
    (htasks : s.tasks = task :: rest) (h : step task s = .ok (y, s')) (total fuel : Nat) :
    nothingsBehind total (fuel + 1) s =
      nothingBehind? total task s s' y.1 :: nothingsBehind total fuel s' := by
  rw [nothingsBehind, htasks]
  dsimp only
  rw [show (step task).run s = _ from h]

/-! ## What a step finds -/

/-- What has been taken when a step yields the event of a missing value. -/
inductive Finds (task : Task) (s s' : EventReader) (span : Span) : Prop where
  /-- The value is a `~`. -/
  | written {taken : List (Located Token)} {t : Located Token}
      (htokens : s.tokens = taken ++ t :: s'.tokens) (ht : t.item.isScalar = true)
  /-- There is nothing behind the last token, which may be an indicator. -/
  | nothing {taken : List (Located Token)} (htask : task ≠ .pairKey)
      (htokens : s.tokens = taken ++ s'.tokens)
      (ht : ∀ t ∈ taken.getLast?, t.item.indicates = true → Marks t span s'.tokens.head?)
  /-- There is nothing in front of the token, which says so. -/
  | inFront {t : Located Token} (htask : task = .pairKey) (htokens : s.tokens = t :: s'.tokens)
      (ht : t.item.tellsNothing = true) (hkey : t.item ≠ .key) (hspan : span = t.span)

/-- How a value is marked that is missing when `t` is the last token taken and `u` is next: like
`t`, unless that is the mark of a key, or like `u`, which says that there is none. -/
def MarksAt (t u : Located Token) (span : Span) : Prop :=
  span = t.span ∧ t.item ≠ .key ∨
    u.item ≠ .streamEnd ∧ span = u.span ∧ u.item.tellsNothing = true

section Finds

variable {s s' : EventReader} {task next : Task} {taken : List (Located Token)} {act : Act}
  {t u : Located Token} {y : Yield} {tops : List Task}

/-- A missing value is marked at the indicator that is taken last, or at the next token. -/
def Act.Marks (taken : List (Located Token)) (u : Located Token) : Act → Prop
  | .yield y _ => y.1 = .missing → ∀ t ∈ taken.getLast?, t.item.indicates = true →
      MarksAt t u y.2
  | .node .. => True

/-- A token in front of those that are taken, if it is no indicator. -/
theorem Act.Marks.cons {x : Located Token} (h : act.Marks taken u)
    (hx : x.item.indicates = false) : act.Marks (x :: taken) u := by
  cases act with
  | node => trivial
  | yield y tops =>
      intro hmissing t ht hindicates
      cases taken with
      | nil =>
          obtain rfl : x = t := Option.some.inj ht
          rw [hx] at hindicates
          cases hindicates
      | cons z taken => exact h hmissing t (by rwa [List.getLast?_cons_cons] at ht) hindicates

theorem Indicates.marks {indicator : Token} {block indentless atStop : Bool} {stops : List Token}
    (h : Indicates task indicator block indentless stops atStop next) (ht : t.item = indicator)
    (hu : u.item ∈ stops) : MarksAt t u (if atStop then u.span else t.span) := by
  cases h with
  | item | indentlessItem | value | flowValue => exact .inl ⟨rfl, by rw [ht]; nofun⟩
  | key | pairValue =>
      refine .inr ⟨?_, rfl, ?_⟩ <;>
        (simp only [List.mem_cons, List.not_mem_nil, or_false] at hu; grind [Token.tellsNothing])

theorem FlowItem.marks (h : FlowItem taken u act) : act.Marks taken u := by
  cases h with
  | close | pair => exact nofun
  | node => trivial

theorem FlowPair.marks (h : FlowPair taken u act) : act.Marks taken u := by
  cases h with
  | key | node => trivial
  | noKey => exact fun _ => nofun
  | nothing ht hu =>
      refine fun _ t _ _ => .inr ⟨?_, rfl, ?_⟩ <;>
        (simp only [List.mem_cons, List.not_mem_nil, or_false] at hu; grind [Token.tellsNothing])

/-- **Where a step marks what it finds missing.** -/
theorem Rule.marks (h : Rule task taken u act) (htask : task ≠ .pairKey)
    (hfirst : task.isFree = false → task ≠ .stream →
      ∀ t ∈ taken.head?, t.item.indicates = false) : act.Marks taken u := by
  induction h with
  | content | blockNode | pairKey | behind => trivial
  | noContent | noKey | noValue | emptyValue => exact fun _ => nofun
  | nothing h ht hu =>
      rintro - t ⟨⟩ -
      exact h.marks ht hu
  | noPairKey => exact absurd rfl htask
  | close h => cases h <;> exact nofun
  | firstItem _ ih | firstKey _ ih => exact (ih nofun nofun).cons (hfirst rfl nofun _ rfl)
  | firstFlowItem h => exact h.marks.cons (hfirst rfl nofun _ rfl)
  | firstFlowPair h => exact h.marks.cons (hfirst rfl nofun _ rfl)
  | flowItem ht h => exact h.marks.cons (by rw [ht]; rfl)
  | flowPair ht h => exact h.marks.cons (by rw [ht]; rfl)
  | _ => exact nofun

/-- The key of a pair is missing where the token behind its mark says so. -/
theorem Rule.marks_pairKey {span : Span}
    (h : Rule .pairKey taken u (.yield (.missing, span) tops)) :
    ∃ t, taken = [t] ∧ t.item.tellsNothing = true ∧ t.item ≠ .key ∧ span = t.span := by
  cases h with
  | noPairKey ht =>
      refine ⟨_, rfl, ?_, ?_, rfl⟩ <;>
        (simp only [List.mem_cons, List.not_mem_nil, or_false] at ht; grind [Token.tellsNothing])
  | nothing h | noValue h | close h => cases h

theorem head?_eq_ahead {tokens : List (Located Token)} (h : (ahead tokens).item ≠ .streamEnd) :
    tokens.head? = some (ahead tokens) := by
  rw [eq_ahead_cons h]
  rfl

/-- A node with the event of a missing value is a `~`. -/
theorem Opens.exists_scalar {anchors : List (Text × Nat)} {count : Nat} {block indentless : Bool}
    {anchor : Option Text} (h : Opens anchors count block indentless taken anchor u y tops)
    (hy : y.1 = .missing) : ∃ props t, taken = props ++ [t] ∧ t.item.isScalar = true := by
  cases h with
  | reference => cases hy
  | scalar _ ht => exact ⟨_, _, rfl, by rw [ht]; rfl⟩
  | collection _ _ hopening => cases hopening <;> cases hy
  | bare => exact absurd hy (by simp [Event.missing])

/-- **What has been taken when a step finds nothing.** -/
theorem step_finds {rest : List Task} {span : Span} (hready : Ready s.tasks s.tokens)
    (htasks : s.tasks = task :: rest) (h : step task s = .ok ((.missing, span), s')) :
    Finds task s s' span := by
  cases step_does h with
  | @opens front _ _ _ _ _ _ _ _ _ node takes =>
      obtain ⟨props, t, rfl, ht⟩ := node.exists_scalar rfl
      have htokens : s.tokens = (front ++ props) ++ t :: s'.tokens := by
        rw [takes.tokens]
        simp
      exact .written htokens ht
  | @yields taken _ _ _ rule takes =>
      by_cases htask : task = .pairKey
      · subst htask
        obtain ⟨t, rfl, ht, hkey, hspan⟩ := rule.marks_pairKey
        exact .inFront rfl takes.tokens ht hkey hspan
      · -- the token that starts a collection is no indicator
        have hfirst : task.isFree = false → task ≠ .stream →
            ∀ t ∈ taken.head?, t.item.indicates = false := by
          intro hfree hstream t ht
          have htop := hready.top task (by rw [htasks]; rfl) t (by
            rw [takes.tokens, List.head?_append, ht]
            rfl)
          cases task with
          | stream => exact absurd rfl hstream
          | blockSequenceFirst | blockMappingFirst | flowSequenceFirst | flowMappingFirst =>
              rw [show t.item = _ from htop]
              rfl
          | _ => cases hfree
        refine .nothing htask takes.tokens fun t ht hindicates => ?_
        rcases rule.marks htask hfirst rfl t ht hindicates with h | ⟨hend, hspan, hnothing⟩
        · exact .inl h
        · exact .inr ⟨_, head?_eq_ahead hend, hspan, hnothing⟩

end Finds

/-! ## Runs -/

/-- What is known of an event that is missing behind a token, by the number of that. -/
def MarksBehind (all : List (Located Token)) (y : Yield) (number : Option Nat) : Prop :=
  ∀ k, number = some k → y.1 = .missing ∧
    ∀ t, all[k]? = some t → t.item.indicates = true → Marks t y.2 all[k + 1]?

section Runs

variable {all : List (Located Token)} {s s' : EventReader} {task : Task}

theorem take_taken {α : Type} (u v : List α) : (u ++ v).take ((u ++ v).length - v.length) = u := by
  rw [List.length_append, Nat.add_sub_cancel, List.take_left]

/-- The number of the last token that is taken, where others are left. -/
theorem number_of_last {front before left : List (Located Token)} {t : Located Token}
    (hall : all = front ++ (before ++ [t] ++ left)) :
    all.length - left.length - 1 = (front ++ before).length ∧
      all[(front ++ before).length]? = some t ∧
      all[(front ++ before).length + 1]? = left.head? := by
  have hsplit : all = (front ++ before) ++ t :: left := by
    rw [hall]
    simp
  refine ⟨?_, ?_, ?_⟩
  · rw [hsplit, List.length_append, List.length_cons]
    omega
  · rw [hsplit, List.getElem?_append_right (Nat.le_refl _), Nat.sub_self]
    rfl
  · rw [hsplit, List.getElem?_append_right (Nat.le_succ _), Nat.succ_sub (Nat.le_refl _),
      Nat.sub_self, List.getElem?_cons_succ, ← List.head?_eq_getElem?]

/-- The number that a step gives is that of the last token it has taken. -/
theorem marksBehind_of_finds {front : List (Located Token)} {span : Span}
    (hall : all = front ++ s.tokens) (hfinds : Finds task s s' span) :
    MarksBehind all (.missing, span) (nothingBehind? all.length task s s' .missing) := by
  intro k hk
  refine ⟨rfl, fun x hx hindicates => ?_⟩
  unfold nothingBehind? at hk
  cases hfinds with
  | @written taken t htokens ht =>
      have htake : s.tokens.take (s.tokens.length - s'.tokens.length) = taken ++ [t] := by
        rw [htokens, ← List.singleton_append, ← List.append_assoc, take_taken]
      rw [htake, List.getLast?_concat] at hk
      simp [ht] at hk
  | @nothing taken htask htokens hmarks =>
      have htake : s.tokens.take (s.tokens.length - s'.tokens.length) = taken := by
        rw [htokens, take_taken]
      rw [htake] at hk
      cases hlast : taken.getLast? with
      | none =>
          rw [hlast] at hk
          cases hk
      | some t =>
          rw [hlast] at hk
          dsimp only at hk
          split at hk
          · obtain ⟨before, rfl⟩ := List.getLast?_eq_some_iff.mp hlast
            obtain ⟨hnumber, hthere, hnext⟩ := number_of_last (htokens ▸ hall)
            obtain rfl : (front ++ before).length = k := by
              rw [← hnumber]
              simpa [htask] using hk
            obtain rfl : t = x := Option.some.inj (hthere.symm.trans hx)
            rw [hnext]
            exact hmarks t hlast hindicates
          · cases hk
  | @inFront t htask htokens ht hkey hspan =>
      have htake : s.tokens.take (s.tokens.length - s'.tokens.length) = [t] := by
        rw [htokens, ← List.singleton_append, take_taken]
      rw [htake] at hk
      dsimp only [List.getLast?_singleton] at hk
      split at hk
      · cases hk
        rw [hall, List.length_append, Nat.add_sub_cancel] at hx ⊢
        rw [htokens] at hx ⊢
        rcases List.eq_nil_or_concat front with rfl | ⟨before, last, rfl⟩
        · -- there is no token in front of it
          cases hx
          exact .inl ⟨hspan, hkey⟩
        · refine .inr ⟨t, ?_, hspan, ht⟩
          simp
      · cases hk

/-- **What a run yields** is marked behind the tokens with the numbers that it gives. -/
theorem Runs.marks {fuel : Nat} {yields : List Yield} (h : Runs fuel s yields)
    (hnumbered : s.Numbered all) (hready : Ready s.tasks s.tokens) :
    List.Forall₂ (MarksBehind all) yields (nothingsBehind all.length fuel s) := by
  induction h with
  | outOfFuel => exact .nil
  | done htasks =>
      rw [nothingsBehind_of_tasks htasks]
      exact .nil
  | @step fuel s s' task rest y yields htasks hstep _ ih =>
      obtain ⟨e, span⟩ := y
      have hreads := step_reads hnumbered hready htasks hstep
      rw [nothingsBehind_of_step htasks hstep]
      refine .cons ?_ (ih hreads.numbered (hreads.leaves_all hready).ready)
      by_cases hmissing : e = .missing
      · subst hmissing
        obtain ⟨⟨front, hall, -⟩, -⟩ := hnumbered
        exact marksBehind_of_finds hall (step_finds hready htasks hstep)
      · -- a step that yields something else has no such number
        intro k hk
        unfold nothingBehind? at hk
        split at hk
        · cases hk
        · rw [if_neg (fun h => hmissing h.1)] at hk
          cases hk

end Runs

end EventReader

/-- For each event of a text the number of the token that it is missing behind, if it is. -/
def Event.nothingsBehind (stream : TokenStream) : List (Option Nat) :=
  EventReader.nothingsBehind stream.tokens.length (4 * stream.tokens.length + 8)
    { tokens := stream.tokens
      fault := stream.fault
      tasks := [.stream]
      anchors := []
      anchorCount := 0
      handles := [] }

/-- **How the missing values of a text are marked**: those behind an indicator at that or at the
next token. -/
theorem Event.marks_of_ofDocument {doc : Text} {events : List (Event × Span)}
    (h : Event.ofDocument doc = .ok events) :
    List.Forall₂ (EventReader.MarksBehind (Token.scan doc).tokens) events
      (Event.nothingsBehind (Token.scan doc)) := by
  obtain ⟨hnumbered, hready⟩ := EventReader.start_ready doc
  exact (EventReader.runs_of_ofTokens h).marks hnumbered hready

end YamlEdit
