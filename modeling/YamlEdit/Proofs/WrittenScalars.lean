import Mathlib.Data.List.ReduceOption
import YamlEdit.Proofs.MissingMarks
import YamlEdit.Proofs.ScalarNodes

/-!
# Scalars that are written

The event of a scalar is made of the token that the reader has taken last, or the scalar is not
written at all (`EventReader.step_writes`). The reader takes tokens from the front, so different
events are made of different tokens.

Main statement: `Event.written_of_ofDocument`, for all events of a text.
-/

namespace YamlEdit

/-- A scalar that is not written: one that is missing, or one that only has properties. -/
def Event.IsUnwritten (e : Event) : Prop := e = .missing ∨ ∃ anchor, e = .scalar [] .plain anchor

/-- The token that a scalar is made of if it is written. -/
def Event.token? : Event × Span → Option (Located Token)
  | (.scalar text style _, span) => some ⟨span, .scalar style text⟩
  | _ => none

namespace EventReader

/-- The number of the token that a step has made a scalar of: the last one that it has taken, if
that writes the scalar. -/
def writer? (total : Nat) (s s' : EventReader) (y : Yield) : Option Nat :=
  match (s.tokens.take (s.tokens.length - s'.tokens.length)).getLast? with
  | none => none
  | some t => if Event.token? y = some t then some (total - s'.tokens.length - 1) else none

/-- For each event the number of the token that writes it. -/
def writers (total : Nat) : (fuel : Nat) → EventReader → List (Option Nat)
  | 0, _ => []
  | fuel + 1, s =>
    match s.tasks with
    | [] => []
    | task :: _ =>
      match (step task).run s with
      | .error _ => []
      | .ok (y, s') => writer? total s s' y :: writers total fuel s'

theorem writers_of_tasks {s : EventReader} (htasks : s.tasks = []) (total fuel : Nat) :
    writers total (fuel + 1) s = [] := by
  rw [writers, htasks]

theorem writers_of_step {s s' : EventReader} {task : Task} {rest : List Task} {y : Yield}
    (htasks : s.tasks = task :: rest) (h : step task s = .ok (y, s')) (total fuel : Nat) :
    writers total (fuel + 1) s = writer? total s s' y :: writers total fuel s' := by
  rw [writers, htasks]
  dsimp only
  rw [show (step task).run s = _ from h]

section Writes

variable {s s' : EventReader} {y : Yield} {task : Task} {taken : List (Located Token)}
  {u : Located Token} {tops : List Task}

/-- A scalar without a node is missing. -/
theorem Rule.isUnwritten (h : Rule task taken u (.yield y tops)) (hscalar : y.1.isScalar = true) :
    y.1.IsUnwritten := by
  generalize hact : Act.yield y tops = act at h
  induction h with
  | content | blockNode | pairKey | behind => cases hact
  | close h => cases hact; cases h <;> cases hscalar
  | firstItem _ ih | firstKey _ ih => exact ih hact
  | firstFlowItem h | flowItem _ h => cases h <;> cases hact <;> cases hscalar
  | firstFlowPair h | flowPair _ h => cases h <;> cases hact <;> exact .inl rfl
  | noContent | nothing | noKey | noValue | emptyValue | noPairKey => cases hact; exact .inl rfl
  | _ => cases hact; cases hscalar

/-- The token of a scalar is the last one of its node. -/
theorem Opens.token? {anchors : List (Text × Nat)} {count : Nat} {block indentless : Bool}
    {anchor : Option Text} (h : Opens anchors count block indentless taken anchor u y tops)
    (hscalar : y.1.isScalar = true) :
    y.1.IsUnwritten ∨ ∃ t ∈ taken.getLast?, Event.token? y = some t := by
  cases h with
  | reference => cases hscalar
  | @scalar props _ t _ style text _ ht =>
      exact .inr ⟨t, List.getLast?_concat, by rw [Event.token?, ← ht]⟩
  | collection _ _ hopening => cases hopening <;> cases hscalar
  | bare => exact .inl (.inr ⟨_, rfl⟩)

/-- **Every step yields what it has taken the token of**, if that is a scalar that is written. -/
theorem step_writes (h : step task s = .ok (y, s')) : ∃ taken, s.tokens = taken ++ s'.tokens ∧
    (y.1.isScalar = true → y.1.IsUnwritten ∨ ∃ t ∈ taken.getLast?, Event.token? y = some t) := by
  cases step_does h with
  | yields rule takes => exact ⟨_, takes.tokens, fun hscalar => .inl (rule.isUnwritten hscalar)⟩
  | opens _ node takes =>
      exact ⟨_, takes.tokens, fun hscalar => (node.token? hscalar).imp_right fun ⟨t, ht, htoken⟩ =>
        ⟨t, List.mem_getLast?_append_of_mem_getLast? ht, htoken⟩⟩

/-- What is known of an event and of the number of the token that writes it. -/
structure WrittenBy (all : List (Located Token)) (y : Yield) (number : Option Nat) : Prop where
  writes : ∀ k, number = some k → ∃ t, all[k]? = some t ∧ Event.token? y = some t
  unwritten : number = none → y.1.isScalar = true → y.1.IsUnwritten

/-- The number that a step gives. -/
theorem writtenBy_of_step {all : List (Located Token)} {y : Yield}
    {front taken : List (Located Token)} (hall : all = front ++ s.tokens)
    (htokens : s.tokens = taken ++ s'.tokens)
    (hwrites : y.1.isScalar = true →
      y.1.IsUnwritten ∨ ∃ t ∈ taken.getLast?, Event.token? y = some t) :
    WrittenBy all y (writer? all.length s s' y) ∧
      ∀ k, writer? all.length s s' y = some k → front.length ≤ k ∧ k < (front ++ taken).length := by
  have htake : s.tokens.take (s.tokens.length - s'.tokens.length) = taken := by
    rw [htokens, take_taken]
  unfold writer?
  rw [htake]
  cases hlast : taken.getLast? with
  | none =>
      refine ⟨⟨nofun, fun _ hscalar => (hwrites hscalar).resolve_right ?_⟩, nofun⟩
      rintro ⟨t, ht, -⟩
      cases hlast.symm.trans ht
  | some t =>
      obtain ⟨before, rfl⟩ := List.getLast?_eq_some_iff.mp hlast
      obtain ⟨hnumber, hthere, -⟩ := number_of_last (htokens ▸ hall)
      dsimp only
      rw [hnumber]
      split
      · next htoken =>
          refine ⟨⟨fun k hk => ⟨t, ?_, htoken⟩, nofun⟩, fun k hk => ?_⟩
          · cases hk
            exact hthere
          · cases hk
            simp
      · next htoken =>
          refine ⟨⟨nofun, fun _ hscalar => (hwrites hscalar).resolve_right ?_⟩, nofun⟩
          rintro ⟨x, hx, hxtoken⟩
          cases hlast.symm.trans hx
          exact htoken hxtoken

/-- Numbers of different tokens, in their order, from `n` on. -/
structure Increase (n : Nat) (numbers : List (Option Nat)) : Prop where
  sorted : numbers.reduceOption.Pairwise (· < ·)
  later : ∀ k, some k ∈ numbers → n ≤ k

theorem increase_nil (n : Nat) : Increase n [] := ⟨.nil, nofun⟩

theorem Increase.cons {n m : Nat} {number : Option Nat} {numbers : List (Option Nat)}
    (h : Increase m numbers) (hnm : n ≤ m) (hnumber : ∀ k, number = some k → n ≤ k ∧ k < m) :
    Increase n (number :: numbers) := by
  constructor
  · cases number with
    | none => exact h.sorted
    | some k =>
        exact List.pairwise_cons.mpr ⟨fun j hj => (hnumber k rfl).2.trans_le
          (h.later j (List.reduceOption_mem_iff.mp hj)), h.sorted⟩
  · intro k hk
    rcases List.mem_cons.mp hk with hk | hk
    · exact (hnumber k hk.symm).1
    · exact hnm.trans (h.later k hk)

/-- **What a run yields**: its scalars that are written are made of different tokens, in their
order. -/
theorem Runs.writes {fuel : Nat} {yields : List Yield} {all : List (Located Token)}
    (h : Runs fuel s yields) (front : List (Located Token)) (hall : all = front ++ s.tokens) :
    List.Forall₂ (WrittenBy all) yields (writers all.length fuel s) ∧
      Increase front.length (writers all.length fuel s) := by
  induction h generalizing front with
  | outOfFuel => exact ⟨.nil, increase_nil _⟩
  | done htasks =>
      rw [writers_of_tasks htasks]
      exact ⟨.nil, increase_nil _⟩
  | step htasks hstep _ ih =>
      obtain ⟨taken, htokens, hwrites⟩ := step_writes hstep
      obtain ⟨hwritten, hnumber⟩ := writtenBy_of_step hall htokens hwrites
      obtain ⟨hall', hlater⟩ := ih (front ++ taken) (by rw [hall, htokens, List.append_assoc])
      rw [writers_of_step htasks hstep]
      exact ⟨.cons hwritten hall', hlater.cons (by simp) hnumber⟩

end Writes

end EventReader

/-- For each event of a text the number of the token that writes it, if it is a scalar and
written. -/
def Event.writers (stream : TokenStream) : List (Option Nat) :=
  EventReader.writers stream.tokens.length (4 * stream.tokens.length + 8)
    { tokens := stream.tokens
      fault := stream.fault
      tasks := [.stream]
      anchors := []
      anchorCount := 0
      handles := [] }

/-- **The scalars of a text that are written** are made of different tokens, in their order. -/
theorem Event.written_of_ofDocument {doc : Text} {events : List (Event × Span)}
    (h : Event.ofDocument doc = .ok events) :
    List.Forall₂ (EventReader.WrittenBy (Token.scan doc).tokens) events
        (Event.writers (Token.scan doc)) ∧
      (Event.writers (Token.scan doc)).reduceOption.Pairwise (· < ·) := by
  obtain ⟨hwritten, hincrease⟩ := (EventReader.runs_of_ofTokens h).writes [] rfl
  exact ⟨hwritten, hincrease.sorted⟩

end YamlEdit
