import YamlEdit.Proofs.Brackets
import YamlEdit.Proofs.WrittenScalars

/-!
# Items and their dashes

The items of a sequence without brackets have dashes: the reader takes one in the step that yields
the first event of an item (`EventReader.introducedBy_of_step`). Behind the dash it finds the
properties of the item and the token that marks the event, or nothing that could be an item. In
which collection a step is goes along with what the events have opened (`EventReader.Holding`).

Main statement: `Event.introduced_of_ofDocument`, for all events of a text.
-/

namespace YamlEdit

/-- Whether an event starts a sequence without brackets of its own. -/
def Event.isDashed (doc : Text) (y : Event × Span) : Bool :=
  match y.1 with
  | .sequenceStart _ => !isBracketed doc y
  | _ => false

theorem Event.sequenceStart_of_isDashed {doc : Text} {y : Event × Span}
    (h : isDashed doc y = true) : ∃ n, y.1 = .sequenceStart n := by
  obtain ⟨e, span⟩ := y
  cases e with
  | sequenceStart n => exact ⟨n, rfl⟩
  | _ => cases h

/-- Whether a task goes on with a sequence without brackets. -/
def Task.isDashed : Task → Bool
  | .blockSequenceFirst | .blockSequenceNext | .indentlessNext => true
  | _ => false

theorem Task.isDashed_eq (task : Task) :
    task.isDashed = (task.role == .items && !task.inFlow) := by
  cases task <;> rfl

namespace EventReader

/-- The number of the dash that a step takes in front of the item that it starts. The first task of
a sequence steps over the start of that. -/
def dash? (total : Nat) (task : Task) (s : EventReader) (e : Event) : Option Nat :=
  if task.isDashed && !e.closes then
    some (total - s.tokens.length + if task = .blockSequenceFirst then 1 else 0)
  else none

/-- For each event the number of the dash in front of the item that it starts, if it does. -/
def dashes (total : Nat) : (fuel : Nat) → EventReader → List (Option Nat)
  | 0, _ => []
  | fuel + 1, s =>
    match s.tasks with
    | [] => []
    | task :: _ =>
      match (step task).run s with
      | .error _ => []
      | .ok ((e, _), s') => dash? total task s e :: dashes total fuel s'

theorem dashes_of_tasks {s : EventReader} (htasks : s.tasks = []) (total fuel : Nat) :
    dashes total (fuel + 1) s = [] := by
  rw [dashes, htasks]

theorem dashes_of_step {s s' : EventReader} {task : Task} {rest : List Task} {y : Yield}
    (htasks : s.tasks = task :: rest) (h : step task s = .ok (y, s')) (total fuel : Nat) :
    dashes total (fuel + 1) s = dash? total task s y.1 :: dashes total fuel s' := by
  rw [dashes, htasks]
  dsimp only
  rw [show (step task).run s = _ from h]

/-- Tokens that start with the dash of an item, the first event of which is given: it is marked with
the token behind the properties of the item, or with the dash if nothing is there. -/
structure StartsItem (tokens : List (Located Token)) (y : Yield) (rest : List (Located Token)) :
    Prop where
  dash : ∃ t props next, tokens = t :: (props ++ next) ∧ t.item = .blockEntry ∧
    (∀ x ∈ props, x.item.isProperty = true) ∧
    (y = (.missing, t.span) ∧ props = [] ∨ ∀ x ∈ next.head?, y.2 = x.span) ∧
    rest <:+ props ++ next

/-! ## The dash in front of an item -/

section Items

variable {s s' : EventReader} {y : Yield} {task : Task} {taken tokens : List (Located Token)}
  {act : Act} {u : Located Token} {tops : List Task}

/-- A node is marked with the token behind its properties. -/
theorem Opens.marked {anchors : List (Text × Nat)} {count : Nat} {block indentless : Bool}
    {anchor : Option Text}
    (h : Opens anchors count block indentless taken anchor (ahead tokens) y tops) :
    ∃ props next, taken ++ tokens = props ++ next ∧ (∀ x ∈ props, x.item.isProperty = true) ∧
      ∀ x ∈ next.head?, y.2 = x.span := by
  have hproperties : ∀ {props : List (Located Token)} {anchor : Option Text},
      Properties props anchor → ∀ x ∈ props, x.item.isProperty = true := by
    intro props anchor h
    cases h <;> simp_all [Token.isProperty]
  have hahead : ∀ {t x : Located Token}, ahead tokens = t → x ∈ tokens.head? → t.span = x.span := by
    rintro _ x rfl hx
    rw [ahead, List.headD_eq_head?_getD, hx]
    rfl
  generalize hu : ahead tokens = u at h
  cases h with
  | @reference t => exact ⟨[], t :: tokens, rfl, List.forall_mem_nil _, by rintro _ ⟨⟩; rfl⟩
  | @scalar props _ t _ _ _ hprops =>
      exact ⟨props, t :: tokens, by simp, hproperties hprops, by rintro _ ⟨⟩; rfl⟩
  | collection hprops | bare hprops =>
      exact ⟨taken, tokens, rfl, hproperties hprops, fun x hx => hahead hu hx⟩

/-- What is done for an item starts with its dash, the token that is taken. -/
def Act.Introduces (taken : List (Located Token)) : Act → Prop
  | .yield y _ => y.1.closes = false →
      ∃ t, taken = [t] ∧ t.item = .blockEntry ∧ y = (.missing, t.span)
  | .node .. => ∃ t, taken = [t] ∧ t.item = .blockEntry

theorem Rule.introduces (h : Rule task taken u act) (htask : task.isDashed = true) :
    act.Introduces (taken.drop (if task = .blockSequenceFirst then 1 else 0)) := by
  induction h with
  | firstItem _ ih => exact ih rfl
  | behind h ht =>
      cases h with
      | item | indentlessItem => exact ⟨_, rfl, ht⟩
      | _ => cases htask
  | nothing h ht =>
      cases h with
      | item | indentlessItem => exact fun _ => ⟨_, rfl, ht, rfl⟩
      | _ => cases htask
  | close h => cases h <;> exact nofun
  | indentlessEnd => exact nofun
  | noValue h => cases h <;> cases htask
  | streamEnd h | document h => rcases h with rfl | rfl <;> cases htask
  | _ => cases htask

/-- **A step that goes on with a sequence without brackets** takes the dash of an item, unless it
ends the sequence. -/
theorem startsItem_of_step (h : step task s = .ok (y, s')) (htask : task.isDashed = true)
    (hcloses : y.1.closes = false) :
    StartsItem (s.tokens.drop (if task = .blockSequenceFirst then 1 else 0)) y s'.tokens := by
  have hdrop : ∀ {i : Nat} {t : Located Token} {taken rest : List (Located Token)},
      taken.drop i = [t] → s.tokens = taken ++ rest → s.tokens.drop i = t :: rest := by
    intro i t taken rest htaken htokens
    have hlength := congrArg List.length htaken
    rw [List.length_drop, List.length_singleton] at hlength
    rw [htokens, List.drop_append_of_le_length (by omega), htaken]
    rfl
  cases step_does h with
  | yields rule takes =>
      obtain ⟨t, htaken, ht, rfl⟩ := rule.introduces htask hcloses
      exact ⟨t, [], s'.tokens, hdrop htaken takes.tokens, ht, List.forall_mem_nil _,
        .inl ⟨rfl, rfl⟩, List.suffix_rfl⟩
  | opens rule node takes =>
      obtain ⟨t, htaken, ht⟩ := rule.introduces htask
      obtain ⟨props, next, hsplit, hprops, hmark⟩ := node.marked
      refine ⟨t, props, next, ?_, ht, hprops, .inr hmark, hsplit ▸ List.suffix_append _ _⟩
      rw [← hsplit]
      exact hdrop htaken (takes.tokens.trans (List.append_assoc _ _ _))

end Items

/-! ## What is open and what is left to do -/

/-- The tasks of a reader that has read into collections, for each of which it is known whether it
is a sequence without brackets: the tasks that go on with them are on top of all others. -/
def Holding (tasks : List Task) (around : List Bool) : Prop :=
  ∃ opened others, tasks = opened ++ others ∧ (∀ t ∈ opened, t.isOpen = true) ∧
    (∀ t ∈ others, t.isOpen = false) ∧ around = opened.map Task.isDashed

section Holding

variable {doc : Text} {y : Yield} {task : Task} {tasks rest tops : List Task} {around : List Bool}
  {tokens : List (Located Token)} {p : Event × Span → Bool}

/-- In such a sequence, the next task goes on with it. -/
theorem Holding.isDashed (h : Holding (task :: rest) around) (hdashed : around.head? = some true) :
    task.isDashed = true := by
  obtain ⟨opened, others, htasks, -, -, rfl⟩ := h
  cases opened with
  | nil => cases hdashed
  | cons t opened =>
      obtain ⟨rfl, -⟩ := List.cons.inj htasks
      exact Option.some.inj hdashed

/-- What starts a node may open a collection. -/
theorem Holding.starts {roles : List Role} (h : Holding tasks around)
    (htops : tops.map Task.role = roles) (hstarts : Role.Starts (y.1.sign {}) roles)
    (hpush : y.1.opens = true → ∀ t ∈ tops.head?, t.isDashed = p y) :
    Holding (tops ++ tasks) (Event.push p around y) := by
  rcases push_of_starts p around hstarts with
    ⟨rfl, haround⟩ | ⟨⟨role, rfl, hrole⟩, hopens, haround⟩
  · obtain rfl := List.map_eq_nil_iff.mp htops
    rw [haround]
    exact h
  · obtain ⟨t, rfl, rfl⟩ := List.map_eq_singleton_iff.mp htops
    obtain ⟨opened, others, rfl, hopened, hothers, rfl⟩ := h
    refine ⟨t :: opened, others, rfl, List.forall_mem_cons.mpr ⟨hrole, hopened⟩, hothers, ?_⟩
    rw [haround, List.map_cons, hpush hopens t rfl]

/-- **What is open is known of the tasks that go on**, if it is of those that there were. -/
theorem Holding.goes (h : Holding (task :: rest) around)
    (hgoes : task.role.Goes (y.1.sign {}) (tops.map Task.role)) (hstays : Stays task tops)
    (hpush : y.1.opens = true → ∀ t ∈ tops.head?, t.isDashed = p y) :
    Holding (tops ++ rest) (Event.push p around y) := by
  obtain ⟨opened, others, htasks, hopened, hothers, rfl⟩ := h
  cases opened with
  | nil =>
      obtain rfl : task :: rest = others := htasks
      obtain ⟨hother, hbelow⟩ := List.forall_mem_cons.mp hothers
      have hrest : Holding rest [] := ⟨[], rest, rfl, List.forall_mem_nil _, hbelow, rfl⟩
      rcases push_of_goes_other p [] hgoes hother with hstarts | ⟨hroles, haround⟩
      · exact hrest.starts rfl hstarts hpush
      · rw [List.map_nil, haround]
        refine ⟨[], tops ++ rest, rfl, List.forall_mem_nil _, fun t ht => ?_, rfl⟩
        rcases List.mem_append.mp ht with ht | ht
        · exact hroles t.role (List.mem_map_of_mem ht)
        · exact hbelow t ht
  | cons t opened =>
      obtain ⟨rfl, rfl⟩ := List.cons.inj htasks
      obtain ⟨hopen, hopened⟩ := List.forall_mem_cons.mp hopened
      rcases push_of_goes_open p ((task :: opened).map Task.isDashed) hgoes hopen with
        ⟨htops, haround⟩ | ⟨roles, next, htops, hnext, hitems, hstarts⟩
      · obtain rfl := List.map_eq_nil_iff.mp htops
        rw [haround]
        exact ⟨opened, others, rfl, hopened, hothers, rfl⟩
      · -- the last task goes on with the collection, and what is in front of it with the node
        obtain ⟨front, last, rfl, hfront, hlast⟩ := List.map_eq_append_iff.mp htops
        obtain ⟨t, rfl, rfl⟩ := List.map_eq_singleton_iff.mp hlast
        have hsame : t.isDashed = task.isDashed := by
          rw [Task.isDashed_eq, Task.isDashed_eq, hstays.2 hopen t (by simp)]
          congr 1
          exact Bool.eq_iff_iff.mpr (by simpa using hitems)
        have hsibling : Holding (t :: (opened ++ others)) ((task :: opened).map Task.isDashed) :=
          ⟨t :: opened, others, rfl, List.forall_mem_cons.mpr ⟨hnext, hopened⟩, hothers, by
            rw [List.map_cons, List.map_cons, hsame]⟩
        rw [List.append_assoc]
        refine hsibling.starts hfront hstarts fun hopens x hx => hpush hopens x ?_
        rw [List.head?_append, hx]
        rfl

/-- The first task of a collection tells whether its items have dashes. -/
theorem Leaves.isDashed (h : Leaves y tops tokens)
    (hwritten : ∀ t ∈ tokens.head?, t.Written doc) (hopens : y.1.opens = true) :
    ∀ t ∈ tops.head?, t.isDashed = Event.isDashed doc y := by
  have hbare := h.not_isBracketed hwritten hopens
  cases h with
  | leaf hleaf => cases hopens.symm.trans hleaf
  | blockSequence ht | indentless ht =>
      rintro _ ⟨⟩
      rw [Event.isDashed, hbare (by rintro _ ⟨⟩; rfl)]
      rfl
  | @flowSequence n t tasks tokens ht hfree =>
      rintro _ ⟨⟩
      have hleaves : Leaves (.sequenceStart n, t.span) (.flowSequenceFirst :: tasks)
          (t :: tokens) := .flowSequence ht hfree
      have hbracketed := hleaves.isBracketed_of_sequence hwritten rfl (by rintro _ ⟨⟩; rfl)
      rw [Event.isDashed, hbracketed]
      rfl
  | blockMapping | flowMapping | pair =>
      rintro _ ⟨⟩
      rfl

end Holding

/-! ## Runs -/

/-- An event that starts the item of dash number `k`. -/
def IntroducedBy (all : List (Located Token)) (y : Yield) (k : Nat) : Prop :=
  ∃ rest, StartsItem (all.drop k) y rest

/-- The token with the number of a dash is one. -/
theorem IntroducedBy.exists_dash {all : List (Located Token)} {y : Yield} {k : Nat}
    (h : IntroducedBy all y k) : ∃ t, all[k]? = some t ∧ t.item = .blockEntry := by
  obtain ⟨_, t, props, next, htokens, ht, -⟩ := h
  refine ⟨t, ?_, ht⟩
  rw [← List.head?_drop, htokens]
  rfl

section Runs

variable {doc : Text} {all : List (Located Token)} {s s' : EventReader} {y : Yield} {task : Task}
  {tasks : List Task} {around : List Bool}

/-- A step knows what is open. -/
theorem step_holding (hholds : Holding s.tasks around) (hwritten : ∀ t ∈ all, t.Written doc)
    (hnumbered : s.Numbered all) (hready : Ready s.tasks s.tokens)
    (htasks : s.tasks = task :: tasks) (hstep : step task s = .ok (y, s')) :
    Holding s'.tasks (Event.push (Event.isDashed doc) around y) := by
  have hreads := step_reads hnumbered hready htasks hstep
  obtain ⟨tops, htops, hleaves, hgoes, hstays⟩ := step_turns hreads hstep
  have hnext := hreads.numbered.written hwritten
  rw [htasks] at hholds htops
  rw [htops]
  exact hholds.goes hgoes hstays fun hopens => hleaves.isDashed hnext hopens

/-- The number that a step gives. -/
theorem introducedBy_of_step {front : List (Located Token)} {k : Nat}
    (hall : all = front ++ s.tokens) (hstep : step task s = .ok (y, s'))
    (hk : dash? all.length task s y.1 = some k) :
    IntroducedBy all y k ∧ front.length ≤ k ∧ k < all.length - s'.tokens.length := by
  unfold dash? at hk
  split at hk
  · next h =>
      rw [Bool.and_eq_true, Bool.not_eq_true'] at h
      have hitem := startsItem_of_step hstep h.1 h.2
      cases hk
      generalize (if task = .blockSequenceFirst then 1 else 0) = i at hitem ⊢
      have hlength : all.length - s.tokens.length = front.length := by
        rw [hall, List.length_append, Nat.add_sub_cancel]
      have hdrop : all.drop (front.length + i) = s.tokens.drop i := by
        rw [hall, ← List.drop_drop, List.drop_left]
      rw [hlength]
      rw [← hdrop] at hitem
      refine ⟨⟨_, hitem⟩, Nat.le_add_right _ _, ?_⟩
      obtain ⟨t, props, next, htokens, -, -, -, hrest⟩ := hitem
      have hle := hrest.length_le
      have hdropped := congrArg List.length htokens
      rw [List.length_drop, List.length_cons] at hdropped
      omega
  · cases hk

/-- **What a run yields** in a sequence without brackets: its items have dashes of their own, in
their order. -/
theorem Runs.introduced {fuel : Nat} {yields : List Yield} (h : Runs fuel s yields)
    (front : List (Located Token)) (hall : all = front ++ s.tokens)
    (hholds : Holding s.tasks around) (hwritten : ∀ t ∈ all, t.Written doc)
    (hnumbered : s.Numbered all) (hready : Ready s.tasks s.tokens) :
    Increase front.length (dashes all.length fuel s) ∧
      ∀ {before y behind}, yields = before ++ y :: behind →
        (Event.pushAll (Event.isDashed doc) around before).head? = some true →
        y.1.closes = false →
        ∃ k, (dashes all.length fuel s)[before.length]? = some (some k) ∧ IntroducedBy all y k := by
  induction h generalizing around front with
  | outOfFuel => exact ⟨increase_nil _, fun h => by simp at h⟩
  | done htasks =>
      rw [dashes_of_tasks htasks]
      exact ⟨increase_nil _, fun h => by simp at h⟩
  | @step fuel s s' task rest y yields htasks hstep _ ih =>
      have hreads := step_reads hnumbered hready htasks hstep
      obtain ⟨taken, htaken, -⟩ := step_writes hstep
      have hall' : all = (front ++ taken) ++ s'.tokens := by
        rw [hall, htaken, List.append_assoc]
      obtain ⟨hlater, hrest⟩ := ih (front ++ taken) hall'
        (step_holding hholds hwritten hnumbered hready htasks hstep) hreads.numbered
        (hreads.leaves_all hready).ready
      have hnumber := fun k => introducedBy_of_step (k := k) hall hstep
      have hreached : all.length - s'.tokens.length = (front ++ taken).length := by
        rw [congrArg List.length hall', List.length_append, Nat.add_sub_cancel]
      rw [hreached] at hnumber
      rw [dashes_of_step htasks hstep]
      refine ⟨hlater.cons (by simp) fun k hk => (hnumber k hk).2, ?_⟩
      intro before z behind hsplit hdashed hcloses
      cases before with
      | nil =>
          obtain ⟨rfl, -⟩ := List.cons.inj hsplit
          rw [htasks] at hholds
          have hdash : dash? all.length task s y.1 = some _ :=
            if_pos (by rw [hholds.isDashed hdashed, hcloses]; rfl)
          exact ⟨_, congrArg some hdash, (hnumber _ hdash).1⟩
      | cons x before =>
          obtain ⟨rfl, htail⟩ := List.cons.inj hsplit
          exact hrest htail hdashed hcloses

end Runs

end EventReader

/-- For each event of a text the number of the dash in front of the item that it starts, if it does
start an item of a sequence without brackets. -/
def Event.dashes (stream : TokenStream) : List (Option Nat) :=
  EventReader.dashes stream.tokens.length (4 * stream.tokens.length + 8) (.start stream)

/-- **The items of a text have dashes of their own**, in their order: whatever starts a node in a
sequence without brackets is introduced by one. -/
theorem Event.introduced_of_ofDocument {doc : Text} {events : List (Event × Span)}
    (h : Event.ofDocument doc = .ok events) :
    (Event.dashes (Token.scan doc)).reduceOption.Pairwise (· < ·) ∧
      ∀ {before y behind}, events = before ++ y :: behind →
        (pushAll (isDashed doc) [] before).head? = some true → y.1.closes = false →
        ∃ k, (Event.dashes (Token.scan doc))[before.length]? = some (some k) ∧
          EventReader.IntroducedBy (Token.scan doc).tokens y k := by
  obtain ⟨-, hwritten, -⟩ := Token.scan_ordered doc
  obtain ⟨hnumbered, hready⟩ := EventReader.start_ready doc
  have hholds : EventReader.Holding [.stream] [] :=
    ⟨[], [.stream], rfl, List.forall_mem_nil _, by decide, rfl⟩
  have hall : (Token.scan doc).tokens = [] ++ (EventReader.start (Token.scan doc)).tokens := rfl
  obtain ⟨hincrease, hyields⟩ :=
    (EventReader.runs_of_ofTokens h).introduced [] hall hholds hwritten hnumbered hready
  exact ⟨hincrease.sorted, hyields⟩

end YamlEdit
