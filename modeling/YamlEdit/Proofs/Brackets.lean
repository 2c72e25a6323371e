import YamlEdit.Proofs.InternalErrors

/-!
# Collections in brackets

A collection is written in flow style if a bracket stands behind the properties at its mark. Inside
brackets, a sequence is always marked with a bracket of its own (`Event.isBracketed_of_sequence`):
what the event parser has left to do inside brackets lies on top of all else (`EventReader.Nested`),
and stays there with every step (`EventReader.step_stays`). A mapping is marked with a brace,
unless it is a pair without braces, which is marked where its key starts. So only a pair can be
taken for a block there, and is (`Snapshot.style_inside_brackets`) unless its key starts with a
brace. Main statement: `Snapshot.flow_inside_brackets_iff`.
-/

namespace YamlEdit

namespace Event

/-- Whether a collection has brackets of its own: the event that starts it is marked with one. An
event that is marked with a place, and not with a token of the text, is marked with where the first
entry starts. -/
def isBracketed (doc : Text) (y : Event × Span) : Bool :=
  y.2.start.index < y.2.stop.index &&
    match y.1 with
    | .sequenceStart _ => (doc.drop y.2.start.index).head? == some '['
    | .mappingStart _ => (doc.drop y.2.start.index).head? == some '\x7b'
    | _ => false

/-- For each collection that is open, innermost first, whether the event that starts it has some
property: what an event makes of that. -/
def push (p : Event × Span → Bool) (around : List Bool) (y : Event × Span) : List Bool :=
  if y.1.opens then p y :: around
  else if y.1.closes then around.drop 1
  else around

/-- The same for events one after the other. -/
def pushAll (p : Event × Span → Bool) (around : List Bool) (events : List (Event × Span)) :
    List Bool :=
  events.foldl (push p) around

/-- For each collection that is open, innermost first, whether it has brackets of its own: what an
event makes of that. -/
def nest (doc : Text) (nest : List Bool) (y : Event × Span) : List Bool :=
  if y.1.opens then isBracketed doc y :: nest
  else if y.1.closes then nest.drop 1
  else nest

/-- The same for events one after the other. -/
def nestAfter (doc : Text) (nest : List Bool) (events : List (Event × Span)) : List Bool :=
  events.foldl (Event.nest doc) nest

end Event

/-- Whether a role is that of the rest of a collection. -/
def Role.isOpen : Role → Bool
  | .items | .keys | .values => true
  | _ => false

namespace Task

/-- Whether a task goes on with a collection inside brackets. -/
def inFlow : Task → Bool
  | .flowSequenceFirst | .flowSequenceNext => true
  | .pairKey | .pairValue | .pairEnd => true
  | .flowMappingFirst | .flowMappingKey | .flowMappingValue | .flowMappingEmptyValue => true
  | _ => false

/-- Whether a task goes on with a collection. -/
def isOpen (task : Task) : Bool := task.role.isOpen

theorem not_inFlow_of_not_isOpen {task : Task} (h : task.isOpen = false) :
    task.inFlow = false := by
  cases task <;> first | rfl | cases h

end Task

namespace EventReader

/-! ## What is open and what is left to do -/

/-- The tasks of a reader that has read into collections, for each of which it is known whether it
has brackets of its own. What is in brackets is not in a block, so the tasks inside brackets are on
top, and those below them are for collections without brackets. -/
inductive Nested : List Task → List Bool → Prop where
  | nil : Nested [] []
  | other {task : Task} {rest : List Task} {nest : List Bool} (hopen : task.isOpen = false)
      (hbelow : ∀ t ∈ rest, t.inFlow = false) (h : Nested rest nest) : Nested (task :: rest) nest
  | block {task : Task} {rest : List Task} {nest : List Bool} (hopen : task.isOpen = true)
      (hflow : task.inFlow = false) (hbelow : ∀ t ∈ rest, t.inFlow = false) (h : Nested rest nest) :
      Nested (task :: rest) (false :: nest)
  | flow {task : Task} {rest : List Task} {nest : List Bool} (hflow : task.inFlow = true)
      (bracketed : Bool) (h : Nested rest nest) : Nested (task :: rest) (bracketed :: nest)

namespace Nested

variable {task t : Task} {tasks rest tops : List Task} {nest : List Bool}

/-- Where no task is inside brackets, no open collection has any. -/
theorem not_mem (h : Nested tasks nest) (hflow : ∀ t ∈ tasks, t.inFlow = false) : true ∉ nest := by
  induction h with
  | nil => nofun
  | other _ hbelow _ ih => exact ih hbelow
  | block _ _ hbelow _ ih =>
      intro hmem
      rcases List.mem_cons.mp hmem with hmem | hmem
      · cases hmem
      · exact ih hbelow hmem
  | flow htask => cases htask.symm.trans (hflow _ List.mem_cons_self)

/-- **Inside brackets the next task is one of a collection in brackets.** -/
theorem inFlow_of_mem (h : Nested (task :: rest) nest) (hmem : true ∈ nest) :
    task.inFlow = true := by
  cases h with
  | other _ hbelow h => exact absurd hmem (h.not_mem hbelow)
  | block _ _ hbelow h =>
      rcases List.mem_cons.mp hmem with hmem | hmem
      · cases hmem
      · exact absurd hmem (h.not_mem hbelow)
  | flow hflow => exact hflow

/-- Below a task outside brackets are tasks outside brackets. -/
theorem outside (h : Nested (task :: rest) nest) (hflow : task.inFlow = false) :
    ∀ t ∈ rest, t.inFlow = false := by
  cases h with
  | other _ hbelow | block _ _ hbelow => exact hbelow
  | flow htask => cases htask.symm.trans hflow

/-- Tasks that go on with no collection leave open what is open. -/
theorem others (h : Nested rest nest) (hbelow : ∀ t ∈ rest, t.inFlow = false)
    (htops : ∀ t ∈ tops, t.isOpen = false) : Nested (tops ++ rest) nest := by
  induction tops with
  | nil => exact h
  | cons t tops ih =>
      have htops' : ∀ t ∈ tops, t.isOpen = false := fun t ht => htops t (List.mem_cons_of_mem _ ht)
      refine .other (htops t List.mem_cons_self) (fun t ht => ?_) (ih htops')
      rcases List.mem_append.mp ht with ht | ht
      · exact Task.not_inFlow_of_not_isOpen (htops' t ht)
      · exact hbelow t ht

/-- Another task of the same collection. -/
theorem sibling (h : Nested (task :: rest) nest) (hopen : task.isOpen = true)
    (ht : t.isOpen = true) (hflow : t.inFlow = task.inFlow) : Nested (t :: rest) nest := by
  cases h with
  | other hnot => cases hnot.symm.trans hopen
  | block _ hblock hbelow h => exact .block ht (hflow.trans hblock) hbelow h
  | flow htask bracketed h => exact .flow (hflow.trans htask) bracketed h

/-- A collection is closed. -/
theorem close (h : Nested (task :: rest) nest) (hopen : task.isOpen = true) :
    Nested rest (nest.drop 1) := by
  cases h with
  | other hnot => cases hnot.symm.trans hopen
  | block _ _ _ h => exact h
  | flow _ _ h => exact h

/-- A collection is opened. One without brackets is in no brackets. -/
theorem opened (h : Nested tasks nest) (ht : t.isOpen = true) {bracketed : Bool}
    (hblock : t.inFlow = false → bracketed = false ∧ ∀ t ∈ tasks, t.inFlow = false) :
    Nested (t :: tasks) (bracketed :: nest) := by
  cases hflow : t.inFlow with
  | true => exact .flow hflow bracketed h
  | false =>
      obtain ⟨rfl, hbelow⟩ := hblock hflow
      exact .block ht hflow hbelow h

end Nested

/-! ## Tasks inside brackets -/

/-- What a step leaves on top of the tasks: inside brackets only tasks that are so too, and in a
collection without brackets another task of it at the bottom. -/
def Stays (task : Task) (tops : List Task) : Prop :=
  (task.inFlow = true → ∀ t ∈ tops, t.inFlow = true) ∧
    (task.isOpen = true → ∀ t ∈ tops.getLast?, t.inFlow = task.inFlow)

/-- Events that start nodes, and what completes these. -/
theorem push_of_starts (p : Event × Span → Bool) (around : List Bool) {y : Yield}
    {roles : List Role} (h : Role.Starts (y.1.sign {}) roles) :
    (roles = [] ∧ Event.push p around y = around) ∨
      (∃ role : Role, roles = [role] ∧ role.isOpen = true) ∧ y.1.opens = true ∧
        Event.push p around y = p y :: around := by
  obtain ⟨e, span⟩ := y
  cases e with
  | scalar text style anchor | aliasTo anchor =>
      cases h
      exact .inl ⟨rfl, rfl⟩
  | sequenceStart anchor | mappingStart anchor =>
      cases h
      exact .inr ⟨⟨_, rfl, rfl⟩, rfl, rfl⟩
  | streamStart | streamEnd | documentStart | documentEnd => cases h
  | sequenceEnd | mappingEnd => cases h

/-- In a collection an event closes it, or starts a node with the rest of the collection behind
that. -/
theorem push_of_goes_open (p : Event × Span → Bool) (around : List Bool) {y : Yield} {role : Role}
    {roles : List Role} (h : role.Goes (y.1.sign {}) roles) (hopen : role.isOpen = true) :
    (roles = [] ∧ Event.push p around y = around.drop 1) ∨
      ∃ tops next, roles = tops ++ [next] ∧ next.isOpen = true ∧
        (next = .items ↔ role = .items) ∧ Role.Starts (y.1.sign {}) tops := by
  obtain ⟨e, span⟩ := y
  generalize hsign : e.sign {} = sign at h
  cases h with
  | stream | streamEnd | document | documentEnd | node => cases hopen
  | item h => exact .inr ⟨_, _, rfl, rfl, .rfl, h⟩
  | key h | value h => exact .inr ⟨_, _, rfl, rfl, by decide, h⟩
  | itemsEnd =>
      cases e with
      | sequenceEnd => exact .inl ⟨rfl, rfl⟩
      | _ => cases hsign
  | keysEnd =>
      cases e with
      | mappingEnd => exact .inl ⟨rfl, rfl⟩
      | _ => cases hsign

/-- Outside collections an event starts a node, or belongs to the stream around. -/
theorem push_of_goes_other (p : Event × Span → Bool) (around : List Bool) {y : Yield} {role : Role}
    {roles : List Role} (h : role.Goes (y.1.sign {}) roles) (hopen : role.isOpen = false) :
    Role.Starts (y.1.sign {}) roles ∨
      (∀ r ∈ roles, r.isOpen = false) ∧ Event.push p around y = around := by
  obtain ⟨e, span⟩ := y
  generalize hsign : e.sign {} = sign at h
  have hsame : (∃ bracket, sign = .opening bracket ∧ (bracket = .stream ∨ bracket = .document)) ∨
      (∃ closing, sign = .closing closing ∧ (closing = .stream ∨ closing = .document)) →
      Event.push p around (e, span) = around := by
    rintro (⟨bracket, rfl, hbracket⟩ | ⟨closing, rfl, hclosing⟩)
    · rcases hbracket with rfl | rfl <;> cases e <;> first | rfl | cases hsign
    · rcases hclosing with rfl | rfl <;> cases e <;> first | rfl | cases hsign
  cases h with
  | node h => exact .inl h
  | stream => exact .inr ⟨by decide, hsame (.inl ⟨_, rfl, .inl rfl⟩)⟩
  | streamEnd => exact .inr ⟨by decide, hsame (.inr ⟨_, rfl, .inl rfl⟩)⟩
  | document => exact .inr ⟨by decide, hsame (.inl ⟨_, rfl, .inr rfl⟩)⟩
  | documentEnd => exact .inr ⟨by decide, hsame (.inr ⟨_, rfl, .inr rfl⟩)⟩
  | item | itemsEnd | key | keysEnd | value => cases hopen

section Goes

variable {doc : Text} {y : Yield} {task : Task} {rest tops : List Task} {nest : List Bool}

/-- The task that goes on with a collection is followed by another one of it, with what starts a
node in front of that, or ends the collection. -/
theorem nested_of_goes_open (h : Nested (task :: rest) nest)
    (hgoes : task.role.Goes (y.1.sign {}) (tops.map Task.role)) (hopen : task.isOpen = true)
    (hstays : Stays task tops)
    (hblock : y.1.opens = true → (∀ t ∈ tops.head?, t.inFlow = false) →
      Event.isBracketed doc y = false) :
    Nested (tops ++ rest) (Event.push (Event.isBracketed doc) nest y) := by
  rcases push_of_goes_open (Event.isBracketed doc) nest hgoes hopen with
    ⟨htops, hnest⟩ | ⟨roles, next, htops, hnext, -, hstarts⟩
  · obtain rfl := List.map_eq_nil_iff.mp htops
    rw [hnest]
    exact h.close hopen
  · -- the last task goes on with the collection, and what is in front of it with the node
    obtain ⟨front, last, rfl, hfront, hlast⟩ := List.map_eq_append_iff.mp htops
    obtain ⟨t', rfl, rfl⟩ := List.map_eq_singleton_iff.mp hlast
    have hflow : t'.inFlow = task.inFlow := hstays.2 hopen t' (by simp)
    have hsibling := h.sibling hopen hnext hflow
    rcases push_of_starts (Event.isBracketed doc) nest hstarts with
      ⟨rfl, hnest⟩ | ⟨⟨role, rfl, hrole⟩, hopens, hnest⟩
    · obtain rfl := List.map_eq_nil_iff.mp hfront
      rw [hnest]
      exact hsibling
    · obtain ⟨t, rfl, rfl⟩ := List.map_eq_singleton_iff.mp hfront
      rw [hnest]
      refine hsibling.opened hrole fun ht => ⟨hblock hopens (by simpa using ht), ?_⟩
      -- inside brackets the new task would be so too
      have htask : task.inFlow = false := by
        cases htask : task.inFlow with
        | false => rfl
        | true => cases (hstays.1 htask t (by simp)).symm.trans ht
      rintro x (_ | ⟨_, hx⟩)
      · exact hflow.trans htask
      · exact h.outside htask x hx

/-- A task outside collections is followed by what starts a node, or by others outside
collections. -/
theorem nested_of_goes_other (h : Nested (task :: rest) nest)
    (hgoes : task.role.Goes (y.1.sign {}) (tops.map Task.role)) (hopen : task.isOpen = false)
    (hblock : y.1.opens = true → (∀ t ∈ tops.head?, t.inFlow = false) →
      Event.isBracketed doc y = false) :
    Nested (tops ++ rest) (Event.push (Event.isBracketed doc) nest y) := by
  have hflow := Task.not_inFlow_of_not_isOpen hopen
  have hbelow := h.outside hflow
  have hrest : Nested rest nest := by
    cases h with
    | other _ _ h => exact h
    | block hnot => cases hopen.symm.trans hnot
    | flow hnot => cases hflow.symm.trans hnot
  rcases push_of_goes_other (Event.isBracketed doc) nest hgoes hopen with
    hstarts | ⟨hother, hnest⟩
  · rcases push_of_starts (Event.isBracketed doc) nest hstarts with
      ⟨htops, hnest⟩ | ⟨⟨role, htops, hrole⟩, hopens, hnest⟩
    · obtain rfl := List.map_eq_nil_iff.mp htops
      rw [hnest]
      exact hrest
    · obtain ⟨t, rfl, rfl⟩ := List.map_eq_singleton_iff.mp htops
      rw [hnest]
      exact hrest.opened hrole fun ht => ⟨hblock hopens (by simpa using ht), hbelow⟩
  · rw [hnest]
    exact hrest.others hbelow fun t ht => hother t.role (List.mem_map_of_mem ht)

/-- **What is open is known of the tasks that go on**, if it is of those that there were. -/
theorem nested_of_goes (h : Nested (task :: rest) nest)
    (hgoes : task.role.Goes (y.1.sign {}) (tops.map Task.role)) (hstays : Stays task tops)
    (hblock : y.1.opens = true → (∀ t ∈ tops.head?, t.inFlow = false) →
      Event.isBracketed doc y = false) :
    Nested (tops ++ rest) (Event.push (Event.isBracketed doc) nest y) := by
  cases hopen : task.isOpen with
  | true => exact nested_of_goes_open h hgoes hopen hstays hblock
  | false => exact nested_of_goes_other h hgoes hopen hblock

end Goes

/-! ## What a step leaves on top -/

section Stays

variable {all taken : List (Located Token)} {s s' : EventReader} {y : Yield} {task : Task}
  {tops : List Task} {block indentless : Bool} {act : Act} {u : Located Token}

/-- A node inside brackets is a scalar, an alias or a collection in brackets. -/
theorem Opens.inFlow {anchors : List (Text × Nat)} {count : Nat} {anchor : Option Text}
    (h : Opens anchors count false false taken anchor u y tops) : ∀ t ∈ tops, t.inFlow = true := by
  cases h with
  | reference | scalar | bare => exact List.forall_mem_nil _
  | collection _ _ hopening =>
      cases hopening with
      | flowSequence | flowMapping => simp [Task.inFlow]

/-- What is done for a task stays inside brackets, and comes back to the collection. -/
def Act.Stays (task : Task) : Act → Prop
  | .yield _ tops => EventReader.Stays task tops
  | .node block indentless nexts => EventReader.Stays task nexts ∧
      (task.inFlow = true → block = false ∧ indentless = false) ∧
      (task.isOpen = true → nexts ≠ [])

theorem Rule.stays (h : Rule task taken u act) : act.Stays task := by
  induction h with
  | streamEnd h | document h =>
      rcases h with rfl | rfl <;> exact ⟨nofun, nofun⟩
  | firstItem _ ih | firstKey _ ih => exact ih
  | behind h | nothing h | noValue h | close h =>
      cases h <;> simp [Act.Stays, EventReader.Stays, Task.inFlow]
  | firstFlowItem h | flowItem _ h =>
      cases h <;> simp [Act.Stays, EventReader.Stays, Task.inFlow]
  | firstFlowPair h | flowPair _ h =>
      cases h <;> simp [Act.Stays, EventReader.Stays, Task.inFlow]
  | _ => simp [Act.Stays, EventReader.Stays, Task.inFlow, Task.isOpen, Task.role, Role.isOpen]

/-- **A step stays inside brackets**, and comes back to the collection that it was in. -/
theorem step_stays (h : step task s = .ok (y, s')) :
    ∃ tops, s'.tasks = tops ++ s.tasks.drop 1 ∧ Stays task tops := by
  cases step_does h with
  | yields rule _ tasks => exact ⟨_, tasks, rule.stays⟩
  | @opens _ _ _ _ _ _ tops nexts _ rule node _ tasks =>
      obtain ⟨⟨hflow, hlast⟩, hnode, hne⟩ := rule.stays
      refine ⟨tops ++ nexts, tasks, fun htask t ht => ?_, fun htask t ht => ?_⟩
      · rcases List.mem_append.mp ht with ht | ht
        · obtain ⟨rfl, rfl⟩ := hnode htask
          exact node.inFlow t ht
        · exact hflow htask t ht
      · rw [List.getLast?_append_of_ne_nil _ (hne htask)] at ht
        exact hlast htask t ht

/-- What a step does to the tasks, all told. -/
theorem step_turns (hreads : Reads all s y s') (h : step task s = .ok (y, s')) :
    ∃ tops, s'.tasks = tops ++ s.tasks.drop 1 ∧ Leaves y tops s'.tokens ∧
      task.role.Goes (y.1.sign {}) (tops.map Task.role) ∧ Stays task tops := by
  obtain ⟨tops, htops, hleaves⟩ := hreads.leaves
  obtain ⟨tops₁, htops₁, hgoes⟩ := step_goes h
  obtain ⟨tops₂, htops₂, hstays⟩ := step_stays h
  obtain rfl := List.append_cancel_right (htops.symm.trans htops₁)
  obtain rfl := List.append_cancel_right (htops.symm.trans htops₂)
  exact ⟨tops, htops, hleaves, hgoes {}, hstays⟩

/-- The tokens that are left are tokens of the text. -/
theorem Numbered.written {doc : Text} (h : s.Numbered all) (hwritten : ∀ t ∈ all, t.Written doc) :
    ∀ t ∈ s.tokens.head?, t.Written doc := by
  obtain ⟨⟨front, rfl, -⟩, -⟩ := h
  exact fun t ht => hwritten t (List.mem_append_right _ (List.mem_of_mem_head? ht))

end Stays

/-! ## What a step opens -/

section Opens

variable {doc : Text} {all : List (Located Token)} {s s' : EventReader} {y : Yield}
  {tasks tops : List Task} {tokens : List (Located Token)} {nest : List Bool}

theorem isBracketed_of_not_isWide {e : Event} {t : Located Token} (h : ¬ t.IsWide) :
    Event.isBracketed doc (e, t.span) = false := by
  rw [Event.isBracketed, decide_eq_false (show ¬ t.span.start.index < t.span.stop.index from h)]
  rfl

/-- A collection that goes on outside brackets has none of its own. -/
theorem Leaves.not_isBracketed (h : Leaves y tops tokens)
    (hwritten : ∀ t ∈ tokens.head?, t.Written doc) (hopens : y.1.opens = true)
    (hflow : ∀ task ∈ tops.head?, task.inFlow = false) : Event.isBracketed doc y = false := by
  have hwide : ∀ {t : Located Token} {rest : List (Located Token)}, tokens = t :: rest →
      t.item = .blockSequenceStart ∨ t.item = .blockMappingStart ∨ t.item = .blockEntry →
      ¬ t.IsWide := by
    rintro t rest rfl ht
    have ht' := hwritten t rfl
    rcases ht with ht | ht | ht <;> (rw [Located.Written, ht] at ht'; exact ht')
  cases h with
  | leaf hleaf => cases hopens.symm.trans hleaf
  | blockSequence ht => exact isBracketed_of_not_isWide (hwide rfl (.inl ht))
  | blockMapping ht => exact isBracketed_of_not_isWide (hwide rfl (.inr (.inl ht)))
  | indentless ht => exact isBracketed_of_not_isWide (hwide rfl (.inr (.inr ht)))
  | flowSequence | flowMapping | pair => cases hflow _ rfl

/-- A sequence that goes on inside brackets has brackets of its own. -/
theorem Leaves.isBracketed_of_sequence {n : Nat} (h : Leaves y tops tokens)
    (hwritten : ∀ t ∈ tokens.head?, t.Written doc) (hsequence : y.1 = .sequenceStart n)
    (hflow : ∀ task ∈ tops.head?, task.inFlow = true) : Event.isBracketed doc y = true := by
  cases h with
  | leaf hleaf =>
      dsimp only at hsequence
      rw [hsequence] at hleaf
      cases hleaf
  | @flowSequence n t tasks tokens ht =>
      obtain ⟨hwide, hbracket⟩ : _ ∧ _ := by
        have ht' := hwritten _ rfl
        rwa [Located.Written, ht] at ht'
      rw [Event.isBracketed, hbracket,
        decide_eq_true (show t.span.start.index < t.span.stop.index from hwide)]
      rfl
  | blockSequence | indentless => cases hflow _ rfl
  | blockMapping | flowMapping | pair => cases hsequence

/-- **A step knows what is open**, and a sequence that it opens inside brackets has brackets of its
own. -/
theorem step_nested {task : Task} {rest : List Task} (hnest : Nested s.tasks nest)
    (hwritten : ∀ t ∈ all, t.Written doc) (hnumbered : s.Numbered all)
    (hready : Ready s.tasks s.tokens) (htasks : s.tasks = task :: rest)
    (hstep : step task s = .ok (y, s')) :
    Nested s'.tasks (Event.nest doc nest y) ∧
      (true ∈ nest → ∀ n, y.1 = .sequenceStart n → Event.isBracketed doc y = true) := by
  have hreads := step_reads hnumbered hready htasks hstep
  obtain ⟨tops, htops, hleaves, hgoes, hstays⟩ := step_turns hreads hstep
  have hnext := hreads.numbered.written hwritten
  rw [htasks] at hnest htops
  refine ⟨?_, fun hmem n hn => ?_⟩
  · rw [htops, List.drop_succ_cons, List.drop_zero]
    exact nested_of_goes hnest hgoes hstays fun hopens hflow =>
      hleaves.not_isBracketed hnext hopens hflow
  · exact hleaves.isBracketed_of_sequence hnext hn fun t ht =>
      hstays.1 (hnest.inFlow_of_mem hmem) t (List.mem_of_mem_head? ht)

/-- **Sequences inside brackets have brackets of their own**, in a whole run. -/
theorem Runs.bracketed {fuel : Nat} {yields : List Yield} (h : Runs fuel s yields)
    (hnest : Nested s.tasks nest) (hwritten : ∀ t ∈ all, t.Written doc)
    (hnumbered : s.Numbered all) (hready : Ready s.tasks s.tokens) {front rest : List Yield}
    {n : Nat} (hsplit : yields = front ++ y :: rest)
    (hmem : true ∈ Event.nestAfter doc nest front) (hn : y.1 = .sequenceStart n) :
    Event.isBracketed doc y = true := by
  induction h generalizing nest front with
  | outOfFuel | done => simp at hsplit
  | step htasks hstep _ ih =>
      obtain ⟨hnest', hfirst⟩ := step_nested hnest hwritten hnumbered hready htasks hstep
      have hreads := step_reads hnumbered hready htasks hstep
      cases front with
      | nil =>
          obtain ⟨rfl, -⟩ := List.cons.inj hsplit
          exact hfirst hmem n hn
      | cons z front =>
          obtain ⟨rfl, htail⟩ := List.cons.inj hsplit
          exact ih hnest' hreads.numbered (hreads.leaves_all hready).ready htail hmem

end Opens

end EventReader

/-- **A sequence inside brackets has brackets of its own.** -/
theorem Event.isBracketed_of_sequence {doc : Text} {events front rest : List (Event × Span)}
    {y : Event × Span} {n : Nat} (h : Event.ofDocument doc = .ok events)
    (hsplit : events = front ++ y :: rest) (hnest : true ∈ nestAfter doc [] front)
    (hsequence : y.1 = .sequenceStart n) : isBracketed doc y = true := by
  obtain ⟨-, hwritten, -⟩ := Token.scan_ordered doc
  obtain ⟨hnumbered, hready⟩ := EventReader.start_ready doc
  have hnested : EventReader.Nested [.stream] [] := .other rfl (by simp) .nil
  exact (EventReader.runs_of_ofTokens h).bracketed hnested hwritten hnumbered hready hsplit hnest
    hsequence

/-! ## Runs of events and what is open around them -/

namespace Event

variable {doc : Text} {nest : List Bool} {events : List (Event × Span)}

/-- Events with signs in two parts are in two parts. -/
theorem append_of_fits {u v : List Sign} (h : List.Forall₂ Fits events (u ++ v)) :
    ∃ front rest, events = front ++ rest ∧ List.Forall₂ Fits front u ∧ List.Forall₂ Fits rest v :=
  ⟨events.take u.length, events.drop u.length, (List.take_append_drop _ _).symm,
    List.forall₂_take_append _ _ _ h, List.forall₂_drop_append _ _ _ h⟩

section Push

variable {p : Event × Span → Bool} {around : List Bool}

theorem pushAll_append (events rest : List (Event × Span)) :
    pushAll p around (events ++ rest) = pushAll p (pushAll p around events) rest :=
  List.foldl_append

/-- An opening sign opens a collection or nothing. -/
theorem push_of_opening {y : Event × Span} {bracket : Bracket} (h : Fits y (.opening bracket)) :
    push p around y = (if bracket.style?.isSome then [p y] else []) ++ around := by
  obtain ⟨e, span⟩ := y
  obtain ⟨look, h⟩ := h
  cases e <;> cases h <;> rfl

/-- The closing sign closes what its opening one has opened. -/
theorem push_of_closing {y : Event × Span} {bracket : Bracket} {b : Bool}
    (h : Fits y (.closing bracket.closing)) :
    push p ((if bracket.style?.isSome then [b] else []) ++ around) y = around := by
  obtain ⟨e, span⟩ := y
  obtain ⟨look, h⟩ := h
  cases bracket <;> cases e <;> first | rfl | cases h

mutual

/-- **What is open around a node is open behind it.** -/
theorem pushAll_node : ∀ {o : Outline} {around : List Bool} {events : List (Event × Span)},
    List.Forall₂ Fits events o.signs → pushAll p around events = around
  | .scalar text, around, events, h => by
      obtain ⟨⟨e, span⟩, _, ⟨look, hy⟩, hrest, rfl⟩ := List.forall₂_cons_right_iff.mp h
      cases hrest
      cases e <;> cases hy
      rfl
  | .reference name, around, events, h => by
      obtain ⟨⟨e, span⟩, _, ⟨look, hy⟩, hrest, rfl⟩ := List.forall₂_cons_right_iff.mp h
      cases hrest
      cases e <;> cases hy
      rfl
  | .group bracket children, around, events, h => by
      rw [Outline.signs] at h
      obtain ⟨y, rest, hy, hrest, rfl⟩ := List.forall₂_cons_right_iff.mp h
      obtain ⟨inner, last, rfl, hinner, hlast⟩ := append_of_fits hrest
      obtain ⟨z, _, hz, hnil, rfl⟩ := List.forall₂_cons_right_iff.mp hlast
      cases hnil
      show pushAll p (push p around y) (inner ++ [z]) = around
      rw [pushAll_append, pushAll_nodes hinner, push_of_opening hy]
      exact push_of_closing hz

/-- The same for nodes one after the other. -/
theorem pushAll_nodes : ∀ {l : List Outline} {around : List Bool}
    {events : List (Event × Span)},
    List.Forall₂ Fits events (Outline.signsOf l) → pushAll p around events = around
  | [], around, events, h => by
      rw [Outline.signsOf_nil] at h
      cases h
      rfl
  | o :: rest, around, events, h => by
      rw [Outline.signsOf_cons] at h
      obtain ⟨front, behind, rfl, hfront, hbehind⟩ := append_of_fits h
      rw [pushAll_append, pushAll_node hfront, pushAll_nodes hbehind]

end

/-- In front of a child, nothing else has been opened than its collection. -/
theorem pushAll_before_child {y : Event × Span} {bracket : Bracket} {l : List Outline} {i : Nat}
    (h : List.Forall₂ Fits (y :: events) ((Outline.group bracket l).before [i]))
    (hstyle : bracket.style?.isSome = true) : pushAll p around (y :: events) = p y :: around := by
  rw [Outline.before_child] at h
  obtain ⟨hy, hrest⟩ := List.forall₂_cons.mp h
  show pushAll p (push p around y) events = _
  rw [pushAll_nodes hrest, push_of_opening hy, if_pos hstyle]
  rfl

end Push

theorem nestAfter_append (events rest : List (Event × Span)) :
    nestAfter doc nest (events ++ rest) = nestAfter doc (nestAfter doc nest events) rest :=
  pushAll_append events rest

theorem nest_of_opening {y : Event × Span} {bracket : Bracket} (h : Fits y (.opening bracket)) :
    Event.nest doc nest y = (if bracket.style?.isSome then [isBracketed doc y] else []) ++ nest :=
  push_of_opening h

theorem nestAfter_nodes {l : List Outline} (h : List.Forall₂ Fits events (Outline.signsOf l)) :
    nestAfter doc nest events = nest :=
  pushAll_nodes h

/-- What has been opened in front of something is open there. -/
theorem nestAfter_before : ∀ {a : Address} {o x : Outline} {around : List Bool}
    {events : List (Event × Span)}, o.at? a = some x → List.Forall₂ Fits events (o.before a) →
      ∃ opened, nestAfter doc around events = opened ++ around
  | [], o, x, around, events, _, h => by
      cases h
      exact ⟨[], rfl⟩
  | i :: rest, o, x, around, events, hat, h => by
      obtain ⟨bracket, l, child, rfl, hi, hx⟩ := Outline.at?_cons_eq_some.mp hat
      simp only [Outline.before, hi] at h
      obtain ⟨y, tail, hy, htail, rfl⟩ := List.forall₂_cons_right_iff.mp h
      obtain ⟨front, inner, rfl, hfront, hinner⟩ := append_of_fits htail
      obtain ⟨opened, hopened⟩ : ∃ opened, nestAfter doc (Event.nest doc around y) inner =
        opened ++ Event.nest doc around y := nestAfter_before hx hinner
      refine ⟨opened ++ if bracket.style?.isSome then [isBracketed doc y] else [], ?_⟩
      show nestAfter doc (Event.nest doc around y) (front ++ inner) = _
      rw [nestAfter_append, nestAfter_nodes hfront, hopened, nest_of_opening hy,
        List.append_assoc]

/-- Brackets that are opened around something are open there. -/
theorem mem_nestAfter_before {o x : Outline} {i : Nat} {rest : Address} {around : List Bool}
    {y : Event × Span} (hat : o.at? (i :: rest) = some x)
    (h : List.Forall₂ Fits (y :: events) (o.before (i :: rest))) (hopens : y.1.opens = true)
    (hbracketed : isBracketed doc y = true) : true ∈ nestAfter doc around (y :: events) := by
  obtain ⟨bracket, l, child, rfl, hi, hx⟩ := Outline.at?_cons_eq_some.mp hat
  simp only [Outline.before, hi] at h
  obtain ⟨-, htail⟩ := List.forall₂_cons.mp h
  obtain ⟨front, inner, rfl, hfront, hinner⟩ := append_of_fits htail
  obtain ⟨opened, hopened⟩ : ∃ opened, nestAfter doc (true :: around) inner =
    opened ++ true :: around := nestAfter_before hx hinner
  have hnest : Event.nest doc around y = true :: around := by
    rw [Event.nest, if_pos hopens, hbracketed]
  show true ∈ nestAfter doc (Event.nest doc around y) (front ++ inner)
  rw [hnest, nestAfter_append, nestAfter_nodes hfront, hopened]
  simp

/-- What starts a collection in brackets is the start of a collection. -/
theorem opens_of_isBracketed {y : Event × Span} (h : isBracketed doc y = true) :
    y.1.opens = true ∧ Bracketed doc y := by
  obtain ⟨e, span⟩ := y
  rw [isBracketed, Bool.and_eq_true] at h
  obtain ⟨-, h⟩ := h
  cases e with
  | sequenceStart n | mappingStart n => exact ⟨rfl, beq_iff_eq.mp h⟩
  | _ => cases h

/-- The text behind the properties at the mark of an event starts with a brace. -/
def LooksBraced (m : SourceMap) (y : Event × Span) : Prop :=
  ∃ opened rest, Extent.skipProperties m.source (m.offsetOfMark y.2.start) = .ok opened ∧
    m.source.dropBytes opened = .ok ('\x7b' :: rest)

/-- The style of a mapping is that of braces where one stands. -/
theorem collectionStyle_of_mapping {m : SourceMap} {c : TreeBuilder.OpenCollection}
    {style : Style}
    (hmapping : c.isMapping = true) (h : TreeBuilder.collectionStyle m c = .ok style) :
    style = .flow ↔ ∃ rest, m.source.dropBytes c.opened = .ok ('\x7b' :: rest) := by
  obtain ⟨text, htext, h⟩ := bind_eq_ok.mp h
  rw [if_pos hmapping] at h
  cases h
  rw [htext]
  rcases text with _ | ⟨c, rest⟩
  · simp
  · by_cases hc : c = '\x7b' <;> simp [hc]

/-- A mapping is taken for one in braces where the text looks so. -/
theorem signIn_mapping {m : SourceMap} {labels : Labels} {n : Nat} {span : Span} {style : Style}
    (h : signIn m labels (.mappingStart n, span) = .opening (.mapping style)) :
    style = .flow ↔ LooksBraced m (.mappingStart n, span) := by
  have hlook := TreeBuilder.look_opener (m := m) labels true n span
  constructor
  · rintro rfl
    unfold signIn at h
    split at h
    · next look hl =>
        obtain ⟨opened, hopened, hl⟩ := bind_eq_ok.mp (hlook.symm.trans hl)
        obtain ⟨style, hstyle, rfl⟩ := map_eq_ok.mp hl
        obtain rfl : style = .flow := by
          cases h
          rfl
        obtain ⟨rest, hrest⟩ := (collectionStyle_of_mapping rfl hstyle).mp rfl
        exact ⟨opened, rest, hopened, hrest⟩
    · cases h
  · rintro ⟨opened, rest, hopened, hrest⟩
    have hflow : look m labels (.mappingStart n, span) = .ok { style := .flow } := by
      rw [show look m labels (.mappingStart n, span) = _ from hlook, hopened]
      show ({ style := · } : Style → Look) <$> TreeBuilder.collectionStyle m _ = _
      unfold TreeBuilder.collectionStyle
      rw [hrest]
      rfl
    rw [signIn_of_look hflow] at h
    cases h
    rfl

end Event

namespace Snapshot

/-- The event of what is at an address: the one behind those of what is written in front of it. -/
def eventAt? (s : Snapshot) (events : List (Event × Span)) (a : Address) : Option (Event × Span) :=
  events[(s.outline.before a).length]?

/-- Something around what is at an address is written in brackets. -/
def InBrackets (s : Snapshot) (events : List (Event × Span)) (a : Address) : Prop :=
  ∃ b c y, a = b ++ c ∧ c ≠ [] ∧ s.eventAt? events b = some y ∧
    Event.isBracketed s.source y = true

/-- A mapping inside brackets that is written without any of its own. -/
structure IsPair (s : Snapshot) (events : List (Event × Span)) (a : Address) (y : Event × Span) :
    Prop where
  mapping : ∃ style l, s.outline.at? a = some (.group (.mapping style) l)
  inside : s.InBrackets events a
  event : s.eventAt? events a = some y
  bare : Event.isBracketed s.source y = false

section Styles

variable {source : Text} {s : Snapshot} {events : List (Event × Span)} {a : Address}

/-- The events of a text, taken apart in front of what is at an address of its tree. -/
theorem events_at (h : Snapshot.ofText source = .ok s)
    (hevents : Event.ofDocument source = .ok events) {x : Outline}
    (hat : s.outline.at? a = some x) :
    ∃ front rest labels, events = front ++ rest ∧
      List.Forall₂ Event.Fits front (s.outline.before a) ∧
      Event.signs (SourceMap.ofText source) labels rest = x.signs ++ s.outline.behind a := by
  have hsigns : Event.signs (SourceMap.ofText source) [] events = s.outline.signs := by
    have hreading := (reading_eq h).1
    rw [Event.reading, hevents] at hreading
    exact Except.ok.inj hreading
  rw [Outline.signs_at hat, List.append_assoc] at hsigns
  obtain ⟨front, rest, rfl, hfront, hrest⟩ := Event.signs_eq_append hsigns
  refine ⟨front, rest, _, rfl, ?_, hrest⟩
  rw [← hfront]
  exact Event.fits_signs _ _ _

/-- Behind what is written in front of an address there is the event of what is there. -/
theorem eventAt?_append {front rest : List (Event × Span)} {y : Event × Span}
    (hfits : List.Forall₂ Event.Fits front (s.outline.before a)) :
    s.eventAt? (front ++ y :: rest) a = some y := by
  rw [eventAt?, ← hfits.length_eq]
  simp

/-- The same at the address of a collection, of which the first event is known. -/
theorem split_at (h : Snapshot.ofText source = .ok s)
    (hevents : Event.ofDocument source = .ok events) {bracket : Bracket} {l : List Outline}
    (hat : s.outline.at? a = some (.group bracket l)) :
    ∃ front y rest, events = front ++ y :: rest ∧ s.eventAt? events a = some y ∧
      List.Forall₂ Event.Fits front (s.outline.before a) ∧
      ∃ labels, Event.signIn (SourceMap.ofText source) labels y = .opening bracket := by
  obtain ⟨front, rest, labels, rfl, hfits, hsigns⟩ := events_at h hevents hat
  obtain ⟨y, rest, rfl, hy, -⟩ := Event.signs_eq_cons hsigns
  exact ⟨front, y, rest, rfl, eventAt?_append hfits, hfits, labels, hy⟩

/-- Brackets around an address are open there. -/
theorem mem_nestAfter_of_inBrackets (h : Snapshot.ofText source = .ok s)
    (hevents : Event.ofDocument source = .ok events) {x : Outline}
    (hat : s.outline.at? a = some x) (hinside : s.InBrackets events a)
    {front : List (Event × Span)} (hfront : front <+: events)
    (hfits : List.Forall₂ Event.Fits front (s.outline.before a)) :
    true ∈ Event.nestAfter source [] front := by
  obtain ⟨b, c, y, rfl, hc, hy, hbracketed⟩ := hinside
  rw [source_of_ofText h] at hbracketed
  obtain ⟨o, ho⟩ := Outline.at?_of_append hat
  have hx : o.at? c = some x := by
    rw [Outline.at?_append ho] at hat
    exact hat
  obtain ⟨i, rest, rfl⟩ : ∃ i rest, c = i :: rest := List.exists_cons_of_ne_nil hc
  rw [Outline.before_append ho] at hfits
  obtain ⟨around, inner, rfl, haround, hinner⟩ := Event.append_of_fits hfits
  -- the first of the inner events is the one of what is in brackets
  obtain ⟨z, inner, rfl⟩ : ∃ z rest, inner = z :: rest := by
    obtain ⟨bracket, l, child, rfl, hi, -⟩ := Outline.at?_cons_eq_some.mp hx
    simp only [Outline.before, hi] at hinner
    obtain ⟨z, inner, -, -, rfl⟩ := List.forall₂_cons_right_iff.mp hinner
    exact ⟨z, inner, rfl⟩
  obtain rfl : z = y := by
    obtain ⟨behind, rfl⟩ := hfront
    rw [List.append_assoc, List.cons_append, eventAt?_append haround] at hy
    exact Option.some.inj hy
  rw [Event.nestAfter_append]
  exact Event.mem_nestAfter_before hx hinner (Event.opens_of_isBracketed hbracketed).1 hbracketed

/-- A collection with brackets of its own is written in flow style. -/
theorem style_of_isBracketed {m : SourceMap} {labels : Event.Labels} {y : Event × Span}
    {bracket : Bracket} (h : Event.signIn m labels y = .opening bracket)
    (hbracketed : Event.isBracketed m.source y = true) : bracket.style? = some .flow := by
  obtain ⟨-, hbracket⟩ := Event.opens_of_isBracketed hbracketed
  obtain ⟨e, span⟩ := y
  obtain ⟨isMapping, n, rfl⟩ : ∃ isMapping n, e = TreeBuilder.openerOf isMapping n := by
    cases e with
    | sequenceStart n => exact ⟨false, n, rfl⟩
    | mappingStart n => exact ⟨true, n, rfl⟩
    | _ => simp [Event.isBracketed] at hbracketed
  rw [Event.signIn_of_look (Event.look_of_bracketed hbracket)] at h
  cases isMapping <;> cases h <;> rfl

/-- **Inside brackets only a pair can be taken for a block**, and is where the text behind its
properties does not start with a brace. -/
theorem style_inside_brackets (h : Snapshot.ofText source = .ok s)
    (hevents : Event.ofDocument source = .ok events) {bracket : Bracket} {l : List Outline}
    (hat : s.outline.at? a = some (.group bracket l)) (hinside : s.InBrackets events a) :
    bracket.style? = some .block ↔
      ∃ y, s.IsPair events a y ∧ ¬ Event.LooksBraced (SourceMap.ofText source) y := by
  obtain ⟨front, y, rest, hsplit, hy, hfits, labels, hsign⟩ := split_at h hevents hat
  have hnest := mem_nestAfter_of_inBrackets h hevents hat hinside ⟨y :: rest, hsplit.symm⟩ hfits
  have hsource := source_of_ofText h
  cases hbracketed : Event.isBracketed source y with
  | true =>
      rw [style_of_isBracketed hsign hbracketed]
      refine ⟨nofun, fun ⟨y', hpair, _⟩ => ?_⟩
      obtain rfl := Option.some.inj (hy.symm.trans hpair.event)
      exact absurd (hsource ▸ hpair.bare) (by rw [hbracketed]; decide)
  | false =>
      have hmapping : ∀ {y'}, s.IsPair events a y' → ∃ style, bracket = .mapping style := by
        rintro y' ⟨⟨style, l', hat'⟩, -, -, -⟩
        cases hat.symm.trans hat'
        exact ⟨style, rfl⟩
      obtain ⟨look, hlook⟩ := Event.fits_signIn (SourceMap.ofText source) labels y
      rw [hsign] at hlook
      cases bracket with
      | sequence style =>
          -- a sequence inside brackets would have brackets of its own
          have hopener : y.1.sign look = .opening (TreeBuilder.bracketOf false style) := hlook.symm
          obtain ⟨n, hn, -⟩ := TreeBuilder.opener_of_sign hopener
          have hown := Event.isBracketed_of_sequence hevents hsplit hnest hn
          cases hown.symm.trans hbracketed
      | mapping style =>
          have hopener : y.1.sign look = .opening (TreeBuilder.bracketOf true style) := hlook.symm
          obtain ⟨n, hn, -⟩ := TreeBuilder.opener_of_sign hopener
          obtain ⟨e, span⟩ := y
          obtain rfl : e = .mappingStart n := hn
          have hpair : s.IsPair events a (.mappingStart n, span) :=
            ⟨⟨style, l, hat⟩, hinside, hy, hsource ▸ hbracketed⟩
          have hflow := Event.signIn_mapping hsign
          constructor
          · intro hblock
            refine ⟨_, hpair, fun hbrace => ?_⟩
            rw [hflow.mpr hbrace] at hblock
            cases hblock
          · rintro ⟨y', hpair', hbrace⟩
            obtain rfl := Option.some.inj (hpair.event.symm.trans hpair'.event)
            cases style with
            | block => rfl
            | flow => exact absurd (hflow.mp rfl) hbrace
      | stream | document =>
          refine ⟨nofun, fun ⟨y', hpair, _⟩ => ?_⟩
          obtain ⟨style, hstyle⟩ := hmapping hpair
          cases hstyle

/-- **Everything inside brackets is written in flow style exactly if every pair there looks as if it
were in braces.** -/
theorem flow_inside_brackets_iff (h : Snapshot.ofText source = .ok s)
    (hevents : Event.ofDocument source = .ok events) :
    (∀ a bracket l, s.outline.at? a = some (.group bracket l) → s.InBrackets events a →
        bracket.style? ≠ some .block) ↔
      ∀ a y, s.IsPair events a y → Event.LooksBraced (SourceMap.ofText source) y := by
  constructor
  · intro hflow a y hpair
    by_contra hbrace
    obtain ⟨style, l, hat⟩ := hpair.mapping
    exact hflow a _ l hat hpair.inside
      ((style_inside_brackets h hevents hat hpair.inside).mpr ⟨y, hpair, hbrace⟩)
  · intro hbraces a bracket l hat hinside hblock
    obtain ⟨y, hpair, hbrace⟩ := (style_inside_brackets h hevents hat hinside).mp hblock
    exact hbrace (hbraces a y hpair)

end Styles

/-- The key of the pair is a mapping in braces: the text at the mark of the pair starts with the
brace of its key. -/
theorem flow_inside_brackets_iff_key_in_braces :
    ∃ s events, Snapshot.ofText "[\x7ba: 1\x7d: 2]\n".toList = .ok s ∧
      Event.ofDocument "[\x7ba: 1\x7d: 2]\n".toList = .ok events ∧
      (∃ y, s.IsPair events [0, 0, 0] y) ∧
      ∀ a bracket l, s.outline.at? a = some (.group bracket l) → s.InBrackets events a →
        bracket.style? ≠ some .block := by
  let outline : Outline := .stream [.group (.sequence .flow) [.group (.mapping .flow)
    [.group (.mapping .flow) [.scalar "a".toList, .scalar "1".toList], .scalar "2".toList]]]
  obtain ⟨e, hload, hsigns⟩ := Editor.exists_load "[\x7ba: 1\x7d: 2]\n".toList
    (P := fun e => e.snapshot.outline.signs = outline.signs) (by decide +kernel)
  have houtline : e.snapshot.outline = outline := Outline.signs_injective hsigns
  have hs := (Editor.load_eq_ok hload).1
  have hsource := Snapshot.source_of_ofText hs
  let sequence : Event × Span := (.sequenceStart 0, ⟨⟨0, 1, 0⟩, ⟨1, 1, 1⟩⟩)
  let pair : Event × Span := (.mappingStart 0, ⟨⟨1, 1, 1⟩, ⟨1, 1, 1⟩⟩)
  let key : Event × Span := (.mappingStart 0, ⟨⟨1, 1, 1⟩, ⟨2, 1, 2⟩⟩)
  obtain ⟨events, hevents, hsequence, hpair, hopeners⟩ :
      ∃ events, Event.ofDocument "[\x7ba: 1\x7d: 2]\n".toList = .ok events ∧
        events[2]? = some sequence ∧ events[3]? = some pair ∧
        ∀ y ∈ events, y.1.opens = true → y = sequence ∨ y = pair ∨ y = key :=
    exists_ok_of_any (by decide +kernel)
  have hevent : ∀ a, e.snapshot.eventAt? events a = events[(outline.before a).length]? := by
    intro a
    rw [eventAt?, houtline]
  refine ⟨e.snapshot, events, hs, hevents, ⟨pair, ⟨⟨.flow, _, by rw [houtline]; rfl⟩,
    ⟨[0, 0], [0], sequence, rfl, by decide, (hevent _).trans hsequence, by rw [hsource]; decide⟩,
    (hevent _).trans hpair, by rw [hsource]; decide⟩⟩,
    (flow_inside_brackets_iff hs hevents).mpr ?_⟩
  rintro a y ⟨⟨style, l, hat⟩, -, hy, hbare⟩
  rw [hsource] at hbare
  obtain ⟨front, y', rest, hsplit, hy', -, labels, hsign⟩ := split_at hs hevents hat
  obtain rfl := Option.some.inj (hy.symm.trans hy')
  obtain ⟨look, hlook⟩ := Event.fits_signIn
    (SourceMap.ofText "[\x7ba: 1\x7d: 2]\n".toList) labels y
  have hopener : y.1.sign look = .opening (TreeBuilder.bracketOf true style) :=
    hlook.symm.trans hsign
  obtain ⟨n, hn, -⟩ := TreeBuilder.opener_of_sign hopener
  have hopens : y.1.opens = true := by
    rw [hn]
    rfl
  rcases hopeners y (by simp [hsplit]) hopens with rfl | rfl | rfl
  · cases hn
  · exact ⟨1, "a: 1\x7d: 2]\n".toList, by decide +kernel, by decide +kernel⟩
  · cases hbare

/-- A pair without braces is a block inside brackets, and a pair that is added to it is put on a
line of its own there. -/
theorem pair_inside_brackets_is_block :
    ∃ e e' text events l,
      Editor.edit "[a: 1,\n c]\n".toList (.mapAdd "0".toList "b".toList (.integer 2)) =
        some (e, e', text) ∧
      Event.ofDocument "[a: 1,\n c]\n".toList = .ok events ∧
      e.snapshot.outline.at? [0, 0, 0] = some (.group (.mapping .block) l) ∧
      e.snapshot.InBrackets events [0, 0, 0] ∧
      text = "[a: 1,\n b: 2\n c]\n".toList := by
  obtain ⟨e, e', text, hedit, hsigns, hbefore, htext⟩ := Editor.exists_edit "[a: 1,\n c]\n".toList
    (.mapAdd "0".toList "b".toList (.integer 2))
    (P := fun e _ text => (e.snapshot.outline.at? [0, 0, 0]).map Outline.signs = some
        (Outline.group (.mapping .block) [.scalar "a".toList, .scalar "1".toList]).signs ∧
      (e.snapshot.outline.before [0, 0]).length = 2 ∧ text = "[a: 1,\n b: 2\n c]\n".toList)
    (by decide +kernel)
  obtain ⟨x, hat, hx⟩ := Option.map_eq_some_iff.mp hsigns
  obtain rfl := Outline.signs_injective hx
  obtain ⟨hload, -⟩ := Editor.edit_eq_some.mp hedit
  have hs := (Editor.load_eq_ok hload).1
  obtain ⟨events, hevents, hsequence⟩ := exists_ok_of_any
    (x := Event.ofDocument "[a: 1,\n c]\n".toList)
    (P := fun events => events[2]? = some (.sequenceStart 0, ⟨⟨0, 1, 0⟩, ⟨1, 1, 1⟩⟩))
    (by decide +kernel)
  refine ⟨e, e', text, events, _, hedit, hevents, hat,
    ⟨[0, 0], [0], (.sequenceStart 0, ⟨⟨0, 1, 0⟩, ⟨1, 1, 1⟩⟩), rfl, by decide, ?_, ?_⟩, htext⟩
  · rw [eventAt?, hbefore]
    exact hsequence
  · rw [Snapshot.source_of_ofText hs]
    decide

end Snapshot

end YamlEdit
