import Mathlib.Data.List.Forall2
import YamlEdit.Proofs.EventSteps
import YamlEdit.Proofs.Outline

/-!
# The events of a text are well nested

The machine that reads tokens keeps a stack of tasks. What is still to be read for a task only
depends on its `Role`: the rest of a stream, of a sequence, of a mapping that waits for a key, and
so on. A step takes the task on top away, yields one sign and leaves new roles that complete it
(`EventReader.step_goes`), so a run to the empty stack writes down one stream of documents. That a
run does get there is the second half: every step lowers `EventReader.potential`, and the fuel of
`Event.ofTokens` is above it at the start.

Main statement: `Event.nested_of_ofTokens`.
-/

namespace YamlEdit

/-- What the text around an event adds to it. -/
structure Look where
  /-- The text that a scalar has. -/
  text : Text := []
  /-- How a collection is written. -/
  style : Style := .block
  /-- What an alias stands for. -/
  name : Text := []

/-- The sign of an event. -/
def Event.sign (look : Look) : Event → Sign
  | .streamStart => .opening .stream
  | .streamEnd => .closing .stream
  | .documentStart => .opening .document
  | .documentEnd => .closing .document
  | .scalar .. => .scalar look.text
  | .sequenceStart _ => .opening (.sequence look.style)
  | .sequenceEnd => .closing .sequence
  | .mappingStart _ => .opening (.mapping look.style)
  | .mappingEnd => .closing .mapping
  | .aliasTo _ => .reference look.name

/-- A sign that an event has in some text. -/
def Event.Fits (y : Event × Span) (sign : Sign) : Prop := ∃ look, sign = y.1.sign look

/-- What is left to be read for a task. -/
inductive Role where
  | stream
  | documents
  | documentEnd
  | node
  | items
  /-- The rest of a mapping in front of a key. -/
  | keys
  /-- The rest of a mapping in front of a value. -/
  | values
  deriving DecidableEq, Repr

namespace Role

/-- Nodes one after the other. -/
def Nodes (l : List Outline) : Prop := ∀ o ∈ l, o.IsNode

/-- The signs that a role stands for. -/
def Reads : Role → List Sign → Prop
  | .stream, w => ∃ contents, Nodes contents ∧ w = (Outline.stream contents).signs
  | .documents, w => ∃ contents, Nodes contents ∧
      w = Outline.signsOf (Outline.documents contents) ++ [.closing .stream]
  | .documentEnd, w => ∃ contents, Nodes contents ∧
      w = .closing .document :: (Outline.signsOf (Outline.documents contents) ++ [.closing .stream])
  | .node, w => ∃ o : Outline, o.IsNode ∧ w = o.signs
  | .items, w => ∃ l, Nodes l ∧ w = Outline.signsOf l ++ [.closing .sequence]
  | .keys, w => ∃ l, Nodes l ∧ l.length % 2 = 0 ∧ w = Outline.signsOf l ++ [.closing .mapping]
  | .values, w => ∃ l, Nodes l ∧ l.length % 2 = 1 ∧ w = Outline.signsOf l ++ [.closing .mapping]

/-- The signs that roles stand for, one after the other. -/
def ReadsAll : List Role → List Sign → Prop
  | [], w => w = []
  | role :: rest, w => ∃ u v, w = u ++ v ∧ role.Reads u ∧ ReadsAll rest v

theorem readsAll_append {roles roles' : List Role} {w : List Sign}
    (h : ReadsAll (roles ++ roles') w) :
    ∃ u v, w = u ++ v ∧ ReadsAll roles u ∧ ReadsAll roles' v := by
  induction roles generalizing w with
  | nil => exact ⟨[], w, rfl, rfl, h⟩
  | cons role rest ih =>
      obtain ⟨u, v, rfl, hu, hv⟩ := h
      obtain ⟨v₁, v₂, rfl, h₁, h₂⟩ := ih hv
      exact ⟨u ++ v₁, v₂, by simp, ⟨u, v₁, rfl, hu, h₁⟩, h₂⟩

/-- A sign that starts a node, with what completes it. -/
inductive Starts : Sign → List Role → Prop where
  | scalar (text : Text) : Starts (.scalar text) []
  | reference (name : Text) : Starts (.reference name) []
  | sequence (style : Style) : Starts (.opening (.sequence style)) [.items]
  | mapping (style : Style) : Starts (.opening (.mapping style)) [.keys]

/-- One sign of a role, with what completes it. -/
inductive Goes : Role → Sign → List Role → Prop where
  | stream : Goes .stream (.opening .stream) [.documents]
  | streamEnd : Goes .documents (.closing .stream) []
  | document : Goes .documents (.opening .document) [.node, .documentEnd]
  | documentEnd : Goes .documentEnd (.closing .document) [.documents]
  | node {sign : Sign} {roles : List Role} (h : Starts sign roles) : Goes .node sign roles
  | item {sign : Sign} {roles : List Role} (h : Starts sign roles) :
      Goes .items sign (roles ++ [.items])
  | itemsEnd : Goes .items (.closing .sequence) []
  | key {sign : Sign} {roles : List Role} (h : Starts sign roles) :
      Goes .keys sign (roles ++ [.values])
  | keysEnd : Goes .keys (.closing .mapping) []
  | value {sign : Sign} {roles : List Role} (h : Starts sign roles) :
      Goes .values sign (roles ++ [.keys])

/-- What completes the start of a node makes up the node. -/
theorem node_of_starts {sign : Sign} {roles : List Role} {w : List Sign} (h : Starts sign roles)
    (hw : ReadsAll roles w) : ∃ o : Outline, o.IsNode ∧ sign :: w = o.signs := by
  cases h with
  | scalar text =>
      obtain rfl : w = [] := hw
      exact ⟨.scalar text, .scalar text, rfl⟩
  | reference name =>
      obtain rfl : w = [] := hw
      exact ⟨.reference name, .reference name, rfl⟩
  | sequence style =>
      obtain ⟨_, _, rfl, ⟨l, hl, rfl⟩, rfl⟩ := hw
      exact ⟨.group (.sequence style) l, .sequence style hl,
        by simp [Outline.signs, Bracket.closing]⟩
  | mapping style =>
      obtain ⟨_, _, rfl, ⟨l, hl, heven, rfl⟩, rfl⟩ := hw
      exact ⟨.group (.mapping style) l, .mapping style heven hl,
        by simp [Outline.signs, Bracket.closing]⟩

/-- A node in front of the rest of a collection. -/
theorem nodes_cons {o : Outline} {l : List Outline} (ho : o.IsNode) (hl : Nodes l) :
    Nodes (o :: l) := by
  intro x hx
  rcases List.mem_cons.mp hx with rfl | hx
  · exact ho
  · exact hl x hx

/-- The node that a sign starts, when roles follow it that end with `last`. -/
theorem node_of_starts_append {sign : Sign} {roles : List Role} {last : Role} {w : List Sign}
    (h : Starts sign roles) (hw : ReadsAll (roles ++ [last]) w) :
    ∃ (o : Outline) (v : List Sign), o.IsNode ∧ sign :: w = o.signs ++ v ∧ last.Reads v := by
  obtain ⟨u, v, rfl, hu, hv⟩ := readsAll_append hw
  obtain ⟨o, ho, hsigns⟩ := node_of_starts h hu
  obtain ⟨v, _, rfl, hv, rfl⟩ := hv
  exact ⟨o, v, ho, by rw [← hsigns]; simp, hv⟩

/-- **A step of a role is sound**: a sign in front of what completes it reads the role. -/
theorem reads_of_goes {role : Role} {sign : Sign} {roles : List Role} {w : List Sign}
    (h : Goes role sign roles) (hw : ReadsAll roles w) : role.Reads (sign :: w) := by
  cases h with
  | stream =>
      obtain ⟨_, _, rfl, ⟨contents, hc, rfl⟩, rfl⟩ := hw
      exact ⟨contents, hc, by simp [Outline.stream, Outline.signs, Bracket.closing]⟩
  | streamEnd =>
      obtain rfl : w = [] := hw
      exact ⟨[], by simp [Nodes], rfl⟩
  | document =>
      obtain ⟨_, _, rfl, ⟨o, ho, rfl⟩, _, _, rfl, ⟨contents, hc, rfl⟩, rfl⟩ := hw
      exact ⟨o :: contents, nodes_cons ho hc,
        by simp [Outline.documents, Outline.signs, Bracket.closing]⟩
  | documentEnd =>
      obtain ⟨_, _, rfl, ⟨contents, hc, rfl⟩, rfl⟩ := hw
      exact ⟨contents, hc, by simp⟩
  | node h => exact node_of_starts h hw
  | item h =>
      obtain ⟨o, _, ho, heq, l, hl, rfl⟩ := node_of_starts_append h hw
      exact ⟨o :: l, nodes_cons ho hl, by simp [heq]⟩
  | itemsEnd =>
      obtain rfl : w = [] := hw
      exact ⟨[], by simp [Nodes], rfl⟩
  | key h =>
      obtain ⟨o, _, ho, heq, l, hl, hodd, rfl⟩ := node_of_starts_append h hw
      exact ⟨o :: l, nodes_cons ho hl, by rw [List.length_cons]; omega, by simp [heq]⟩
  | keysEnd =>
      obtain rfl : w = [] := hw
      exact ⟨[], by simp [Nodes], rfl, rfl⟩
  | value h =>
      obtain ⟨o, _, ho, heq, l, hl, heven, rfl⟩ := node_of_starts_append h hw
      exact ⟨o :: l, nodes_cons ho hl, by rw [List.length_cons]; omega, by simp [heq]⟩

end Role

namespace Task

/-- What is left to be read for a task. -/
def role : Task → Role
  | .stream => .stream
  | .implicitDocument | .markedDocument => .documents
  | .documentEnd => .documentEnd
  | .documentContent | .blockNode => .node
  | .blockSequenceFirst | .blockSequenceNext | .indentlessNext
  | .flowSequenceFirst | .flowSequenceNext => .items
  | .blockMappingFirst | .blockMappingKey | .flowMappingFirst | .flowMappingKey
  | .pairKey | .pairEnd => .keys
  | .blockMappingValue | .flowMappingValue | .flowMappingEmptyValue | .pairValue => .values

/-- How many events a task can yield without taking a token, where that matters. -/
def weight : Task → Nat
  | .stream => 6
  | .implicitDocument => 5
  | .markedDocument => 1
  | .documentEnd | .documentContent | .blockNode => 2
  | .blockSequenceFirst | .blockSequenceNext | .flowSequenceFirst | .flowSequenceNext => 0
  | .indentlessNext => 1
  | .blockMappingFirst => 0
  | .blockMappingKey => 2
  | .blockMappingValue => 3
  | .flowMappingFirst | .flowMappingKey => 0
  | .flowMappingValue | .flowMappingEmptyValue => 1
  | .pairKey => 5
  | .pairValue => 2
  | .pairEnd => 1

/-- The weight of a task on top, where the next token is known: a value that is written takes its
token. -/
def weightBefore (next : Option Token) : Task → Nat
  | .blockMappingValue => if next = some .value then 1 else 3
  | task => task.weight

theorem weightBefore_le (next : Option Token) (task : Task) :
    task.weightBefore next ≤ task.weight := by
  cases task with
  | blockMappingValue => simp only [weightBefore, weight]; split <;> omega
  | _ => exact Nat.le_refl _

/-- The weight of tasks together. -/
def weights : List Task → Nat
  | [] => 0
  | task :: rest => task.weight + weights rest

@[simp] theorem weights_nil : weights [] = 0 := rfl

@[simp] theorem weights_cons (task : Task) (rest : List Task) :
    weights (task :: rest) = task.weight + weights rest := rfl

theorem weights_append (l l' : List Task) : weights (l ++ l') = weights l + weights l' := by
  induction l with
  | nil => simp
  | cons task rest ih => simp [ih, Nat.add_assoc]

/-- The weight of tasks in front of a token. -/
def weightsBefore (next : Token) : List Task → Nat
  | [] => 0
  | task :: rest => task.weightBefore (some next) + weights rest

theorem weightsBefore_le (next : Token) (tasks : List Task) :
    weightsBefore next tasks ≤ weights tasks := by
  cases tasks with
  | nil => exact Nat.le_refl _
  | cons task rest => exact Nat.add_le_add_right (weightBefore_le _ _) _

end Task

namespace EventReader

section Goes

variable {task : Task} {taken : List (Located Token)} {u : Located Token} {y : Yield}
  {tops : List Task} {block indentless atStop : Bool} {act : Act} {next : Task} {indicator : Token}
  {stops : List Token}

/-! ## What completes the event of a step -/

/-- An event that starts a node leaves the task that completes it. -/
theorem Opens.starts {anchors : List (Text × Nat)} {count : Nat} {anchor : Option Text}
    (h : Opens anchors count block indentless taken anchor u y tops) (look : Look) :
    Role.Starts (y.1.sign look) (tops.map Task.role) := by
  cases h with
  | reference => exact .reference look.name
  | scalar | bare => exact .scalar look.text
  | collection _ _ hopening =>
      cases hopening with
      | indentless | flowSequence | blockSequence => exact .sequence look.style
      | flowMapping | blockMapping => exact .mapping look.style

/-- What is done for a role: an event is one of its signs, and a node is what it waits for. The
tasks that come next complete the role. -/
def Act.Completes (role : Role) : Act → Prop
  | .yield y tops => ∀ look, role.Goes (y.1.sign look) (tops.map Task.role)
  | .node _ _ nexts => ∀ ⦃sign roles⦄, Role.Starts sign roles →
      role.Goes sign (roles ++ nexts.map Task.role)

/-- Something behind an indicator goes on with the collection of that. -/
theorem Indicates.goes (h : Indicates task indicator block indentless stops atStop next)
    {sign : Sign} {roles : List Role} (hstarts : Role.Starts sign roles) :
    task.role.Goes sign (roles ++ [next.role]) := by
  cases h with
  | item | indentlessItem => exact .item hstarts
  | key => exact .key hstarts
  | value | pairValue | flowValue => exact .value hstarts

theorem FlowItem.completes (h : FlowItem taken u act) : act.Completes .items := by
  cases h with
  | close => exact fun _ => .itemsEnd
  | pair => exact fun look => .item (.mapping look.style)
  | node => exact fun _ _ => .item

theorem FlowPair.completes (h : FlowPair taken u act) : act.Completes .keys := by
  cases h with
  | key | node => exact fun _ _ => .key
  | nothing | noKey => exact fun look => .key (.scalar look.text)

/-- **What a task does completes its role.** -/
theorem Rule.completes (h : Rule task taken u act) : act.Completes task.role := by
  induction h with
  | streamStart => exact fun _ => .stream
  | streamEnd htask => rcases htask with rfl | rfl <;> exact fun _ => .streamEnd
  | document htask => rcases htask with rfl | rfl <;> exact fun _ => .document
  | implicitDocument => exact fun _ => .document
  | noContent => exact fun look => .node (.scalar look.text)
  | content | blockNode => exact fun _ roles h => (List.append_nil roles).symm ▸ .node h
  | documentEnd | openEnd => exact fun _ => .documentEnd
  | firstItem _ ih | firstKey _ ih => exact ih
  | behind hindicates => exact fun _ _ => hindicates.goes
  | nothing hindicates | noValue hindicates => exact fun look => hindicates.goes (.scalar look.text)
  | noKey | noPairKey => exact fun look => .key (.scalar look.text)
  | emptyValue => exact fun look => .value (.scalar look.text)
  | pairKey => exact fun _ _ => .key
  | close hcloses =>
      cases hcloses with
      | items | flowItems => exact fun _ => .itemsEnd
      | keys | flowKeys => exact fun _ => .keysEnd
  | indentlessEnd => exact fun _ => .itemsEnd
  | pairEnd | noPair | comma => exact fun _ => .keysEnd
  | firstFlowItem h | flowItem _ h => exact h.completes
  | firstFlowPair h | flowPair _ h => exact h.completes

/-! ## What a step costs -/

/-- What is done costs the weight of the tasks that come next. A node costs one event more. -/
def Act.cost (next : Token) : Act → Nat
  | .yield _ tops => Task.weightsBefore next tops
  | .node _ _ nexts => 1 + Task.weights nexts

theorem Act.cost_yield_lt (next : Token) (y : Yield) (tops : List Task) (block indentless : Bool) :
    (Act.yield y tops).cost next < (Act.node block indentless tops).cost next := by
  have hle := Task.weightsBefore_le next tops
  simp only [Act.cost]
  omega

/-- The tasks of a node take tokens for all but one of their events. -/
theorem Opens.weights_le {anchors : List (Text × Nat)} {count : Nat} {anchor : Option Text}
    (h : Opens anchors count block indentless taken anchor u y tops) : Task.weights tops ≤ 1 := by
  cases h with
  | reference | scalar | bare => exact Nat.zero_le 1
  | collection _ _ hopening => cases hopening <;> decide

theorem Indicates.cost_lt (h : Indicates task indicator block indentless stops atStop next) :
    1 + next.weight < 4 + task.weightBefore (some indicator) := by
  cases h <;> decide

theorem FlowItem.cost_lt (h : FlowItem taken u act) : act.cost u.item < 4 + 4 * taken.length := by
  cases h <;> simp [Act.cost, Task.weightsBefore, Task.weightBefore, Task.weight]

theorem FlowPair.cost_lt (h : FlowPair taken u act) : act.cost u.item < 4 + 4 * taken.length := by
  cases h <;> simp [Act.cost, Task.weightsBefore, Task.weightBefore, Task.weight]

/-- **What a task does costs less** than the tokens that it takes and its own weight. -/
theorem Rule.cost_lt (h : Rule task taken u act) :
    act.cost u.item <
      4 * taken.length + task.weightBefore (some (ahead (taken ++ [u])).item) := by
  induction h with
  | firstItem _ ih | firstKey _ ih =>
      simp only [Task.weightBefore, Task.weight, List.length_cons] at ih ⊢
      omega
  | behind h ht =>
      subst ht
      exact h.cost_lt
  | nothing h ht =>
      subst ht
      exact Nat.lt_trans (Act.cost_yield_lt _ _ _ true true) h.cost_lt
  | noValue h hu =>
      cases h <;> simp [Act.cost, Task.weightsBefore, Task.weightBefore, Task.weight, hu]
  | noKey hu => simp [Act.cost, Task.weightsBefore, Task.weightBefore, Task.weight, hu]
  | close => exact Nat.lt_add_right _ (Nat.zero_lt_succ 3)
  | firstFlowItem h | flowItem _ h =>
      have hlt := h.cost_lt
      simp only [Task.weightBefore, Task.weight, List.length_cons]
      omega
  | firstFlowPair h | flowPair _ h =>
      have hlt := h.cost_lt
      simp only [Task.weightBefore, Task.weight, List.length_cons]
      omega
  | streamEnd htask | document htask =>
      rcases htask with rfl | rfl <;>
        simp only [Act.cost, Task.weightsBefore, Task.weightBefore, Task.weight, Task.weights,
          List.length_append, List.length_singleton] <;> omega
  | _ => simp [Act.cost, Task.weightsBefore, Task.weightBefore, Task.weight]

end Goes

/-! ## Steps and runs -/

section Runs

variable {s s' : EventReader} {task : Task} {y : Yield}

/-- The number of tokens that are left. -/
def left (s : EventReader) : Nat := s.tokens.length

/-- The token that comes next. -/
def next (s : EventReader) : Option Token := s.tokens.head?.map (·.item)

/-- A bound on the events that are still to come. -/
def potential (s : EventReader) : Nat :=
  4 * s.left +
    match s.tasks with
    | [] => 0
    | task :: rest => task.weightBefore s.next + Task.weights rest

/-- Where there is no token, the weight is that in front of the end of the stream. -/
theorem weightBefore_next (s : EventReader) (task : Task) :
    task.weightBefore s.next = task.weightBefore (some (ahead s.tokens).item) := by
  unfold next ahead
  cases s.tokens with
  | nil => cases task <;> rfl
  | cons t tokens => rfl

theorem potential_le {tops rest : List Task} (htasks : s.tasks = tops ++ rest) :
    s.potential ≤
      4 * s.left + (Task.weightsBefore (ahead s.tokens).item tops + Task.weights rest) := by
  unfold potential
  rw [htasks]
  cases tops with
  | nil =>
      cases rest with
      | nil => exact Nat.le_add_right _ _
      | cons task rest =>
          have hle := task.weightBefore_le s.next
          simp only [List.nil_append, Task.weightsBefore, Task.weights_cons]
          omega
  | cons task tops =>
      rw [List.cons_append]
      simp only [weightBefore_next, Task.weightsBefore, Task.weights_append]
      omega

/-- **What a step leaves** completes the role of its task behind the event that it yields. -/
theorem step_goes (h : step task s = .ok (y, s')) :
    ∃ tops, s'.tasks = tops ++ s.tasks.drop 1 ∧
      ∀ look, task.role.Goes (y.1.sign look) (tops.map Task.role) := by
  cases step_does h with
  | yields rule _ tasks => exact ⟨_, tasks, rule.completes⟩
  | opens rule node _ tasks =>
      refine ⟨_, tasks, fun look => ?_⟩
      rw [List.map_append]
      exact rule.completes (node.starts look)

/-- **A step costs something.** -/
theorem step_costs (h : step task s = .ok (y, s')) :
    s'.potential <
      4 * s.left + (task.weightBefore s.next + Task.weights (s.tasks.drop 1)) := by
  have hahead : ∀ {taken rest : List (Located Token)}, s.tokens = taken ++ rest →
      ahead (taken ++ [ahead rest]) = ahead s.tokens := by
    rintro taken rest heq
    rw [heq]
    cases taken <;> rfl
  rw [weightBefore_next]
  cases step_does h with
  | yields rule takes tasks =>
      have hlt := rule.cost_lt
      have hle := potential_le tasks
      rw [hahead takes.tokens] at hlt
      simp only [left, takes.tokens, List.length_append, Act.cost] at hle hlt ⊢
      omega
  | @opens front props _ _ _ _ tops nexts s' rule node takes tasks =>
      have hlt := rule.cost_lt
      have hnode := node.weights_le
      have hle := potential_le tasks
      have htops := Task.weightsBefore_le (ahead s'.tokens).item (tops ++ nexts)
      rw [hahead (takes.tokens.trans (List.append_assoc _ _ _))] at hlt
      simp only [left, takes.tokens, List.length_append, Act.cost, Task.weights_append] at *
      omega

/-- **A run completes its tasks**, when the fuel is above the potential. -/
theorem Runs.reads {fuel : Nat} {yields : List Yield} (h : Runs fuel s yields)
    (hfuel : s.potential < fuel) {signs : List Sign}
    (hfits : List.Forall₂ Event.Fits yields signs) :
    Role.ReadsAll (s.tasks.map Task.role) signs := by
  induction h generalizing signs with
  | outOfFuel => omega
  | done htasks =>
      cases hfits
      rw [htasks]
      rfl
  | @step fuel s s' task rest y yields htasks hstep _ ih =>
      have hcosts := step_costs hstep
      obtain ⟨tops, htasks', hgoes⟩ := step_goes hstep
      rw [htasks, List.drop_succ_cons, List.drop_zero] at hcosts htasks'
      have hpotential : s'.potential < fuel := by
        have hs : s.potential = 4 * s.left + (task.weightBefore s.next + Task.weights rest) := by
          rw [potential, htasks]
        omega
      -- the sign of the event goes in front of what completes it
      obtain ⟨_, signs', ⟨look, rfl⟩, hfits', rfl⟩ := List.forall₂_cons_left_iff.mp hfits
      have hreads := ih hpotential hfits'
      rw [htasks', List.map_append] at hreads
      obtain ⟨u, v, rfl, hu, hv⟩ := Role.readsAll_append hreads
      rw [htasks, List.map_cons]
      exact ⟨_ :: u, v, rfl, Role.reads_of_goes (hgoes look) hu, hv⟩

end Runs

end EventReader

/-- **The events of a text are well nested**: whatever the text around them adds, they write down a
stream of documents. -/
theorem Event.nested_of_ofTokens {tokens : TokenStream} {events : List (Event × Span)}
    (h : Event.ofTokens tokens = .ok events) {signs : List Sign}
    (hfits : List.Forall₂ Event.Fits events signs) :
    ∃ contents : List Outline, (∀ o ∈ contents, o.IsNode) ∧
      signs = (Outline.stream contents).signs := by
  have hfuel : (EventReader.start tokens).potential < 4 * tokens.tokens.length + 8 := by
    simp [EventReader.start, EventReader.potential, EventReader.left, Task.weightBefore,
      Task.weight]
  have hruns := EventReader.runs_of_ofTokens h
  obtain ⟨_, _, hw, ⟨contents, hcontents, rfl⟩, rfl⟩ := hruns.reads hfuel hfits
  exact ⟨contents, hcontents, by simpa using hw⟩

end YamlEdit
