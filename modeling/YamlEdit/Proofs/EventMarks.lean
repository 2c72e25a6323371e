import YamlEdit.Proofs.EventNesting
import YamlEdit.Proofs.TokenOrder

/-!
# What the marks of events stand for

The machine that reads tokens marks the start of a collection with the token that announces it, and
numbers anchors in the order in which they are written. Both are followed through its steps: what a
step has to find when it is taken (`EventReader.Ready`) and what it leaves behind
(`EventReader.Reads`).

Main statement: `Event.marked_of_ofDocument`. A collection that is closed at once has its opening
bracket at its mark. Anchors are numbered in the order of their nodes, one after the other, and the
number of an anchor is that of its name among those that the text gives. An alias has the number of
the name that it writes, and comes behind the start of the node with that number.
-/

namespace YamlEdit

/-- The names that tokens give to anchors, in their order. -/
def Token.anchorNames (tokens : List (Located Token)) : List Text :=
  tokens.filterMap fun t => t.item.anchorName?

/-- Name number `n`, counted from one. -/
def Token.Names (tokens : List (Located Token)) (n : Nat) (name : Text) : Prop :=
  n ≠ 0 ∧ (anchorNames tokens)[n - 1]? = some name

namespace Event

/-- Whether an event starts a collection. -/
def opens : Event → Bool
  | .sequenceStart _ | .mappingStart _ => true
  | _ => false

/-- Whether an event ends a collection. -/
def closes : Event → Bool
  | .sequenceEnd | .mappingEnd => true
  | _ => false

/-- The number of the anchor that an event has; zero is none. -/
def anchorNumber : Event → Nat
  | .scalar _ _ n | .sequenceStart n | .mappingStart n => n
  | _ => 0

/-- Whether an event starts no collection, has no anchor and stands for none. -/
def isPlain : Event → Bool
  | .sequenceStart _ | .mappingStart _ | .aliasTo _ => false
  | .scalar _ _ n => n == 0
  | _ => true

theorem not_opens_of_isPlain {e : Event} (h : e.isPlain = true) : e.opens = false := by
  cases e with
  | sequenceStart | mappingStart => cases h
  | _ => rfl

theorem anchorNumber_of_isPlain {e : Event} (h : e.isPlain = true) : e.anchorNumber = 0 := by
  cases e with
  | sequenceStart | mappingStart => cases h
  | scalar => exact beq_iff_eq.mp h
  | _ => rfl

/-- Whether the bracket of a collection stands at the mark of the event that starts it. -/
def Bracketed (doc : Text) (y : Event × Span) : Prop :=
  match y.1 with
  | .sequenceStart _ => (doc.drop y.2.start.index).head? = some '['
  | .mappingStart _ => (doc.drop y.2.start.index).head? = some '\x7b'
  | _ => False

/-- A collection that is closed at once has its bracket at its mark. -/
def Fills (doc : Text) (y y' : Event × Span) : Prop :=
  y.1.opens = true → y'.1.closes = true → Bracketed doc y

/-- The numbers of the anchors of events, in their order. -/
def anchorNumbers (events : List (Event × Span)) : List Nat :=
  (events.map fun y => y.1.anchorNumber).filter (· ≠ 0)

theorem anchorNumbers_cons (y : Event × Span) (events : List (Event × Span)) :
    anchorNumbers (y :: events) =
      if y.1.anchorNumber = 0 then anchorNumbers events
      else y.1.anchorNumber :: anchorNumbers events := by
  by_cases hzero : y.1.anchorNumber = 0
  · simp [anchorNumbers, hzero]
  · simp [anchorNumbers, hzero]

theorem closes_of_starts {e : Event} {roles : List Role}
    (h : Role.Starts (e.sign {}) roles) : e.closes = false := by
  cases e <;> first | rfl | cases h

end Event

namespace Task

/-- Whether a task may find any token. -/
def isFree : Task → Bool
  | .stream => false
  | .blockSequenceFirst | .blockMappingFirst | .flowSequenceFirst | .flowMappingFirst => false
  | _ => true

/-- The token that a task steps over without looking at it. -/
def StepsOver : Task → Token → Prop
  | .stream, token => token.anchorName? = none
  | .blockSequenceFirst, token => token = .blockSequenceStart
  | .blockMappingFirst, token => token = .blockMappingStart
  | .flowSequenceFirst, token => token = .flowSequenceStart
  | .flowMappingFirst, token => token = .flowMappingStart
  | _, _ => True

theorem anchorName?_of_stepsOver {task : Task} {token : Token} (h : task.StepsOver token)
    (htask : task.isFree = false) : token.anchorName? = none := by
  cases task with
  | stream => exact h
  | blockSequenceFirst | blockMappingFirst | flowSequenceFirst | flowMappingFirst =>
      rw [show token = _ from h]
      rfl
  | _ => cases htask

end Task

namespace EventReader

/-! ## What a step leaves behind -/

/-- What an event says about the tasks and the tokens behind it. A collection is marked with the
token that its first task steps over. -/
inductive Leaves : Yield → List Task → List (Located Token) → Prop where
  | leaf {e : Event} {span : Span} {tasks : List Task} {tokens : List (Located Token)}
      (hopens : e.opens = false) (hfree : ∀ task ∈ tasks, task.isFree = true) :
      Leaves (e, span) tasks tokens
  | blockSequence {n : Nat} {t : Located Token} {tasks : List Task} {tokens : List (Located Token)}
      (ht : t.item = .blockSequenceStart) (hfree : ∀ task ∈ tasks, task.isFree = true) :
      Leaves (.sequenceStart n, t.span) (.blockSequenceFirst :: tasks) (t :: tokens)
  | blockMapping {n : Nat} {t : Located Token} {tasks : List Task} {tokens : List (Located Token)}
      (ht : t.item = .blockMappingStart) (hfree : ∀ task ∈ tasks, task.isFree = true) :
      Leaves (.mappingStart n, t.span) (.blockMappingFirst :: tasks) (t :: tokens)
  | flowSequence {n : Nat} {t : Located Token} {tasks : List Task} {tokens : List (Located Token)}
      (ht : t.item = .flowSequenceStart) (hfree : ∀ task ∈ tasks, task.isFree = true) :
      Leaves (.sequenceStart n, t.span) (.flowSequenceFirst :: tasks) (t :: tokens)
  | flowMapping {n : Nat} {t : Located Token} {tasks : List Task} {tokens : List (Located Token)}
      (ht : t.item = .flowMappingStart) (hfree : ∀ task ∈ tasks, task.isFree = true) :
      Leaves (.mappingStart n, t.span) (.flowMappingFirst :: tasks) (t :: tokens)
  | indentless {n : Nat} {t : Located Token} {tasks : List Task} {tokens : List (Located Token)}
      (ht : t.item = .blockEntry) (hfree : ∀ task ∈ tasks, task.isFree = true) :
      Leaves (.sequenceStart n, t.span) (.indentlessNext :: tasks) (t :: tokens)
  | pair {n : Nat} {span : Span} {tasks : List Task} {tokens : List (Located Token)}
      (hfree : ∀ task ∈ tasks, task.isFree = true) :
      Leaves (.mappingStart n, span) (.pairKey :: tasks) tokens

/-- What is left to be done is there to be done. -/
structure Ready (tasks : List Task) (tokens : List (Located Token)) : Prop where
  top : ∀ task ∈ tasks.head?, ∀ t ∈ tokens.head?, task.StepsOver t.item
  below : ∀ task ∈ tasks.drop 1, task.isFree = true

theorem stepsOver_of_isFree {task : Task} (h : task.isFree = true) (token : Token) :
    task.StepsOver token := by
  cases task <;> trivial

theorem ready_of_isFree {tasks : List Task} {tokens : List (Located Token)}
    (h : ∀ task ∈ tasks, task.isFree = true) : Ready tasks tokens :=
  ⟨fun task htask t _ => stepsOver_of_isFree (h task (List.mem_of_mem_head? htask)) t.item,
    fun task htask => h task (List.mem_of_mem_drop htask)⟩

namespace Leaves

variable {y : Yield} {tasks : List Task} {tokens : List (Located Token)}

theorem ready (h : Leaves y tasks tokens) : Ready tasks tokens := by
  cases h with
  | leaf _ hfree => exact ready_of_isFree hfree
  | blockSequence ht hfree | blockMapping ht hfree | flowSequence ht hfree | flowMapping ht hfree
  | indentless ht hfree =>
      refine ⟨?_, hfree⟩
      rintro _ ⟨⟩ _ ⟨⟩
      first
        | exact ht
        | trivial
  | pair hfree =>
      refine ⟨?_, hfree⟩
      rintro _ ⟨⟩ _ _
      trivial

theorem append (h : Leaves y tasks tokens) {rest : List Task}
    (hrest : ∀ task ∈ rest, task.isFree = true) : Leaves y (tasks ++ rest) tokens := by
  have hfree : ∀ {l : List Task}, (∀ task ∈ l, task.isFree = true) →
      ∀ task ∈ l ++ rest, task.isFree = true := fun hl task ht =>
    (List.mem_append.mp ht).elim (hl task) (hrest task)
  cases h with
  | leaf hopens h => exact .leaf hopens (hfree h)
  | blockSequence ht h => exact .blockSequence ht (hfree h)
  | blockMapping ht h => exact .blockMapping ht (hfree h)
  | flowSequence ht h => exact .flowSequence ht (hfree h)
  | flowMapping ht h => exact .flowMapping ht (hfree h)
  | indentless ht h => exact .indentless ht (hfree h)
  | pair h => exact .pair (hfree h)

end Leaves

section Rules

variable {task : Task} {taken tokens : List (Located Token)} {y : Yield} {tops : List Task}
  {block indentless : Bool} {act : Act} {u : Located Token} {anchors : List (Text × Nat)}
  {count : Nat} {anchor : Option Text}

/-- The token that announces a collection is still there. -/
theorem Opens.leaves
    (h : Opens anchors count block indentless taken anchor (ahead tokens) y tops) :
    Leaves y tops tokens := by
  generalize hu : ahead tokens = u at h
  cases h with
  | reference | scalar | bare => exact .leaf rfl (List.forall_mem_nil _)
  | collection _ hitem hopening =>
      have hend : (ahead tokens).item ≠ .streamEnd := by
        rw [hu, hitem]
        exact hopening.ne_streamEnd
      rw [eq_ahead_cons hend, hu]
      cases hopening with
      | indentless => exact .indentless hitem (List.forall_mem_nil _)
      | flowSequence => exact .flowSequence hitem (List.forall_mem_nil _)
      | flowMapping => exact .flowMapping hitem (List.forall_mem_nil _)
      | blockSequence => exact .blockSequence hitem (List.forall_mem_nil _)
      | blockMapping => exact .blockMapping hitem (List.forall_mem_nil _)

/-- The tasks that come next may find any token. -/
theorem Rule.isFree (h : Rule task taken u act) : ∀ task ∈ act.tops, task.isFree = true := by
  induction h with
  | firstItem _ ih | firstKey _ ih => exact ih
  | behind h | nothing h | noValue h => cases h <;> simp [Act.tops, Task.isFree]
  | firstFlowItem h | flowItem _ h => cases h <;> simp [Act.tops, Task.isFree]
  | firstFlowPair h | flowPair _ h => cases h <;> simp [Act.tops, Task.isFree]
  | _ => simp [Act.tops, Task.isFree]

/-- An event that comes without a node is plain, or starts the mapping of a pair. -/
def Act.IsPlain : Act → Prop
  | .yield y tops => y.1.isPlain = true ∨ ∃ place rest, y = (.mappingStart 0, place) ∧
      tops = .pairKey :: rest
  | .node .. => True

theorem Rule.isPlain (h : Rule task taken u act) : act.IsPlain := by
  induction h with
  | content | blockNode | pairKey | behind => trivial
  | close h => cases h <;> exact .inl rfl
  | firstItem _ ih | firstKey _ ih => exact ih
  | firstFlowItem h | flowItem _ h =>
      cases h with
      | close => exact .inl rfl
      | pair => exact .inr ⟨_, _, rfl, rfl⟩
      | node => trivial
  | firstFlowPair h | flowPair _ h =>
      cases h with
      | key | node => trivial
      | nothing | noKey => exact .inl rfl
  | _ => exact .inl rfl

/-- What is left behind an event that comes without a node. -/
theorem Rule.leaves (h : Rule task taken u (.yield y tops)) (tokens : List (Located Token)) :
    Leaves y tops tokens := by
  have hfree : ∀ task ∈ tops, task.isFree = true := h.isFree
  rcases h.isPlain with hplain | ⟨place, rest, rfl, rfl⟩
  · exact .leaf (Event.not_opens_of_isPlain hplain) hfree
  · exact .pair (List.forall_mem_cons.mp hfree).2

end Rules

/-! ## Anchors and their numbers -/

/-- The anchors so far are those of the tokens that have been taken. -/
structure Numbered (all : List (Located Token)) (s : EventReader) : Prop where
  taken : ∃ front, all = front ++ s.tokens ∧ s.anchorCount = (Token.anchorNames front).length
  anchors : ∀ name n, (name, n) ∈ s.anchors → Token.Names all n name ∧ n ≤ s.anchorCount

/-- One anchor has been numbered, which has the number `n`, or none if that is zero. -/
def Counts (s : EventReader) (n : Nat) (s' : EventReader) : Prop :=
  n = 0 ∧ s'.anchorCount = s.anchorCount ∨ n = s.anchorCount + 1 ∧ s'.anchorCount = n

/-- What a step has read. -/
structure Reads (all : List (Located Token)) (s : EventReader) (y : Yield) (s' : EventReader) :
    Prop where
  numbered : s'.Numbered all
  /-- The anchor of the event is the only one that the step has numbered. -/
  counts : Counts s y.1.anchorNumber s'
  /-- An alias has the number of the anchor whose name it writes. -/
  reference : ∀ n, y.1 = .aliasTo n → n ≤ s.anchorCount ∧
    ∃ t ∈ all, ∃ name, t.span = y.2 ∧ t.item = .aliasTo name ∧ Token.Names all n name
  leaves : ∃ tops, s'.tasks = tops ++ s.tasks.drop 1 ∧ Leaves y tops s'.tokens

section Reads

variable {all taken : List (Located Token)} {s s' : EventReader} {y : Yield} {task : Task}
  {u : Located Token} {act : Act} {tops : List Task} {block indentless : Bool}
  {anchors : List (Text × Nat)} {count : Nat} {anchor : Option Text}

theorem Takes.counts (h : Takes s taken anchor s') :
    Counts s (numberBehind s.anchorCount anchor) s' := by
  have hcount := h.count
  cases anchor with
  | none => exact .inl ⟨rfl, hcount⟩
  | some name => exact .inr ⟨rfl, hcount⟩

/-- The anchor among the tokens that are taken gets the next number. -/
theorem Takes.numbered (h : Takes s taken anchor s')
    (hnames : Token.anchorNames taken = anchor.toList) (hs : s.Numbered all) :
    s'.Numbered all := by
  obtain ⟨⟨front, hall, hcount⟩, hanchors⟩ := hs
  have hsplit : all = (front ++ taken) ++ s'.tokens := by
    rw [hall, h.tokens, List.append_assoc]
  have hfront : Token.anchorNames (front ++ taken) = Token.anchorNames front ++ anchor.toList := by
    rw [Token.anchorNames, List.filterMap_append, ← Token.anchorNames, ← Token.anchorNames, hnames]
  refine ⟨⟨front ++ taken, hsplit, ?_⟩, fun name n hmem => ?_⟩
  · rw [h.count, hfront, List.length_append, hcount]
  · rw [h.anchors] at hmem
    rcases List.mem_append.mp hmem with hmem | hmem
    · -- the anchor is the next one of all
      obtain ⟨name', rfl, heq⟩ : ∃ name', anchor = some name' ∧
          (name', s.anchorCount + 1) = (name, n) := by simpa using hmem
      cases heq
      refine ⟨⟨Nat.succ_ne_zero _, ?_⟩, Nat.le_of_eq h.count.symm⟩
      rw [hsplit, Token.anchorNames, List.filterMap_append, ← Token.anchorNames, hfront,
        Nat.add_sub_cancel, hcount]
      simp
    · obtain ⟨hname, hn⟩ := hanchors name n hmem
      exact ⟨hname, hn.trans (h.count ▸ Nat.le_add_right _ _)⟩

theorem Opens.anchorNames (h : Opens anchors count block indentless taken anchor u y tops) :
    Token.anchorNames taken = anchor.toList := by
  have hprops : ∀ {props anchor}, Properties props anchor →
      Token.anchorNames props = anchor.toList := by
    intro props anchor h
    cases h <;> simp_all [Token.anchorNames, Token.anchorName?]
  cases h with
  | reference ht => simp [Token.anchorNames, Token.anchorName?, ht]
  | scalar h ht =>
      rw [← hprops h]
      simp [Token.anchorNames, Token.anchorName?, ht]
  | collection h | bare h => exact hprops h

theorem Opens.anchorNumber (h : Opens anchors count block indentless taken anchor u y tops) :
    y.1.anchorNumber = numberBehind count anchor := by
  cases h with
  | reference | scalar | bare => rfl
  | collection _ _ hopening => cases hopening <;> rfl

theorem not_anchor_of_isBetween {token : Token} (h : token.isBetween = true) :
    token.anchorName? = none := by
  cases token with
  | anchor => cases h
  | _ => rfl

theorem FlowItem.not_anchor (h : FlowItem taken u act) :
    ∀ t ∈ taken, t.item.anchorName? = none := by
  cases h with
  | close ht | pair ht => simp [ht, Token.anchorName?]
  | node => exact List.forall_mem_nil _

theorem FlowPair.not_anchor (h : FlowPair taken u act) :
    ∀ t ∈ taken, t.item.anchorName? = none := by
  cases h with
  | key ht | nothing ht => simp [ht, Token.anchorName?]
  | noKey | node => exact List.forall_mem_nil _

/-- Tokens that are taken in front of a node, or without one, are no anchors. -/
theorem Rule.not_anchor (h : Rule task taken u act)
    (hfirst : task.isFree = false → ∀ t ∈ taken.head?, t.item.anchorName? = none) :
    ∀ t ∈ taken, t.item.anchorName? = none := by
  induction h with
  | @streamStart taken _ _ hone =>
      intro t ht
      refine hfirst rfl t ?_
      match taken, hone with
      | [x], _ =>
          rw [List.mem_singleton.mp ht]
          rfl
  | streamEnd _ htaken | implicitDocument htaken =>
      exact fun t ht => not_anchor_of_isBetween (htaken t ht)
  | document _ hfront ht =>
      intro x hx
      rcases List.mem_append.mp hx with hx | hx
      · exact not_anchor_of_isBetween (hfront x hx)
      · rw [List.mem_singleton.mp hx, ht]
        rfl
  | firstItem _ ih | firstKey _ ih => exact List.forall_mem_cons.mpr ⟨hfirst rfl _ rfl, ih nofun⟩
  | behind h ht | nothing h ht | close h ht => cases h <;> simp [ht, Token.anchorName?]
  | noPairKey ht =>
      simp only [List.mem_cons, List.not_mem_nil, or_false] at ht
      rcases ht with ht | ht | ht <;> simp [ht, Token.anchorName?]
  | firstFlowItem h => exact List.forall_mem_cons.mpr ⟨hfirst rfl _ rfl, h.not_anchor⟩
  | firstFlowPair h => exact List.forall_mem_cons.mpr ⟨hfirst rfl _ rfl, h.not_anchor⟩
  | flowItem ht h => exact List.forall_mem_cons.mpr ⟨by rw [ht]; rfl, h.not_anchor⟩
  | flowPair ht h => exact List.forall_mem_cons.mpr ⟨by rw [ht]; rfl, h.not_anchor⟩
  | documentEnd ht => simp [ht, Token.anchorName?]
  | noPair ht => exact List.forall_mem_cons.mpr ⟨hfirst rfl _ rfl, by simp [ht, Token.anchorName?]⟩
  | comma ht ht' => simp [ht, ht', Token.anchorName?]
  | _ => exact List.forall_mem_nil _

theorem Rule.anchorNames {rest : List Task} {left : List (Located Token)}
    (h : Rule task taken u act) (hready : Ready s.tasks s.tokens) (htasks : s.tasks = task :: rest)
    (htokens : s.tokens = taken ++ left) : Token.anchorNames taken = [] := by
  refine List.filterMap_eq_nil_iff.mpr (h.not_anchor fun htask t ht => ?_)
  refine Task.anchorName?_of_stepsOver (hready.top task (by rw [htasks]; rfl) t ?_) htask
  rw [htokens, List.head?_append, ht]
  rfl

/-- The number of an alias is the one that its name has at last. -/
theorem Opens.exists_name {n : Nat} {place : Span} (hnumbered : s.Numbered all)
    (h : Opens s.anchors s.anchorCount block indentless taken anchor u (.aliasTo n, place) tops) :
    n ≤ s.anchorCount ∧ ∃ t name, taken = [t] ∧ t.span = place ∧ t.item = .aliasTo name ∧
      Token.Names all n name := by
  cases h with
  | @reference t _ name _ ht hn =>
      obtain ⟨l, l', hl, -⟩ := List.lookup_eq_some_iff.mp hn
      obtain ⟨hname, hle⟩ := hnumbered.anchors name n (by rw [hl]; simp)
      exact ⟨hle, t, name, rfl, rfl, ht, hname⟩
  | collection _ _ hopening => cases hopening

/-- **What a step reads.** -/
theorem step_reads {rest : List Task} (hnumbered : s.Numbered all) (hready : Ready s.tasks s.tokens)
    (htasks : s.tasks = task :: rest) (h : step task s = .ok (y, s')) : Reads all s y s' := by
  cases step_does h with
  | yields rule takes tasks =>
      have hnames := rule.anchorNames hready htasks takes.tokens
      obtain ⟨hnumber, hreference⟩ : y.1.anchorNumber = 0 ∧ ∀ n, y.1 ≠ .aliasTo n := by
        rcases rule.isPlain with hplain | ⟨_, _, rfl, -⟩
        · refine ⟨Event.anchorNumber_of_isPlain hplain, fun n hn => ?_⟩
          rw [hn] at hplain
          cases hplain
        · exact ⟨rfl, nofun⟩
      refine ⟨takes.numbered hnames hnumbered, ?_, fun n hn => absurd hn (hreference n), _, tasks,
        rule.leaves _⟩
      rw [hnumber]
      exact takes.counts
  | @opens front props anchor _ _ _ _ _ _ rule node takes tasks =>
      have hfront := rule.anchorNames hready htasks (takes.tokens.trans (List.append_assoc _ _ _))
      have hnames : Token.anchorNames (front ++ props) = anchor.toList := by
        rw [Token.anchorNames, List.filterMap_append, ← Token.anchorNames, hfront, List.nil_append]
        exact node.anchorNames
      refine ⟨takes.numbered hnames hnumbered, ?_, fun n hn => ?_, _, tasks,
        node.leaves.append rule.isFree⟩
      · rw [node.anchorNumber]
        exact takes.counts
      · obtain ⟨e, place⟩ := y
        obtain rfl : e = .aliasTo n := hn
        obtain ⟨hle, t, name, rfl, hplace, ht, hname⟩ := node.exists_name hnumbered
        obtain ⟨behind, hall, -⟩ := hnumbered.taken
        refine ⟨hle, t, ?_, name, hplace, ht, hname⟩
        rw [hall, takes.tokens]
        simp

/-- What is left behind an event, with all tasks that there are. -/
theorem Reads.leaves_all (h : Reads all s y s') (hready : Ready s.tasks s.tokens) :
    Leaves y s'.tasks s'.tokens := by
  obtain ⟨tops, htasks, hleaves⟩ := h.leaves
  rw [htasks]
  exact hleaves.append hready.below

end Reads

/-! ## Collections that are closed at once -/

section Closing

variable {doc : Text} {s s' : EventReader} {y y' : Yield} {task : Task}

/-- The first step of a collection only ends it with the token behind the one it steps over. -/
theorem Rule.closer {taken : List (Located Token)} {u : Located Token} {tops : List Task}
    (h : Rule task taken u (.yield y tops)) (htask : task.isFree = false)
    (hcloses : y.1.closes = true) : ∃ x t, taken = [x, t] ∧ t.item.closes = true := by
  cases h with
  | firstItem h | firstKey h =>
      cases h with
      | close h ht =>
          refine ⟨_, _, rfl, ?_⟩
          rw [ht]
          cases h
          rfl
      | streamEnd h | document h => rcases h with h | h <;> cases h
      | _ => cases hcloses
  | firstFlowItem h =>
      cases h with
      | close ht => exact ⟨_, _, rfl, by rw [ht]; rfl⟩
      | pair => cases hcloses
  | firstFlowPair h =>
      cases h with
      | nothing | noKey => cases hcloses
  | noPair ht => exact ⟨_, _, rfl, by rw [ht]; rfl⟩
  | streamEnd h => rcases h with rfl | rfl <;> cases htask
  | close h => cases h <;> cases htask
  | indentlessEnd | flowItem | pairEnd | flowPair | comma => cases htask
  | _ => cases hcloses

/-- Neither a pair nor a sequence at its dash ends at once. -/
theorem Rule.goes_on {taken : List (Located Token)} {u : Located Token} {tops : List Task}
    (h : Rule task taken u (.yield y tops)) (hcloses : y.1.closes = true) :
    task ≠ .pairKey ∧ (task = .indentlessNext → taken = [] ∧ u.item ≠ .blockEntry) := by
  cases h with
  | indentlessEnd hu => exact ⟨nofun, fun _ => ⟨rfl, hu⟩⟩
  | close h => cases h <;> exact ⟨nofun, nofun⟩
  | firstItem | firstKey | firstFlowItem | flowItem | firstFlowPair | flowPair | pairEnd | noPair
  | comma => exact ⟨nofun, nofun⟩
  | _ => cases hcloses

/-- **Only bracketed collections are empty**: the step behind the start of a collection closes it
only if its bracket stands at its mark. -/
theorem bracketed_of_closes {rest : List Task} (hleaves : Leaves y s.tasks s.tokens)
    (hchain : s.tokens.IsChain (Located.Follows doc)) (htasks : s.tasks = task :: rest)
    (h : step task s = .ok (y', s')) (hopens : y.1.opens = true)
    (hcloses : y'.1.closes = true) : Event.Bracketed doc y := by
  cases step_does h with
  | opens _ node =>
      rw [Event.closes_of_starts (node.starts {})] at hcloses
      cases hcloses
  | yields rule takes =>
      -- a token that announces a collection is not followed by one that closes it
      have hfirst : ∀ {t : Located Token} {tokens : List (Located Token)}, s.tokens = t :: tokens →
          task.isFree = false → ¬ t.Announces doc := by
        intro t tokens htokens htask hannounces
        obtain ⟨x, c, rfl, hc⟩ := rule.closer htask hcloses
        have hsplit := takes.tokens
        rw [htokens] at hsplit
        obtain ⟨rfl, rfl⟩ := List.cons.inj hsplit
        rw [htokens] at hchain
        rw [(List.isChain_cons_cons.mp hchain).1 hannounces] at hc
        cases hc
      -- nothing is taken in front of the end of a sequence that goes by its dashes
      have hnot : ¬ (task = .pairKey ∨ task = .indentlessNext ∧
          (ahead s.tokens).item = .blockEntry) := by
        obtain ⟨hpair, hdash⟩ := rule.goes_on hcloses
        rintro (htask | ⟨htask, hahead⟩)
        · exact hpair htask
        · obtain ⟨rfl, hu⟩ := hdash htask
          rw [takes.tokens] at hahead
          exact hu hahead
      generalize htasks' : s.tasks = tasks, htokens : s.tokens = tokens at hleaves
      cases hleaves with
      | leaf hleaf => cases hleaf.symm.trans hopens
      | blockSequence ht | blockMapping ht =>
          cases htasks'.symm.trans htasks
          exact absurd (by rw [Located.Announces, ht]; trivial) (hfirst htokens rfl)
      | flowSequence ht | flowMapping ht =>
          cases htasks'.symm.trans htasks
          by_contra hbracket
          exact hfirst htokens rfl (by rw [Located.Announces, ht]; exact hbracket)
      | indentless ht =>
          cases htasks'.symm.trans htasks
          exact absurd (.inr ⟨rfl, by rw [htokens]; exact ht⟩) hnot
      | pair =>
          cases htasks'.symm.trans htasks
          exact absurd (.inl rfl) hnot

end Closing

/-! ## Runs -/

section Runs

variable {doc : Text} {all : List (Located Token)} {s s' : EventReader}

/-- What is known of the events that are read from a state on. -/
structure Yielded (doc : Text) (all : List (Located Token)) (s : EventReader)
    (yields : List Yield) : Prop where
  fills : yields.IsChain (Event.Fills doc)
  /-- The event in front of them is followed as well. -/
  first : ∀ y, Leaves y s.tasks s.tokens → ∀ y' ∈ yields.head?, Event.Fills doc y y'
  numbered : Event.anchorNumbers yields =
    List.range' (s.anchorCount + 1) (Event.anchorNumbers yields).length
  named : ∀ y ∈ yields, y.1.anchorNumber ≠ 0 → ∃ name, Token.Names all y.1.anchorNumber name
  references : ∀ y ∈ yields, ∀ n, y.1 = .aliasTo n →
    ∃ t ∈ all, ∃ name, t.span = y.2 ∧ t.item = .aliasTo name ∧ Token.Names all n name
  earlier : ∀ {front rest n span}, yields = front ++ (.aliasTo n, span) :: rest →
    n ≤ s.anchorCount + (Event.anchorNumbers front).length

theorem yielded_nil : Yielded doc all s [] :=
  ⟨.nil, nofun, rfl, nofun, nofun, fun h => by simp at h⟩

/-- A number that has been given is the number of a name. -/
theorem Numbered.names (h : s.Numbered all) {n : Nat} (hn : n ≠ 0) (hle : n ≤ s.anchorCount) :
    ∃ name, Token.Names all n name := by
  obtain ⟨⟨front, hall, hcount⟩, -⟩ := h
  have hlt : n - 1 < (Token.anchorNames all).length := by
    have : (Token.anchorNames all).length =
        (Token.anchorNames front).length + (Token.anchorNames s.tokens).length := by
      rw [hall, Token.anchorNames, List.filterMap_append, List.length_append]
      rfl
    omega
  exact ⟨(Token.anchorNames all)[n - 1], hn, List.getElem?_eq_getElem hlt⟩

/-- A step in front of a run. -/
theorem yielded_cons {task : Task} {rest : List Task} {y : Yield} {yields : List Yield}
    (hchain : all.IsChain (Located.Follows doc)) (hnumbered : s.Numbered all)
    (htasks : s.tasks = task :: rest)
    (hstep : step task s = .ok (y, s')) (hreads : Reads all s y s')
    (hleaves : Leaves y s'.tasks s'.tokens) (h : Yielded doc all s' yields) :
    Yielded doc all s (y :: yields) := by
  have htokens : s.tokens.IsChain (Located.Follows doc) := by
    obtain ⟨⟨front, hall, -⟩, -⟩ := hnumbered
    rw [hall] at hchain
    exact (List.isChain_append.mp hchain).2.1
  have hcount : s.anchorCount ≤ s'.anchorCount ∧ y.1.anchorNumber ≤ s'.anchorCount := by
    rcases hreads.counts with ⟨hzero, hsame⟩ | ⟨hnext, hsame⟩ <;> omega
  refine ⟨h.fills.cons (h.first y hleaves), ?_, ?_, ?_, ?_, ?_⟩
  · rintro z hz _ ⟨⟩ hopens hcloses
    exact bracketed_of_closes hz htokens htasks hstep hopens hcloses
  · -- the anchor of the first event, if there is one, has the next number
    rw [Event.anchorNumbers_cons]
    rcases hreads.counts with ⟨hzero, hsame⟩ | ⟨hnext, hsame⟩
    · rw [if_pos hzero, ← hsame]
      exact h.numbered
    · rw [if_neg (by omega), List.length_cons, List.range'_succ, ← hnext, ← hsame]
      exact congrArg _ h.numbered
  · intro z hz hnumber
    rcases List.mem_cons.mp hz with rfl | hz
    · exact hreads.numbered.names hnumber hcount.2
    · exact h.named z hz hnumber
  · intro z hz n hn
    rcases List.mem_cons.mp hz with rfl | hz
    · exact (hreads.reference n hn).2
    · exact h.references z hz n hn
  · intro front rest n span hsplit
    cases front with
    | nil =>
        obtain ⟨rfl, -⟩ := List.cons.inj hsplit
        exact (hreads.reference n rfl).1
    | cons z front =>
        obtain ⟨rfl, htail⟩ := List.cons.inj hsplit
        have hlater := h.earlier htail
        rw [Event.anchorNumbers_cons]
        rcases hreads.counts with ⟨hzero, hsame⟩ | ⟨hnext, hsame⟩
        · rw [if_pos hzero]
          omega
        · rw [if_neg (by omega), List.length_cons]
          omega

/-- **What a run reads.** -/
theorem Runs.yielded {fuel : Nat} {yields : List Yield} (h : Runs fuel s yields)
    (hchain : all.IsChain (Located.Follows doc)) (hnumbered : s.Numbered all)
    (hready : Ready s.tasks s.tokens) : Yielded doc all s yields := by
  induction h with
  | outOfFuel | done => exact yielded_nil
  | step htasks hstep _ ih =>
      have hreads := step_reads hnumbered hready htasks hstep
      have hleaves := hreads.leaves_all hready
      exact yielded_cons hchain hnumbered htasks hstep hreads hleaves
        (ih hreads.numbered hleaves.ready)

end Runs

end EventReader

/-- **The marks of the events of a text.** -/
structure Event.Marked (doc : Text) (events : List (Event × Span)) : Prop where
  /-- A collection that is closed at once has its bracket at its mark. -/
  fills : events.IsChain (Fills doc)
  /-- Anchors are numbered in the order of their nodes. -/
  numbered : anchorNumbers events = List.range' 1 (anchorNumbers events).length
  /-- The number of an anchor is that of a name that the text gives. -/
  named : ∀ y ∈ events, y.1.anchorNumber ≠ 0 →
    ∃ name, Token.Names (Token.scan doc).tokens y.1.anchorNumber name
  /-- An alias has the number of the name that it writes. -/
  references : ∀ y ∈ events, ∀ n, y.1 = .aliasTo n →
    ∃ name rest, Token.Names (Token.scan doc).tokens n name ∧
      doc.drop y.2.start.index = '*' :: rest ∧ rest.takeWhile Token.isAnchorChar = name
  /-- An alias comes behind the start of the node that has its number. -/
  earlier : ∀ {front rest n span}, events = front ++ (.aliasTo n, span) :: rest →
    n ≤ (anchorNumbers front).length

/-- Nothing has been numbered in front of all tokens, and the token that starts the stream is the
first one. -/
theorem EventReader.start_ready (doc : Text) :
    (start (Token.scan doc)).Numbered (Token.scan doc).tokens ∧
      Ready [.stream] (Token.scan doc).tokens := by
  obtain ⟨-, -, hfirst⟩ := Token.scan_ordered doc
  exact ⟨⟨⟨[], rfl, rfl⟩, fun _ _ hmem => by cases hmem⟩,
    fun _ htask => by cases htask; exact hfirst, by simp⟩

theorem Event.marked_of_ofDocument {doc : Text} {events : List (Event × Span)}
    (h : Event.ofDocument doc = .ok events) : Event.Marked doc events := by
  obtain ⟨hchain, hwritten, -⟩ := Token.scan_ordered doc
  obtain ⟨hnumbered, hready⟩ := EventReader.start_ready doc
  have hyields := (EventReader.runs_of_ofTokens h).yielded hchain hnumbered hready
  refine ⟨hyields.fills, hyields.numbered, hyields.named, fun y hy n hn => ?_, fun hsplit => ?_⟩
  · obtain ⟨t, ht, name, hspan, hitem, hnames⟩ := hyields.references y hy n hn
    have ht := hwritten t ht
    rw [Located.Written, hitem] at ht
    obtain ⟨-, rest, hrest, hname⟩ := ht
    exact ⟨name, rest, hnames, hspan ▸ hrest, hname⟩
  · have hle := hyields.earlier hsplit
    rwa [show (EventReader.start (Token.scan doc)).anchorCount = 0 from rfl, Nat.zero_add] at hle

end YamlEdit
