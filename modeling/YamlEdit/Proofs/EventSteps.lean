import YamlEdit.Event.OfTokens
import YamlEdit.Proofs.Inversion

/-!
# What a step of the event reader does

For each task there is a short list of what may come next and what the reader does then
(`EventReader.Rule`): it takes some tokens and yields an event, or it starts a node behind them. A
node has properties, and then comes what it is (`EventReader.Opens`). A step follows one of these
rules (`EventReader.step_does`), and a run is a list of steps (`EventReader.runs_of_run`), so what
steps or runs do is told by cases on rules, and the reader itself is taken apart nowhere else.
-/

namespace YamlEdit

/-- Whether a token may stand between two documents, apart from the mark that starts one. -/
def Token.isBetween : Token → Bool
  | .documentEnd | .streamEnd | .versionDirective _ _ | .tagDirective _ _ => true
  | _ => false

namespace EventReader

variable {s s₁ s' : EventReader} {task next : Task} {y : Yield}

/-! ## Looking ahead -/

/-- The token that comes next. Behind the last one the stream ends. -/
def ahead (tokens : List (Located Token)) : Located Token :=
  tokens.headD ⟨Span.empty Mark.origin, .streamEnd⟩

@[simp] theorem ahead_cons (t : Located Token) (tokens : List (Located Token)) :
    ahead (t :: tokens) = t := rfl

/-- A token other than the end of the stream is there to be taken. -/
theorem eq_ahead_cons {tokens : List (Located Token)} (h : (ahead tokens).item ≠ .streamEnd) :
    tokens = ahead tokens :: tokens.drop 1 := by
  cases tokens with
  | nil => exact absurd rfl h
  | cons t tokens => rfl

/-- The state after a token is taken. -/
def skipped (s : EventReader) : EventReader := { s with tokens := s.tokens.drop 1 }

/-- The state with other tasks in place of the one on top. -/
def turned (s : EventReader) (tops : List Task) : EventReader :=
  { s with tasks := tops ++ s.tasks.drop 1 }

section Inversion

variable {β : Type} {r : β × EventReader}

/-- A step that looks ahead goes on with what comes next. -/
theorem of_peek_bind {f : Located Token → Step β} (h : (peek >>= f) s = .ok r) :
    ∃ t, ahead s.tokens = t ∧ f t s = .ok r := by
  obtain ⟨t, s₁, hpeek, h⟩ := stateful_bind_eq_ok.mp h
  unfold peek at hpeek
  split at hpeek
  · next t rest htokens =>
      cases hpeek
      exact ⟨t, by rw [htokens, ahead_cons], h⟩
  · cases hpeek
  · next htokens _ =>
      cases hpeek
      exact ⟨_, by rw [htokens]; rfl, h⟩

theorem skip_bind (f : Unit → Step β) : (skip >>= f) s = f () s.skipped := rfl

theorem get_bind (f : EventReader → Step β) : ((get : Step EventReader) >>= f) s = f s s := rfl

theorem fuel_bind (f : Nat → Step β) : (fuel >>= f) s = f (s.tokens.length + 1) s := rfl

theorem modify_bind (g : EventReader → EventReader) (f : Unit → Step β) :
    ((modify g : Step Unit) >>= f) s = f () (g s) := rfl

theorem nodeThen_apply (task : Task) (block indentless : Bool) :
    nodeThen task block indentless s = node block indentless (s.turned [.blockNode, task]) := rfl

end Inversion

/-! ## Tokens that are taken -/

/-- The number of an anchor that comes behind `count` others; zero is none. -/
def numberBehind (count : Nat) : Option Text → Nat
  | none => 0
  | some _ => count + 1

/-- Tokens are taken. The anchor among them, if there is one, gets the next number. -/
structure Takes (s : EventReader) (taken : List (Located Token)) (anchor : Option Text)
    (s' : EventReader) : Prop where
  tokens : s.tokens = taken ++ s'.tokens
  anchors : s'.anchors = (anchor.map fun name => (name, s.anchorCount + 1)).toList ++ s.anchors
  count : s'.anchorCount = s.anchorCount + anchor.toList.length

namespace Takes

variable {taken taken' : List (Located Token)} {anchor : Option Text}

theorem refl (s : EventReader) : Takes s [] none s := ⟨rfl, rfl, rfl⟩

/-- The next token is taken, if that is not the end of the stream. -/
theorem skip {t : Located Token} (h : ahead s.tokens = t) (ht : t.item ≠ .streamEnd) :
    Takes s [t] none s.skipped := by
  subst h
  exact ⟨eq_ahead_cons ht, rfl, rfl⟩

theorem ne_nil {t : Located Token} (h : Takes s (t :: taken) anchor s') : s.tokens ≠ [] := by
  rw [h.tokens]
  exact List.cons_ne_nil _ _

theorem trans (h : Takes s taken none s₁) (h' : Takes s₁ taken' anchor s') :
    Takes s (taken ++ taken') anchor s' where
  tokens := by rw [h.tokens, h'.tokens, List.append_assoc]
  anchors := by
    rw [h'.anchors, h.anchors, h.count]
    rfl
  count := by
    rw [h'.count, h.count]
    rfl

end Takes

/-! ## Nodes -/

/-- The properties of a node, with its anchor if it has one. -/
inductive Properties : List (Located Token) → Option Text → Prop where
  | none : Properties [] none
  | anchor {t : Located Token} {name : Text} (ht : t.item = .anchor name) :
      Properties [t] (some name)
  | anchorTag {t t' : Located Token} {name handle rest : Text} (ht : t.item = .anchor name)
      (ht' : t'.item = .tag handle rest) : Properties [t, t'] (some name)
  | tag {t : Located Token} {handle rest : Text} (ht : t.item = .tag handle rest) :
      Properties [t] Option.none
  | tagAnchor {t t' : Located Token} {name handle rest : Text} (ht : t.item = .tag handle rest)
      (ht' : t'.item = .anchor name) : Properties [t, t'] (some name)

/-- The token that announces a collection, the event that starts it, and the first task of it. Not
all collections may stand everywhere. -/
inductive Opening (number : Nat) : (block indentless : Bool) → Token → Event → Task → Prop where
  | indentless {block : Bool} :
      Opening number block true .blockEntry (.sequenceStart number) .indentlessNext
  | flowSequence {block indentless : Bool} : Opening number block indentless .flowSequenceStart
      (.sequenceStart number) .flowSequenceFirst
  | flowMapping {block indentless : Bool} : Opening number block indentless .flowMappingStart
      (.mappingStart number) .flowMappingFirst
  | blockSequence {indentless : Bool} : Opening number true indentless .blockSequenceStart
      (.sequenceStart number) .blockSequenceFirst
  | blockMapping {indentless : Bool} : Opening number true indentless .blockMappingStart
      (.mappingStart number) .blockMappingFirst

/-- How a node starts, where `anchors` are known and `count` have been numbered: what is taken and
the anchor among it, what is next, the event and the tasks that complete the node. -/
inductive Opens (anchors : List (Text × Nat)) (count : Nat) (block indentless : Bool) :
    List (Located Token) → Option Text → Located Token → Yield → List Task → Prop where
  | reference {t u : Located Token} {name : Text} {n : Nat} (ht : t.item = .aliasTo name)
      (hn : anchors.lookup name = some n) :
      Opens anchors count block indentless [t] none u (.aliasTo n, t.span) []
  | scalar {props : List (Located Token)} {anchor : Option Text} {t u : Located Token}
      {style : ScalarStyle} {text : Text} (hprops : Properties props anchor)
      (ht : t.item = .scalar style text) :
      Opens anchors count block indentless (props ++ [t]) anchor u
        (.scalar text style (numberBehind count anchor), t.span) []
  | collection {props : List (Located Token)} {anchor : Option Text} {u : Located Token}
      {item : Token} {e : Event} {task : Task} (hprops : Properties props anchor)
      (hu : u.item = item) (h : Opening (numberBehind count anchor) block indentless item e task) :
      Opens anchors count block indentless props anchor u (e, u.span) [task]
  /-- Nothing behind the properties is part of the node. -/
  | bare {props : List (Located Token)} {anchor : Option Text} {u : Located Token}
      (hprops : Properties props anchor) (hne : props ≠ []) :
      Opens anchors count block indentless props anchor u
        (.scalar [] .plain (numberBehind count anchor), u.span) []

/-- No collection is announced by the end of the stream. -/
theorem Opening.ne_streamEnd {number : Nat} {block indentless : Bool} {item : Token} {e : Event}
    (h : Opening number block indentless item e task) : item ≠ .streamEnd := by
  rintro rfl
  cases h

theorem checkHandle_eq_ok {mark : Mark} {handle : Text} {a : Unit}
    (h : checkHandle mark handle s = .ok (a, s')) : s' = s := by
  unfold checkHandle at h
  rw [get_bind] at h
  split at h
  · cases h
  · cases h
    rfl

/-- A property is taken after another one, or alone. -/
theorem properties_cases {n : Nat} {marked : Bool} (h : properties s = .ok ((n, marked), s')) :
    ∃ props anchor, Properties props anchor ∧ n = numberBehind s.anchorCount anchor ∧
      (marked = true → props ≠ []) ∧ Takes s props anchor s' ∧ s'.tasks = s.tasks := by
  obtain ⟨⟨place, item⟩, ht, h⟩ := of_peek_bind h
  dsimp only at h
  split at h
  · have htake := Takes.skip ht nofun
    rw [skip_bind, stateful_bind_eq_ok] at h
    obtain ⟨k, s₁, hregister, h⟩ := h
    cases hregister
    obtain ⟨⟨_, tag⟩, ht', h⟩ := of_peek_bind h
    dsimp only at h
    split at h
    · rw [skip_bind, stateful_bind_eq_ok] at h
      obtain ⟨_, s₂, hcheck, h⟩ := h
      obtain rfl := checkHandle_eq_ok hcheck
      cases h
      exact ⟨_, _, .anchorTag rfl rfl, rfl, nofun,
        ⟨htake.tokens.trans (congrArg _ (Takes.skip ht' nofun).tokens), rfl, rfl⟩, rfl⟩
    · cases h
      exact ⟨_, _, .anchor rfl, rfl, nofun, ⟨htake.tokens, rfl, rfl⟩, rfl⟩
  · have htake := Takes.skip ht nofun
    rw [skip_bind, stateful_bind_eq_ok] at h
    obtain ⟨_, s₁, hcheck, h⟩ := h
    obtain rfl := checkHandle_eq_ok hcheck
    obtain ⟨⟨_, anchor⟩, ht', h⟩ := of_peek_bind h
    dsimp only at h
    split at h
    · rw [skip_bind, stateful_bind_eq_ok] at h
      obtain ⟨k, s₂, hregister, h⟩ := h
      cases hregister
      cases h
      exact ⟨_, _, .tagAnchor rfl rfl, rfl, nofun,
        ⟨htake.tokens.trans (congrArg _ (Takes.skip ht' nofun).tokens), rfl, rfl⟩, rfl⟩
    · cases h
      exact ⟨_, _, .tag rfl, rfl, nofun, htake, rfl⟩
  · cases h
    exact ⟨[], none, .none, rfl, nofun, .refl s, rfl⟩

/-- **How a node starts.** -/
theorem node_cases {block indentless : Bool} (h : node block indentless s = .ok (y, s')) :
    ∃ taken anchor tops,
      Opens s.anchors s.anchorCount block indentless taken anchor (ahead s'.tokens) y tops ∧
      Takes s taken anchor s' ∧ s'.tasks = tops ++ s.tasks.drop 1 := by
  obtain ⟨⟨place, item⟩, ht, h⟩ := of_peek_bind h
  dsimp only at h
  split at h
  · next name =>
      rw [skip_bind, get_bind] at h
      cases hlookup : s.skipped.anchors.lookup name with
      | none =>
          rw [hlookup] at h
          cases h
      | some n =>
          rw [hlookup] at h
          cases h
          have htake := Takes.skip ht nofun
          exact ⟨_, none, [], .reference rfl (t := ⟨place, _⟩) hlookup,
            ⟨htake.tokens, htake.anchors, htake.count⟩, rfl⟩
  · obtain ⟨⟨n, marked⟩, s₁, hproperties, h⟩ := stateful_bind_eq_ok.mp h
    obtain ⟨props, anchor, hprops, rfl, hmarked, htakes, htasks⟩ := properties_cases hproperties
    obtain ⟨⟨place, item⟩, hu, h⟩ := of_peek_bind h
    dsimp only at h
    -- the token that announces a collection is not taken yet
    have hopens : ∀ {e task},
        Opening (numberBehind s.anchorCount anchor) block indentless item e task →
        ∃ taken anchor tops, Opens s.anchors s.anchorCount block indentless taken anchor
            (ahead s₁.tokens) (e, place) tops ∧ Takes s taken anchor (s₁.turned [task]) ∧
          task :: s₁.tasks.drop 1 = tops ++ s.tasks.drop 1 := by
      intro e task hopening
      refine ⟨props, anchor, [task], ?_, ⟨htakes.tokens, htakes.anchors, htakes.count⟩, ?_⟩
      · rw [hu]
        exact .collection (u := ⟨place, item⟩) hprops rfl hopening
      · rw [htasks]
        rfl
    split at h
    · cases h
      exact hopens .indentless
    · cases h
      have hscalar := Takes.skip hu nofun
      refine ⟨_, anchor, [], .scalar (t := ⟨place, _⟩) hprops rfl, ⟨?_, htakes.anchors,
        htakes.count⟩, ?_⟩
      · rw [htakes.tokens, hscalar.tokens, List.append_assoc]
        rfl
      · rw [← htasks]
        rfl
    · cases h
      exact hopens .flowSequence
    · cases h
      exact hopens .flowMapping
    · cases h
      exact hopens .blockSequence
    · cases h
      exact hopens .blockMapping
    · split at h
      · next hm =>
          cases h
          refine ⟨props, anchor, [], ?_, ⟨htakes.tokens, htakes.anchors, htakes.count⟩, ?_⟩
          · show Opens _ _ _ _ _ _ (ahead s₁.tokens) _ _
            rw [hu]
            exact .bare (u := ⟨place, item⟩) hprops (hmarked hm)
          · rw [← htasks]
            rfl
      · cases h

/-- A node needs a token. -/
theorem tokens_ne_nil_of_node {block indentless : Bool}
    (h : node block indentless s = .ok (y, s')) : s.tokens ≠ [] := by
  obtain ⟨taken, anchor, tops, hopens, htakes, -⟩ := node_cases h
  rw [htakes.tokens]
  generalize hu : ahead s'.tokens = u at hopens
  cases hopens with
  | reference | scalar => simp
  | collection _ hitem hopening =>
      have hend : (ahead s'.tokens).item ≠ .streamEnd := by
        rw [hu, hitem]
        exact hopening.ne_streamEnd
      rw [eq_ahead_cons hend]
      simp
  | bare _ hne => exact fun hnil => hne (List.append_eq_nil_iff.mp hnil).1

theorem tokens_ne_nil_of_nodeThen {block indentless : Bool}
    (h : nodeThen next block indentless s = .ok (y, s')) : s.tokens ≠ [] := by
  rw [nodeThen_apply] at h
  exact tokens_ne_nil_of_node (s := s.turned [.blockNode, next]) h

/-! ## What a task may find -/

/-- What is done behind the tokens that are taken. -/
inductive Act where
  /-- An event is yielded, and then come the tasks. -/
  | yield (y : Yield) (tops : List Task)
  /-- A node starts, and then come the tasks. -/
  | node (block indentless : Bool) (tops : List Task)

/-- The tasks that come next. -/
def Act.tops : Act → List Task
  | .yield _ tops | .node _ _ tops => tops

/-- The task that looks for something behind an indicator: how the node there is read, which tokens
say that nothing is there, whether that is marked at these, and the task behind it. -/
inductive Indicates : Task → Token → (block indentless : Bool) → (stops : List Token) →
    (atStop : Bool) → Task → Prop where
  | item : Indicates .blockSequenceNext .blockEntry true false [.blockEntry, .blockEnd] false
      .blockSequenceNext
  | indentlessItem : Indicates .indentlessNext .blockEntry true false
      [.blockEntry, .key, .value, .blockEnd] false .indentlessNext
  | key : Indicates .blockMappingKey .key true true [.key, .value, .blockEnd] true
      .blockMappingValue
  | value : Indicates .blockMappingValue .value true true [.key, .value, .blockEnd] false
      .blockMappingKey
  | pairValue : Indicates .pairValue .value false false [.flowEntry, .flowSequenceEnd] true .pairEnd
  | flowValue : Indicates .flowMappingValue .value false false [.flowEntry, .flowMappingEnd] false
      .flowMappingKey

/-- The token that ends the collection of a task, and the event of that. -/
inductive Closes : Task → Token → Event → Prop where
  | items : Closes .blockSequenceNext .blockEnd .sequenceEnd
  | keys : Closes .blockMappingKey .blockEnd .mappingEnd
  | flowItems : Closes .flowSequenceNext .flowSequenceEnd .sequenceEnd
  | flowKeys : Closes .flowMappingKey .flowMappingEnd .mappingEnd

/-- What may stand behind the bracket or a comma of a flow sequence. A key starts a mapping of one
entry. -/
inductive FlowItem : List (Located Token) → Located Token → Act → Prop where
  | close {t u : Located Token} (ht : t.item = .flowSequenceEnd) :
      FlowItem [t] u (.yield (.sequenceEnd, t.span) [])
  | pair {t u : Located Token} (ht : t.item = .key) :
      FlowItem [t] u (.yield (.mappingStart 0, t.span) [.pairKey, .flowSequenceNext])
  | node {u : Located Token} : FlowItem [] u (.node false false [.flowSequenceNext])

/-- What may stand behind the bracket or a comma of a flow mapping, apart from its end. -/
inductive FlowPair : List (Located Token) → Located Token → Act → Prop where
  | key {t u : Located Token} (ht : t.item = .key)
      (hu : u.item ∉ [.value, .flowEntry, .flowMappingEnd]) :
      FlowPair [t] u (.node false false [.flowMappingValue])
  | nothing {t u : Located Token} (ht : t.item = .key)
      (hu : u.item ∈ [.value, .flowEntry, .flowMappingEnd]) :
      FlowPair [t] u (.yield (.missing, u.span) [.flowMappingValue])
  | noKey {u : Located Token} (hu : u.item = .value) :
      FlowPair [] u (.yield (.missing, u.span) [.flowMappingValue])
  | node {u : Located Token} : FlowPair [] u (.node false false [.flowMappingEmptyValue])

/-- **What a task may find**: the tokens that are taken, the one behind them, and what is done. The
first task of a collection steps over the token that announced it, and that of the stream over the
first token of all, whatever it is. -/
inductive Rule : Task → List (Located Token) → Located Token → Act → Prop where
  | streamStart {taken : List (Located Token)} {u : Located Token} {span : Span}
      (hone : taken.length ≤ 1) :
      Rule .stream taken u (.yield (.streamStart, span) [.implicitDocument])
  | streamEnd {task : Task} {taken : List (Located Token)} {u : Located Token} {span : Span}
      (htask : task = .implicitDocument ∨ task = .markedDocument)
      (htaken : ∀ x ∈ taken, x.item.isBetween = true) :
      Rule task taken u (.yield (.streamEnd, span) [])
  | document {task : Task} {front : List (Located Token)} {t u : Located Token}
      (htask : task = .implicitDocument ∨ task = .markedDocument)
      (hfront : ∀ x ∈ front, x.item.isBetween = true) (ht : t.item = .documentStart) :
      Rule task (front ++ [t]) u (.yield (.documentStart, t.span) [.documentContent, .documentEnd])
  | implicitDocument {taken : List (Located Token)} {u : Located Token}
      (htaken : ∀ x ∈ taken, x.item.isBetween = true) :
      Rule .implicitDocument taken u (.yield (.documentStart, u.span) [.blockNode, .documentEnd])
  | noContent {u : Located Token} : Rule .documentContent [] u (.yield (.missing, u.span) [])
  | content {u : Located Token} : Rule .documentContent [] u (.node true false [])
  | blockNode {u : Located Token} : Rule .blockNode [] u (.node true false [])
  | documentEnd {t u : Located Token} (ht : t.item = .documentEnd) :
      Rule .documentEnd [t] u (.yield (.documentEnd, t.span) [.implicitDocument])
  | openEnd {u : Located Token} :
      Rule .documentEnd [] u (.yield (.documentEnd, u.span) [.markedDocument])
  | firstItem {x u : Located Token} {taken : List (Located Token)} {act : Act}
      (h : Rule .blockSequenceNext taken u act) : Rule .blockSequenceFirst (x :: taken) u act
  | firstKey {x u : Located Token} {taken : List (Located Token)} {act : Act}
      (h : Rule .blockMappingKey taken u act) : Rule .blockMappingFirst (x :: taken) u act
  | behind {task next : Task} {indicator : Token} {block indentless atStop : Bool}
      {stops : List Token} {t u : Located Token}
      (h : Indicates task indicator block indentless stops atStop next) (ht : t.item = indicator)
      (hu : u.item ∉ stops) : Rule task [t] u (.node block indentless [next])
  | nothing {task next : Task} {indicator : Token} {block indentless atStop : Bool}
      {stops : List Token} {t u : Located Token}
      (h : Indicates task indicator block indentless stops atStop next) (ht : t.item = indicator)
      (hu : u.item ∈ stops) :
      Rule task [t] u (.yield (.missing, if atStop then u.span else t.span) [next])
  | noKey {u : Located Token} (hu : u.item = .value) :
      Rule .blockMappingKey [] u (.yield (.missing, u.span) [.blockMappingValue])
  | noValue {task next : Task} {block indentless atStop : Bool} {stops : List Token}
      {u : Located Token} (h : Indicates task .value block indentless stops atStop next)
      (hu : u.item ≠ .value) : Rule task [] u (.yield (.missing, u.span) [next])
  | emptyValue {u : Located Token} :
      Rule .flowMappingEmptyValue [] u (.yield (.missing, u.span) [.flowMappingKey])
  | close {task : Task} {closer : Token} {e : Event} {t u : Located Token}
      (h : Closes task closer e) (ht : t.item = closer) : Rule task [t] u (.yield (e, t.span) [])
  | indentlessEnd {u : Located Token} (hu : u.item ≠ .blockEntry) :
      Rule .indentlessNext [] u (.yield (.sequenceEnd, u.span) [])
  | firstFlowItem {x u : Located Token} {taken : List (Located Token)} {act : Act}
      (h : FlowItem taken u act) : Rule .flowSequenceFirst (x :: taken) u act
  | flowItem {t u : Located Token} {taken : List (Located Token)} {act : Act}
      (ht : t.item = .flowEntry) (h : FlowItem taken u act) :
      Rule .flowSequenceNext (t :: taken) u act
  | pairKey {u : Located Token} : Rule .pairKey [] u (.node false false [.pairValue])
  | noPairKey {t u : Located Token} (ht : t.item ∈ [.value, .flowEntry, .flowSequenceEnd]) :
      Rule .pairKey [t] u (.yield (.missing, t.span) [.pairValue])
  | pairEnd {u : Located Token} : Rule .pairEnd [] u (.yield (.mappingEnd, u.span) [])
  | firstFlowPair {x u : Located Token} {taken : List (Located Token)} {act : Act}
      (h : FlowPair taken u act) : Rule .flowMappingFirst (x :: taken) u act
  | flowPair {t u : Located Token} {taken : List (Located Token)} {act : Act}
      (ht : t.item = .flowEntry) (h : FlowPair taken u act) :
      Rule .flowMappingKey (t :: taken) u act
  | noPair {x t u : Located Token} (ht : t.item = .flowMappingEnd) :
      Rule .flowMappingFirst [x, t] u (.yield (.mappingEnd, t.span) [])
  | comma {t t' u : Located Token} (ht : t.item = .flowEntry) (ht' : t'.item = .flowMappingEnd) :
      Rule .flowMappingKey [t, t'] u (.yield (.mappingEnd, t.span) [])

/-! ## Steps follow the rules -/

/-- What a part of the reader does that follows the rules `R`. -/
inductive Does (R : List (Located Token) → Located Token → Act → Prop) (s : EventReader) :
    Yield → EventReader → Prop where
  | yields {taken : List (Located Token)} {y : Yield} {tops : List Task} {s' : EventReader}
      (rule : R taken (ahead s'.tokens) (.yield y tops)) (takes : Takes s taken none s')
      (tasks : s'.tasks = tops ++ s.tasks.drop 1) : Does R s y s'
  | opens {front props : List (Located Token)} {anchor : Option Text} {block indentless : Bool}
      {y : Yield} {tops nexts : List Task} {s' : EventReader}
      (rule : R front (ahead (props ++ s'.tokens)) (.node block indentless nexts))
      (node : Opens s.anchors s.anchorCount block indentless props anchor (ahead s'.tokens) y tops)
      (takes : Takes s (front ++ props) anchor s')
      (tasks : s'.tasks = tops ++ nexts ++ s.tasks.drop 1) : Does R s y s'

section Does

variable {R R' : List (Located Token) → Located Token → Act → Prop}
  {taken : List (Located Token)} {t : Located Token} {span : Span} {block indentless : Bool}

/-- A part that goes on behind tokens which have been taken. -/
theorem Does.behind (h : Does R s₁ y s') (htakes : Takes s taken none s₁)
    (htasks : s₁.tasks = s.tasks)
    (hrule : ∀ {taken' u act}, R taken' u act → R' (taken ++ taken') u act) : Does R' s y s' := by
  have hcount : s₁.anchorCount = s.anchorCount := htakes.count
  have hanchors : s₁.anchors = s.anchors := htakes.anchors
  cases h with
  | yields rule takes tasks => exact .yields (hrule rule) (htakes.trans takes) (htasks ▸ tasks)
  | opens rule node takes tasks =>
      rw [hcount, hanchors] at node
      have htaken := htakes.trans takes
      rw [← List.append_assoc] at htaken
      exact .opens (hrule rule) node htaken (htasks ▸ tasks)

/-- An event for which no token is taken. -/
theorem Does.standing (tops : List Task) (hrule : R [] (ahead s.tokens) (.yield y tops)) :
    Does R s y (s.turned tops) :=
  .yields hrule ⟨rfl, rfl, rfl⟩ rfl

/-- An event of the next token. -/
theorem Does.taking (ht : ahead s.tokens = t) (hitem : t.item ≠ .streamEnd) (tops : List Task)
    (hrule : R [t] (ahead s.skipped.tokens) (.yield y tops)) :
    Does R s y (s.skipped.turned tops) :=
  .yields hrule ⟨(Takes.skip ht hitem).tokens, rfl, rfl⟩ rfl

/-- A missing value in front of `next`. -/
theorem Does.missing (htakes : Takes s taken none s₁) (htasks : s₁.tasks = s.tasks)
    (hrule : R taken (ahead s₁.tokens) (.yield (.missing, span) [next])) :
    Does R s (.missing, span) (s₁.turned [next]) :=
  .yields hrule ⟨htakes.tokens, htakes.anchors, htakes.count⟩ (by rw [← htasks]; rfl)

/-- A node in place of the task on top. -/
theorem Does.of_node (h : node block indentless s = .ok (y, s'))
    (hrule : R [] (ahead s.tokens) (.node block indentless [])) : Does R s y s' := by
  obtain ⟨props, anchor, tops, hopens, hprops, htasks⟩ := node_cases h
  rw [hprops.tokens] at hrule
  exact .opens hrule hopens hprops (by rw [htasks, List.append_nil])

/-- A node in front of `next`. -/
theorem Does.of_nodeThen (h : nodeThen next block indentless s₁ = .ok (y, s'))
    (htakes : Takes s taken none s₁) (htasks : s₁.tasks = s.tasks)
    (hrule : R taken (ahead s₁.tokens) (.node block indentless [next])) : Does R s y s' := by
  rw [nodeThen_apply] at h
  obtain ⟨props, anchor, tops, hopens, hprops, htops⟩ := node_cases h
  have hprops' : Takes s₁ props anchor s' := ⟨hprops.tokens, hprops.anchors, hprops.count⟩
  have hanchors : (s₁.turned [.blockNode, next]).anchors = s.anchors := htakes.anchors
  have hcount : (s₁.turned [.blockNode, next]).anchorCount = s.anchorCount := htakes.count
  rw [hanchors, hcount] at hopens
  rw [hprops'.tokens] at hrule
  exact .opens hrule hopens (htakes.trans hprops') (by rw [htops, ← htasks]; simp [turned])

end Does

/-! ### Documents -/

section Documents

theorem directives_takes {fuel : Nat} {versioned : Bool} {a : Unit}
    (h : directives fuel versioned s = .ok (a, s')) :
    ∃ taken, Takes s taken none s' ∧ s'.tasks = s.tasks ∧ ∀ x ∈ taken, x.item.isBetween = true := by
  induction fuel generalizing versioned s with
  | zero =>
      cases h
      exact ⟨[], .refl _, rfl, List.forall_mem_nil _⟩
  | succ fuel ih =>
      obtain ⟨⟨place, item⟩, ht, h⟩ := of_peek_bind h
      -- the handles of tags are not what a directive is taken for
      have hskip : ∀ {handles : List Text}, item ≠ .streamEnd → item.isBetween = true →
          (∃ taken, Takes { s with handles := handles }.skipped taken none s' ∧
            s'.tasks = s.tasks ∧ ∀ x ∈ taken, x.item.isBetween = true) →
          ∃ taken, Takes s taken none s' ∧ s'.tasks = s.tasks ∧
            ∀ x ∈ taken, x.item.isBetween = true := by
        rintro handles hitem hbetween ⟨taken, htakes, htasks, htaken⟩
        exact ⟨⟨place, item⟩ :: taken, (Takes.skip ht hitem).trans ⟨htakes.tokens, htakes.anchors,
          htakes.count⟩, htasks, List.forall_mem_cons.mpr ⟨hbetween, htaken⟩⟩
      dsimp only at h
      split at h
      · split at h
        · cases h
        · exact hskip nofun rfl (ih h)
      · exact hskip nofun rfl (ih h)
      · cases h
        exact ⟨[], .refl _, rfl, List.forall_mem_nil _⟩

theorem skipDocumentEnds_takes {fuel : Nat} {a : Unit}
    (h : skipDocumentEnds fuel s = .ok (a, s')) :
    ∃ taken, Takes s taken none s' ∧ s'.tasks = s.tasks ∧ ∀ x ∈ taken, x.item.isBetween = true := by
  induction fuel generalizing s with
  | zero =>
      cases h
      exact ⟨[], .refl _, rfl, List.forall_mem_nil _⟩
  | succ fuel ih =>
      obtain ⟨t, ht, h⟩ := of_peek_bind h
      split at h
      · next hitem =>
          obtain ⟨taken, htakes, htasks, htaken⟩ := ih h
          exact ⟨t :: taken, (Takes.skip ht (by rw [hitem]; nofun)).trans htakes, htasks,
            List.forall_mem_cons.mpr ⟨by rw [hitem]; rfl, htaken⟩⟩
      · cases h
        exact ⟨[], .refl _, rfl, List.forall_mem_nil _⟩

theorem streamStart_does (h : streamStart s = .ok (y, s')) : Does (Rule .stream) s y s' := by
  obtain ⟨t, -, h⟩ := of_peek_bind h
  cases h
  have hrule : Rule .stream (s.tokens.take 1) (ahead s.skipped.tokens)
      (.yield (.streamStart, t.span) [.implicitDocument]) := .streamStart (List.length_take_le 1 _)
  exact .yields hrule ⟨(List.take_append_drop 1 s.tokens).symm, rfl, rfl⟩ rfl

variable {ends : List (Located Token)}

theorem markedDocument_does (htask : task = .implicitDocument ∨ task = .markedDocument)
    (htakes : Takes s ends none s₁) (htasks : s₁.tasks = s.tasks)
    (hends : ∀ x ∈ ends, x.item.isBetween = true) (h : markedDocument s₁ = .ok (y, s')) :
    Does (Rule task) s y s' := by
  unfold markedDocument at h
  rw [fuel_bind, stateful_bind_eq_ok] at h
  obtain ⟨_, s₂, hdirectives, h⟩ := h
  obtain ⟨front, htakes', htasks', hfront⟩ := directives_takes hdirectives
  obtain ⟨t, ht, h⟩ := of_peek_bind h
  split at h
  · next hitem =>
      cases h
      have htaken := (htakes.trans htakes').trans (Takes.skip ht (by rw [hitem]; nofun))
      refine .yields (.document htask ?_ hitem) ⟨htaken.tokens, htaken.anchors, htaken.count⟩ ?_
      · exact fun x hx => (List.mem_append.mp hx).elim (hends x) (hfront x)
      · rw [← htasks, ← htasks']
        rfl
  · cases h

theorem document_does (implicit : Bool) (htask : task = .implicitDocument ∨ task = .markedDocument)
    (himplicit : implicit = true → task = .implicitDocument)
    (h : document implicit s = .ok (y, s')) : Does (Rule task) s y s' := by
  unfold document at h
  rw [fuel_bind, stateful_bind_eq_ok] at h
  obtain ⟨_, s₁, hskip, h⟩ := h
  obtain ⟨ends, htakes, htasks, hends⟩ := skipDocumentEnds_takes hskip
  have hmarked : markedDocument s₁ = .ok (y, s') → Does (Rule task) s y s' :=
    markedDocument_does htask htakes htasks hends
  obtain ⟨⟨place, item⟩, ht, h⟩ := of_peek_bind h
  dsimp only at h
  split at h
  · -- the stream ends, with a token or without one
    cases h
    have hlast : ∀ x ∈ s₁.tokens.take 1, x.item.isBetween = true := by
      intro x hx
      cases htokens : s₁.tokens with
      | nil =>
          rw [htokens] at hx
          cases hx
      | cons t tokens =>
          rw [htokens, List.take_succ_cons, List.take_zero, List.mem_singleton] at hx
          rw [htokens, ahead_cons] at ht
          rw [hx, ht]
          rfl
    have hrule : Rule task (ends ++ s₁.tokens.take 1) (ahead s₁.skipped.tokens)
        (.yield (.streamEnd, place) []) :=
      .streamEnd htask fun x hx => (List.mem_append.mp hx).elim (hends x) (hlast x)
    refine .yields hrule ⟨?_, htakes.anchors, htakes.count⟩ (by rw [← htasks]; rfl)
    rw [htakes.tokens, List.append_assoc]
    exact congrArg _ (List.take_append_drop 1 s₁.tokens).symm
  · exact hmarked h
  · exact hmarked h
  · exact hmarked h
  · split at h
    · -- what comes next is no directive, so there is none
      next hversion htag _ hyes =>
        rw [fuel_bind, stateful_bind_eq_ok] at h
        obtain ⟨_, s₂, hdirectives, h⟩ := h
        cases h
        have hnone : s₂ = s₁ := by
          obtain ⟨_, ht', hdirectives⟩ := of_peek_bind hdirectives
          cases ht.symm.trans ht'
          dsimp only at hdirectives
          split at hdirectives
          · exact absurd rfl (hversion _ _)
          · exact absurd rfl (htag _ _)
          · cases hdirectives
            rfl
        subst hnone
        have hrule : Rule task ends (ahead s₂.tokens)
            (.yield (.documentStart, place) [.blockNode, .documentEnd]) := by
          rw [ht, himplicit hyes]
          exact .implicitDocument (u := ⟨place, item⟩) hends
        exact .yields hrule ⟨htakes.tokens, htakes.anchors, htakes.count⟩ (by rw [← htasks]; rfl)
    · exact hmarked h

theorem documentContent_does (h : documentContent s = .ok (y, s')) :
    Does (Rule .documentContent) s y s' := by
  obtain ⟨⟨place, item⟩, ht, h⟩ := of_peek_bind h
  have hnothing : Does (Rule .documentContent) s (.missing, place) (s.turned []) :=
    .standing [] (by rw [ht]; exact .noContent (u := ⟨place, item⟩))
  dsimp only at h
  split at h
  iterate 5
    cases h
    exact hnothing
  exact .of_node h .content

theorem documentEnd_does (h : documentEnd s = .ok (y, s')) : Does (Rule .documentEnd) s y s' := by
  obtain ⟨⟨place, item⟩, ht, h⟩ := of_peek_bind h
  rw [modify_bind] at h
  dsimp only at h
  split at h
  · cases h
    have htake := Takes.skip ht nofun
    exact .yields (.documentEnd (t := ⟨place, _⟩) rfl) ⟨htake.tokens, rfl, rfl⟩ rfl
  · cases h
  · cases h
  · cases h
    have hrule : Rule .documentEnd [] (ahead s.tokens)
        (.yield (.documentEnd, place) [.markedDocument]) := by
      rw [ht]
      exact .openEnd (u := ⟨place, item⟩)
    exact .yields hrule ⟨rfl, rfl, rfl⟩ rfl

end Documents

/-! ### Block collections -/

section Block

theorem blockSequence_does (h : blockSequence false s = .ok (y, s')) :
    Does (Rule .blockSequenceNext) s y s' ∧ s.tokens ≠ [] := by
  change (peek >>= _) s = _ at h
  obtain ⟨⟨place, item⟩, ht, h⟩ := of_peek_bind h
  dsimp only at h
  split at h
  · cases h
    exact ⟨.taking ht nofun [] (.close .items rfl), (Takes.skip ht nofun).ne_nil⟩
  · have htake := Takes.skip ht nofun
    refine ⟨?_, htake.ne_nil⟩
    rw [skip_bind] at h
    obtain ⟨⟨_, item⟩, hu, h⟩ := of_peek_bind h
    dsimp only at h
    split at h
    iterate 2
      cases h
      exact .missing htake rfl (.nothing .item rfl (by rw [hu]; simp))
    exact .of_nodeThen h htake rfl (.behind .item rfl (by rw [hu]; simp_all))
  · cases h

theorem indentlessSequence_does (h : indentlessSequence s = .ok (y, s')) :
    Does (Rule .indentlessNext) s y s' := by
  obtain ⟨⟨place, item⟩, ht, h⟩ := of_peek_bind h
  dsimp only at h
  split at h
  · have htake := Takes.skip ht nofun
    rw [skip_bind] at h
    obtain ⟨⟨_, item⟩, hu, h⟩ := of_peek_bind h
    dsimp only at h
    split at h
    iterate 4
      cases h
      exact .missing htake rfl (.nothing .indentlessItem rfl (by rw [hu]; simp))
    exact .of_nodeThen h htake rfl (.behind .indentlessItem rfl (by rw [hu]; simp_all))
  · next hitem =>
      cases h
      have hrule : Rule .indentlessNext [] ⟨place, item⟩ (.yield (.sequenceEnd, place) []) :=
        .indentlessEnd hitem
      exact .standing [] (ht ▸ hrule)

theorem blockMappingKey_does (h : blockMappingKey false s = .ok (y, s')) :
    Does (Rule .blockMappingKey) s y s' ∧ s.tokens ≠ [] := by
  change (peek >>= _) s = _ at h
  obtain ⟨⟨place, item⟩, ht, h⟩ := of_peek_bind h
  dsimp only at h
  split at h
  · have htake := Takes.skip ht nofun
    refine ⟨?_, htake.ne_nil⟩
    rw [skip_bind] at h
    obtain ⟨⟨next, item⟩, hu, h⟩ := of_peek_bind h
    dsimp only at h
    split at h
    iterate 3
      cases h
      exact .missing htake rfl (hu ▸ .nothing (u := ⟨next, _⟩) .key rfl (by simp))
    exact .of_nodeThen h htake rfl (.behind .key rfl (by rw [hu]; simp_all))
  · cases h
    have hrule : Rule .blockMappingKey [] ⟨place, .value⟩
        (.yield (.missing, place) [.blockMappingValue]) := .noKey rfl
    exact ⟨.standing [.blockMappingValue] (ht ▸ hrule), (Takes.skip ht nofun).ne_nil⟩
  · cases h
    exact ⟨.taking ht nofun [] (.close .keys rfl), (Takes.skip ht nofun).ne_nil⟩
  · cases h

theorem blockMappingValue_does (h : blockMappingValue s = .ok (y, s')) :
    Does (Rule .blockMappingValue) s y s' := by
  obtain ⟨⟨place, item⟩, ht, h⟩ := of_peek_bind h
  dsimp only at h
  split at h
  · have htake := Takes.skip ht nofun
    rw [skip_bind] at h
    obtain ⟨⟨_, item⟩, hu, h⟩ := of_peek_bind h
    dsimp only at h
    split at h
    iterate 3
      cases h
      exact .missing htake rfl (.nothing .value rfl (by rw [hu]; simp))
    exact .of_nodeThen h htake rfl (.behind .value rfl (by rw [hu]; simp_all))
  · next hitem =>
      cases h
      have hrule : Rule .blockMappingValue [] ⟨place, item⟩
          (.yield (.missing, place) [.blockMappingKey]) := .noValue .value hitem
      exact .standing [.blockMappingKey] (ht ▸ hrule)

end Block

/-! ### Flow collections -/

section Flow

theorem flowItem_does (h : flowItem s = .ok (y, s')) : Does FlowItem s y s' ∧ s.tokens ≠ [] := by
  obtain ⟨⟨place, item⟩, ht, h⟩ := of_peek_bind h
  dsimp only at h
  split at h
  · cases h
    exact ⟨.taking ht nofun [] (.close rfl), (Takes.skip ht nofun).ne_nil⟩
  · cases h
    exact ⟨.taking ht nofun [.pairKey, .flowSequenceNext] (.pair rfl), (Takes.skip ht nofun).ne_nil⟩
  · exact ⟨.of_nodeThen h (.refl s) rfl .node, tokens_ne_nil_of_nodeThen h⟩

theorem flowSequenceNext_does (h : flowSequence false s = .ok (y, s')) :
    Does (Rule .flowSequenceNext) s y s' := by
  change (peek >>= _) s = _ at h
  obtain ⟨t, ht, h⟩ := of_peek_bind h
  split at h
  · next hitem =>
      cases h
      exact .taking ht (by rw [hitem]; nofun) [] (.close .flowItems hitem)
  · change (if t.item = .flowEntry then _ else _ : Step Yield) s = _ at h
    split at h
    · next hitem =>
        exact (flowItem_does h).1.behind (.skip ht (by rw [hitem]; nofun)) rfl (.flowItem hitem)
    · cases h

/-- The task that steps over the bracket of a flow sequence finds what stands behind it. -/
theorem flowSequenceFirst_does (h : flowSequence true s = .ok (y, s')) :
    Does FlowItem s.skipped y s' ∧ s.skipped.tokens ≠ [] := by
  unfold flowSequence at h
  rw [if_pos rfl, skip_bind] at h
  obtain ⟨t, ht, h⟩ := of_peek_bind h
  split at h
  · next hitem =>
      cases h
      have hend : t.item ≠ .streamEnd := by
        rw [hitem]
        nofun
      exact ⟨.taking ht hend [] (.close hitem), (Takes.skip ht hend).ne_nil⟩
  · exact flowItem_does h

theorem pairKey_does (h : pairKey s = .ok (y, s')) : Does (Rule .pairKey) s y s' := by
  obtain ⟨⟨place, item⟩, ht, h⟩ := of_peek_bind h
  dsimp only at h
  split at h
  iterate 3
    cases h
    exact .missing (.skip ht nofun) rfl (.noPairKey (t := ⟨place, _⟩) (by simp))
  exact .of_nodeThen h (.refl s) rfl .pairKey

theorem pairValue_does (h : pairValue s = .ok (y, s')) : Does (Rule .pairValue) s y s' := by
  obtain ⟨⟨place, item⟩, ht, h⟩ := of_peek_bind h
  dsimp only at h
  split at h
  · have htake := Takes.skip ht nofun
    rw [skip_bind] at h
    obtain ⟨⟨next, item⟩, hu, h⟩ := of_peek_bind h
    dsimp only at h
    split at h
    iterate 2
      cases h
      exact .missing htake rfl (hu ▸ .nothing (u := ⟨next, _⟩) .pairValue rfl (by simp))
    exact .of_nodeThen h htake rfl (.behind .pairValue rfl (by rw [hu]; simp_all))
  · next hitem =>
      cases h
      have hrule : Rule .pairValue [] ⟨place, item⟩ (.yield (.missing, place) [.pairEnd]) :=
        .noValue .pairValue hitem
      exact .standing [.pairEnd] (ht ▸ hrule)

theorem pairEnd_does (h : pairEnd s = .ok (y, s')) : Does (Rule .pairEnd) s y s' := by
  obtain ⟨t, ht, h⟩ := of_peek_bind h
  cases h
  have hrule : Rule .pairEnd [] t (.yield (.mappingEnd, t.span) []) := .pairEnd
  exact .standing [] (ht ▸ hrule)

theorem flowPair_does {comma : Span} (h : flowPair comma s = .ok (y, s')) :
    (Does FlowPair s y s' ∨ ∃ place, ahead s.tokens = ⟨place, .flowMappingEnd⟩ ∧
      y = (.mappingEnd, comma) ∧ s' = s.skipped.turned []) ∧ s.tokens ≠ [] := by
  obtain ⟨⟨place, item⟩, ht, h⟩ := of_peek_bind h
  dsimp only at h
  split at h
  · have htake := Takes.skip ht nofun
    refine ⟨.inl ?_, htake.ne_nil⟩
    rw [skip_bind] at h
    obtain ⟨⟨next, item⟩, hu, h⟩ := of_peek_bind h
    dsimp only at h
    split at h
    iterate 3
      cases h
      exact .missing htake rfl (hu ▸ .nothing (u := ⟨next, _⟩) rfl (by simp))
    exact .of_nodeThen h htake rfl (.key rfl (by rw [hu]; simp_all))
  · cases h
    have hrule : FlowPair [] ⟨place, .value⟩ (.yield (.missing, place) [.flowMappingValue]) :=
      .noKey rfl
    exact ⟨.inl (.standing [.flowMappingValue] (ht ▸ hrule)), (Takes.skip ht nofun).ne_nil⟩
  · cases h
    exact ⟨.inr ⟨place, ht, rfl, rfl⟩, (Takes.skip ht nofun).ne_nil⟩
  · exact ⟨.inl (.of_nodeThen h (.refl s) rfl .node), tokens_ne_nil_of_nodeThen h⟩

theorem flowMappingNext_does (h : flowMappingKey false s = .ok (y, s')) :
    Does (Rule .flowMappingKey) s y s' := by
  change (peek >>= _) s = _ at h
  obtain ⟨t, ht, h⟩ := of_peek_bind h
  split at h
  · next hitem =>
      cases h
      exact .taking ht (by rw [hitem]; nofun) [] (.close .flowKeys hitem)
  · change (if t.item = .flowEntry then _ else _ : Step Yield) s = _ at h
    split at h
    · next hitem =>
        have htake := Takes.skip ht (by rw [hitem]; nofun)
        rcases (flowPair_does (s := s.skipped) h).1 with h | ⟨place, hu, rfl, rfl⟩
        · exact h.behind htake rfl (.flowPair hitem)
        · -- the mapping ends behind a comma
          have htaken := htake.trans (Takes.skip hu nofun)
          exact .yields (.comma hitem rfl) ⟨htaken.tokens, htaken.anchors, htaken.count⟩ rfl
    · cases h

theorem flowMappingFirst_does (h : flowMappingKey true s = .ok (y, s')) :
    Does (fun taken u act => ∀ x, Rule .flowMappingFirst (x :: taken) u act) s.skipped y s' ∧
      s.skipped.tokens ≠ [] := by
  unfold flowMappingKey at h
  rw [if_pos rfl, skip_bind] at h
  obtain ⟨t, ht, h⟩ := of_peek_bind h
  split at h
  · next hitem =>
      cases h
      have hend : t.item ≠ .streamEnd := by
        rw [hitem]
        nofun
      exact ⟨.taking ht hend [] fun x => .noPair hitem, (Takes.skip ht hend).ne_nil⟩
  · next hitem =>
      obtain ⟨hpair, hne⟩ := flowPair_does h
      rcases hpair with h | ⟨place, hu, -, -⟩
      · exact ⟨h.behind (.refl _) rfl fun rule x => .firstFlowPair rule, hne⟩
      · rw [ht] at hu
        exact absurd (by rw [hu]) hitem

theorem flowMappingValue_does (h : flowMappingValue false s = .ok (y, s')) :
    Does (Rule .flowMappingValue) s y s' := by
  obtain ⟨t, ht, h⟩ := of_peek_bind h
  rw [if_neg Bool.false_ne_true] at h
  split at h
  · next hitem =>
      have htake := Takes.skip ht (by rw [hitem]; nofun)
      rw [skip_bind] at h
      obtain ⟨⟨_, item⟩, hu, h⟩ := of_peek_bind h
      dsimp only at h
      split at h
      iterate 2
        cases h
        exact .missing htake rfl (.nothing .flowValue hitem (by rw [hu]; simp))
      exact .of_nodeThen h htake rfl (.behind .flowValue hitem (by rw [hu]; simp_all))
  · next hitem =>
      cases h
      have hrule : Rule .flowMappingValue [] t (.yield (.missing, t.span) [.flowMappingKey]) :=
        .noValue .flowValue hitem
      exact .standing [.flowMappingKey] (ht ▸ hrule)

theorem flowMappingEmptyValue_does (h : flowMappingValue true s = .ok (y, s')) :
    Does (Rule .flowMappingEmptyValue) s y s' := by
  obtain ⟨t, ht, h⟩ := of_peek_bind h
  rw [if_pos rfl] at h
  cases h
  have hrule : Rule .flowMappingEmptyValue [] t (.yield (.missing, t.span) [.flowMappingKey]) :=
    .emptyValue
  exact .standing [.flowMappingKey] (ht ▸ hrule)

end Flow

/-! ### All tasks -/

/-- What stands behind the token that the first task of a collection steps over. -/
theorem Does.first {R : List (Located Token) → Located Token → Act → Prop}
    (h : Does R s.skipped y s') (hne : s.skipped.tokens ≠ [])
    (hrule : ∀ {x taken u act}, R taken u act → Rule task (x :: taken) u act) :
    Does (Rule task) s y s' := by
  cases htokens : s.tokens with
  | nil => exact absurd (by rw [skipped, htokens]; rfl) hne
  | cons x tokens =>
      have htake : Takes s [x] none s.skipped := ⟨by rw [skipped, htokens]; rfl, rfl, rfl⟩
      exact h.behind htake rfl hrule

/-- **A step follows a rule of its task.** -/
theorem step_does (h : step task s = .ok (y, s')) : Does (Rule task) s y s' := by
  cases task with
  | stream => exact streamStart_does h
  | implicitDocument => exact document_does true (.inl rfl) (fun _ => rfl) h
  | markedDocument => exact document_does false (.inr rfl) nofun h
  | documentContent => exact documentContent_does h
  | documentEnd => exact documentEnd_does h
  | blockNode => exact .of_node h .blockNode
  | blockSequenceFirst =>
      obtain ⟨hdoes, hne⟩ := blockSequence_does (s := s.skipped) h
      exact hdoes.first hne .firstItem
  | blockSequenceNext => exact (blockSequence_does h).1
  | indentlessNext => exact indentlessSequence_does h
  | blockMappingFirst =>
      obtain ⟨hdoes, hne⟩ := blockMappingKey_does (s := s.skipped) h
      exact hdoes.first hne .firstKey
  | blockMappingKey => exact (blockMappingKey_does h).1
  | blockMappingValue => exact blockMappingValue_does h
  | flowSequenceFirst =>
      obtain ⟨hdoes, hne⟩ := flowSequenceFirst_does h
      exact hdoes.first hne .firstFlowItem
  | flowSequenceNext => exact flowSequenceNext_does h
  | pairKey => exact pairKey_does h
  | pairValue => exact pairValue_does h
  | pairEnd => exact pairEnd_does h
  | flowMappingFirst =>
      obtain ⟨hdoes, hne⟩ := flowMappingFirst_does h
      exact hdoes.first hne fun rule => rule _
  | flowMappingKey => exact flowMappingNext_does h
  | flowMappingValue => exact flowMappingValue_does h
  | flowMappingEmptyValue => exact flowMappingEmptyValue_does h

/-! ## Runs -/

/-- The events that a run yields, one for each step of it. -/
inductive Runs : (fuel : Nat) → EventReader → List Yield → Prop where
  | outOfFuel {s : EventReader} : Runs 0 s []
  | done {fuel : Nat} {s : EventReader} (htasks : s.tasks = []) : Runs (fuel + 1) s []
  | step {fuel : Nat} {s s' : EventReader} {task : Task} {rest : List Task} {y : Yield}
      {yields : List Yield} (htasks : s.tasks = task :: rest)
      (hstep : EventReader.step task s = .ok (y, s')) (h : Runs fuel s' yields) :
      Runs (fuel + 1) s (y :: yields)

/-- **A run is a list of steps.** -/
theorem runs_of_run {fuel : Nat} {read events : List Yield} (h : run fuel s read = .ok events) :
    ∃ yields, events = read.reverse ++ yields ∧ Runs fuel s yields := by
  induction fuel generalizing s read with
  | zero =>
      cases h
      exact ⟨[], (List.append_nil _).symm, .outOfFuel⟩
  | succ fuel ih =>
      unfold run at h
      split at h
      · next htasks =>
          cases h
          exact ⟨[], (List.append_nil _).symm, .done htasks⟩
      · next task rest htasks =>
          obtain ⟨⟨y, s'⟩, hstep, h⟩ := bind_eq_ok.mp h
          obtain ⟨yields, rfl, hruns⟩ := ih h
          exact ⟨y :: yields, by simp, .step htasks hstep hruns⟩

/-- The reader in front of all tokens of a stream. -/
def start (stream : TokenStream) : EventReader where
  tokens := stream.tokens
  fault := stream.fault
  tasks := [.stream]
  anchors := []
  anchorCount := 0
  handles := []

theorem runs_of_ofTokens {stream : TokenStream} {events : List Yield}
    (h : Event.ofTokens stream = .ok events) :
    Runs (4 * stream.tokens.length + 8) (start stream) events := by
  obtain ⟨yields, rfl, hruns⟩ := runs_of_run h
  exact hruns

end EventReader

end YamlEdit
