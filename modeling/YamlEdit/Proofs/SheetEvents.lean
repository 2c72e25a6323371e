import YamlEdit.Event.OfTokens
import YamlEdit.Proofs.SheetTokens

/-!
# The events of a sheet

What the event reader makes of the tokens of a sheet. It reads the head of an entry together with
what the node behind that starts with, so that a sheet is read in steps which do not follow its
tokens one by one; `EventReader.Leads` only says which events are met on the way.

Main statement: `Event.ofDocument_sheet`.
-/

namespace YamlEdit

namespace EventReader

/-- The reader in front of tokens, none of which is a property. -/
def facing (tokens : List (Located Token)) (tasks : List Task) : EventReader :=
  ⟨tokens, none, tasks, [], 0, []⟩

/-- The events that the reader meets on its way to another state. -/
inductive Leads : EventReader → List Yield → EventReader → Prop where
  | refl (s : EventReader) : Leads s [] s
  | step {s s₁ s' : EventReader} {task : Task} {tasks : List Task} {y : Yield} {ys : List Yield}
      (htasks : s.tasks = task :: tasks) (hstep : (step task).run s = .ok (y, s₁))
      (hrest : Leads s₁ ys s') : Leads s (y :: ys) s'

namespace Leads

variable {s s₁ s' : EventReader} {es es' : List Yield}

theorem trans (h : Leads s es s₁) (h' : Leads s₁ es' s') : Leads s (es ++ es') s' := by
  induction h with
  | refl => exact h'
  | step htasks hstep _ ih => exact .step htasks hstep (ih h')

/-- Two states from which the next step is the same lead to the same. -/
theorem of_step_eq {task task₁ : Task} {tasks tasks₁ : List Task} (htasks : s.tasks = task :: tasks)
    (htasks₁ : s₁.tasks = task₁ :: tasks₁)
    (heq : (EventReader.step task).run s = (EventReader.step task₁).run s₁) (hne : es ≠ [])
    (h : Leads s₁ es s') : Leads s es s' := by
  cases h with
  | refl => exact absurd rfl hne
  | step htask hstep hrest =>
      cases htask.symm.trans htasks₁
      exact .step htasks (heq.trans hstep) hrest

/-- The reader yields what it meets. -/
theorem run_eq (h : Leads s es s') (hdone : s'.tasks = []) {fuel : Nat} (hfuel : es.length < fuel)
    (read : List Yield) : run fuel s read = .ok (read.reverse ++ es) := by
  induction h generalizing fuel read with
  | refl s =>
      obtain ⟨fuel, rfl⟩ := Nat.exists_eq_add_one.mpr hfuel
      rw [run, hdone, List.append_nil]
  | step htasks hstep _ ih =>
      obtain ⟨fuel, rfl⟩ := Nat.exists_eq_add_one.mpr (Nat.zero_lt_of_lt hfuel)
      rw [run, htasks]
      refine Eq.trans (congrArg (· >>= _) hstep) ?_
      refine (ih hdone (Nat.lt_of_succ_lt_succ hfuel) _).trans ?_
      simp

end Leads

end EventReader

/-! ## Events -/

namespace Head

/-- The event that opens a collection of such entries. -/
def opener (head : Head) : Event := if head.isKey then .mappingStart 0 else .sequenceStart 0

/-- The event that closes one. -/
def closer (head : Head) : Event := if head.isKey then .mappingEnd else .sequenceEnd

/-- The events of the head itself. -/
def events (m : Mark) : Head → List (Event × Span)
  | dash _ => []
  | key name _ => [(.scalar name .plain 0, ⟨m, m.across name⟩)]

/-- The task that reads such an entry. -/
def task (inside : Bool) (head : Head) : Task :=
  if head.isKey then if inside then .blockMappingKey else .blockMappingFirst
  else if inside then .blockSequenceNext else .blockSequenceFirst

end Head

namespace Sheet

/-- The events of a sheet at a mark, with what closes it at the mark `e`. The flag says that these
are entries of a collection that is open. -/
def events : (inside : Bool) → (m e : Mark) → Sheet → List (Event × Span)
  | _, m, _, word w _ => [(.scalar w .plain 0, ⟨m, m.across w⟩)]
  | inside, m, e, last head node =>
    (if inside then [] else [(head.opener, Span.empty m)]) ++ (head.events m ++
      events false (m.across head.text) e node ++ [(head.closer, Span.empty e)])
  | inside, m, e, more head node rest =>
    let next := m.across (head.text ++ node.text)
    (if inside then [] else [(head.opener, Span.empty m)]) ++ (head.events m ++
      events false (m.across head.text) next node ++ events true next e rest)

theorem closedTokens_last (inside : Bool) (m e : Mark) (head : Head) (node : Sheet) :
    (last head node).closedTokens inside m e =
      (if inside then [] else [head.opening m]) ++ (head.tokens m ++
        node.closedTokens false (m.across head.text) e ++ [⟨Span.empty e, .blockEnd⟩]) := by
  simp [closedTokens, tokens, depth, List.replicate_succ']

theorem closedTokens_more (inside : Bool) (m e : Mark) (head : Head) (node rest : Sheet) :
    (more head node rest).closedTokens inside m e =
      (if inside then [] else [head.opening m]) ++ (head.tokens m ++
        node.closedTokens false (m.across head.text) (m.across (head.text ++ node.text)) ++
          rest.closedTokens true (m.across (head.text ++ node.text)) e) := by
  simp [closedTokens, tokens, depth]

/-- What a node starts with. -/
inductive IsFirst : Token → Prop where
  | scalar (style : ScalarStyle) (text : Text) : IsFirst (.scalar style text)
  | sequence : IsFirst .blockSequenceStart
  | mapping : IsFirst .blockMappingStart

theorem exists_first (m e : Mark) (t : Sheet) :
    ∃ first rest, t.closedTokens false m e = first :: rest ∧ IsFirst first.item := by
  have hopening : ∀ head : Head, IsFirst (head.opening m).item := by
    intro head
    cases head with
    | dash => exact .sequence
    | key => exact .mapping
  cases t with
  | word w margin => exact ⟨_, _, rfl, .scalar .plain w⟩
  | last head node =>
      rw [closedTokens_last]
      exact ⟨_, _, rfl, hopening head⟩
  | more head node rest =>
      rw [closedTokens_more]
      exact ⟨_, _, rfl, hopening head⟩

theorem events_ne_nil (m e : Mark) (t : Sheet) : t.events false m e ≠ [] := by
  cases t <;> simp [events]

end Sheet

namespace EventReader

open Sheet

variable {tasks : List Task} {rest : List (Located Token)} {es : List Yield} {s' : EventReader}

/-- The head of an entry is read together with what comes first of its node. -/
theorem Leads.head (inside : Bool) (m : Mark) {head : Head} {first : Located Token}
    (hfirst : IsFirst first.item) (hne : es ≠ [])
    (h : Leads (facing (first :: rest) (.blockNode :: head.task true :: tasks)) es s') :
    Leads (facing ((if inside then [] else [head.opening m]) ++ (head.tokens m ++ first :: rest))
      (head.task inside :: tasks)) (head.events m ++ es) s' := by
  obtain ⟨span, item⟩ := first
  cases head with
  | dash gap =>
      refine h.of_step_eq rfl rfl ?_ hne
      cases inside <;> cases hfirst <;> rfl
  | key name gap =>
      have hnode : Leads (facing (⟨Span.empty (m.across name), .value⟩ :: ⟨span, item⟩ :: rest)
          (.blockMappingValue :: tasks)) es s' := h.of_step_eq rfl rfl (by cases hfirst <;> rfl) hne
      exact .step rfl (by cases inside <;> rfl) hnode

/-- A collection is closed behind its last entry. -/
theorem leads_close (head : Head) (m : Mark) :
    Leads (facing (⟨Span.empty m, .blockEnd⟩ :: rest) (head.task true :: tasks))
      [(head.closer, Span.empty m)] (facing rest tasks) := by
  cases head <;> exact .step rfl rfl (.refl _)

/-- A collection is opened in front of its first entry. -/
theorem Leads.open {m : Mark} {head : Head}
    (h : Leads (facing (head.opening m :: rest) (head.task false :: tasks)) es s') :
    Leads (facing (head.opening m :: rest) (.blockNode :: tasks))
      ((head.opener, Span.empty m) :: es) s' := by
  cases head <;> exact .step rfl rfl h

theorem Head.task_congr {head head' : Head} (h : head.isKey = head'.isKey) (inside : Bool) :
    head.task inside = head'.task inside := by
  rw [Head.task, Head.task, h]

/-- **The reader takes the tokens of a sheet**, as a node and as the entries of a collection. -/
theorem leads_sheet {column : Nat} {t : Sheet} (ht : t.Fits column) (m e : Mark)
    (rest : List (Located Token)) :
    (∀ tasks, Leads (facing (t.closedTokens false m e ++ rest) (.blockNode :: tasks))
      (t.events false m e) (facing rest tasks)) ∧
    ∀ inside (head : Head) tasks, t.head?.map Head.isKey = some head.isKey →
      Leads (facing (t.closedTokens inside m e ++ rest) (head.task inside :: tasks))
        (t.events true m e) (facing rest tasks) := by
  induction ht generalizing m e rest with
  | word _ _ => exact ⟨fun tasks => .step rfl rfl (.refl _), fun _ _ _ h => nomatch h⟩
  | @last column head node _ _ _ ih =>
      have hentry : ∀ inside tasks,
          Leads (facing ((last head node).closedTokens inside m e ++ rest)
            (head.task inside :: tasks))
            ((last head node).events true m e) (facing rest tasks) := by
        intro inside tasks
        have hnode := (ih (m.across head.text) e (⟨Span.empty e, .blockEnd⟩ :: rest)).1
          (head.task true :: tasks)
        obtain ⟨first, others, htokens, hfirst⟩ := node.exists_first (m.across head.text) e
        rw [htokens] at hnode
        have := (hnode.head inside m hfirst (events_ne_nil _ _ _)).trans (leads_close head e)
        rw [closedTokens_last, htokens]
        simpa [events] using this
      refine ⟨fun tasks => ?_, fun inside head' tasks h => ?_⟩
      · have := hentry false tasks
        rw [closedTokens_last] at this ⊢
        exact this.open
      · rw [← Head.task_congr (Option.some.inj h)]
        exact hentry inside tasks
  | @more column head node others _ _ _ _ hkind _ ihnode ihothers =>
      have hentry : ∀ inside tasks,
          Leads (facing ((more head node others).closedTokens inside m e ++ rest)
              (head.task inside :: tasks))
            ((more head node others).events true m e) (facing rest tasks) := by
        intro inside tasks
        have hothers := (ihothers (m.across (head.text ++ node.text)) e rest).2 true
          head tasks hkind
        have hnode := (ihnode (m.across head.text) (m.across (head.text ++ node.text))
          (others.closedTokens true (m.across (head.text ++ node.text)) e ++ rest)).1
          (head.task true :: tasks)
        obtain ⟨first, tail, htokens, hfirst⟩ :=
          node.exists_first (m.across head.text) (m.across (head.text ++ node.text))
        rw [htokens] at hnode
        have := (hnode.head inside m hfirst (events_ne_nil _ _ _)).trans hothers
        rw [closedTokens_more, htokens]
        simpa [events] using this
      refine ⟨fun tasks => ?_, fun inside head' tasks h => ?_⟩
      · have := hentry false tasks
        rw [closedTokens_more] at this ⊢
        exact this.open
      · rw [← Head.task_congr (Option.some.inj h)]
        exact hentry inside tasks

end EventReader

namespace Sheet

theorem length_events {column : Nat} {t : Sheet} (ht : t.Fits column) (inside : Bool) (m e : Mark) :
    (t.events inside m e).length ≤ 2 * (t.closedTokens inside m e).length := by
  induction ht generalizing inside m e with
  | word _ _ => simp [events, closedTokens, tokens, depth]
  | @last _ head node _ _ _ ih =>
      have := ih false (m.across head.text) e
      have hhead : (head.events m).length ≤ (head.tokens m).length := by
        cases head <;> simp [Head.events, Head.tokens]
      rw [closedTokens_last]
      cases inside <;> simp [events] <;> omega
  | @more _ head node rest _ _ _ _ _ _ ihnode ihrest =>
      have := ihnode false (m.across head.text) (m.across (head.text ++ node.text))
      have := ihrest true (m.across (head.text ++ node.text)) e
      have hhead : (head.events m).length ≤ (head.tokens m).length := by
        cases head <;> simp [Head.events, Head.tokens]
      rw [closedTokens_more]
      cases inside <;> simp [events] <;> omega

end Sheet

/-- **The events of a text that is a sheet behind a margin.** -/
theorem Event.ofDocument_sheet {g : Text} {t : Sheet} (hg : Token.Margin g)
    (hfits : t.Fits (Text.columnBehind 0 g)) (hend : Text.columnBehind 0 t.tail = 0) :
    ∃ content, Event.ofDocument (g ++ t.text) =
      .ok ((.streamStart, Span.empty Mark.origin) :: (.documentStart, content) ::
        (t.events false (Mark.origin.across g) (Mark.origin.across (g ++ t.text)) ++
          [(.documentEnd, Span.empty (Mark.origin.across (g ++ t.text))),
            (.streamEnd, Span.empty (Mark.origin.across (g ++ t.text)))])) := by
  have hscan := Token.scan_sheet hg hfits hend
  generalize Mark.origin.across (g ++ t.text) = e at *
  generalize Mark.origin.across g = m at *
  obtain ⟨first, others, htokens, hfirst⟩ := t.exists_first m e
  have hsheet := (EventReader.leads_sheet hfits m e [⟨Span.empty e, .streamEnd⟩]).1 [.documentEnd]
  have hlength := t.length_events hfits false m e
  refine ⟨first.span, ?_⟩
  rw [htokens] at hsheet hscan hlength
  -- the document is read between the steps that open it and those that close it
  have hstart : EventReader.Leads
      (.facing (⟨Span.empty Mark.origin, .streamStart⟩ ::
        (first :: others ++ [⟨Span.empty e, .streamEnd⟩]))
        [.stream])
      [(.streamStart, Span.empty Mark.origin), (.documentStart, first.span)]
      (.facing (first :: others ++ [⟨Span.empty e, .streamEnd⟩]) [.blockNode, .documentEnd]) := by
    refine .step rfl rfl (.step rfl ?_ (.refl _))
    obtain ⟨span, item⟩ := first
    cases hfirst <;> rfl
  have hfinish : EventReader.Leads (.facing [⟨Span.empty e, .streamEnd⟩] [.documentEnd])
      [(.documentEnd, Span.empty e), (.streamEnd, Span.empty e)] (.facing [] []) :=
    .step rfl rfl (.step rfl rfl (.refl _))
  rw [ofDocument, hscan]
  refine (((hstart.trans hsheet).trans hfinish).run_eq rfl ?_ []).trans ?_
  · simp at hlength ⊢
    omega
  · simp

end YamlEdit
