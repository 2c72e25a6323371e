import YamlEdit.Proofs.TreeOfEvents

/-!
# All nodes of a tree

`Node.All P` says that a node and all those below it have the property `P`. The builder makes nodes
in three places, for scalars, for aliases and for collections that are closed, and it wraps them in
documents and in the stream. What is given to a node in each of these places (`TreeBuilder.Gives`)
all nodes of a tree have: a step of the builder keeps it (`TreeBuilder.holds_of_step`), and so does
the reading of all events. What a step does at each stage is said once (`TreeBuilder.Reads`).

Main statement: `Node.all_of_ofEvents`.
-/

namespace YamlEdit

namespace Node

/-- A property of a node and of all nodes below it. -/
inductive All (P : Node → Prop) : Node → Prop where
  | mk {n : Node} (here : P n) (inner : ∀ c ∈ n.children, All P c) : All P n

section All

variable {P Q : Node → Prop} {n d : Node}

theorem All.here (h : n.All P) : P n := by
  cases h with
  | mk here _ => exact here

theorem All.inner (h : n.All P) : ∀ c ∈ n.children, c.All P := by
  cases h with
  | mk _ inner => exact inner

/-- What follows for a node from what it and all nodes below it have. -/
theorem All.mono (h : n.All P) (hle : ∀ x : Node, x.All P → Q x) : n.All Q := by
  induction h with
  | mk here inner ih => exact .mk (hle _ (.mk here inner)) ih

theorem All.and (h : n.All P) (h' : n.All Q) : n.All fun x => P x ∧ Q x := by
  induction h with
  | mk here _ ih => exact .mk ⟨here, h'.here⟩ fun c hc => ih c hc (h'.inner c hc)

theorem descendant?_cons_eq_some {i : Nat} {rest : Address} :
    n.descendant? (i :: rest) = some d ↔
      ∃ c, n.children[i]? = some c ∧ c.descendant? rest = some d := by
  rw [descendant?]
  cases n.children[i]? <;> simp

theorem All.descendant? (h : n.All P) {a : Address} (hd : n.descendant? a = some d) :
    d.All P := by
  induction a generalizing n with
  | nil =>
      cases hd
      exact h
  | cons i rest ih =>
      obtain ⟨c, hc, hd⟩ := descendant?_cons_eq_some.mp hd
      exact ih (h.inner c (List.mem_of_getElem? hc)) hd

end All

end Node

namespace TreeBuilder

/-- Properties that nodes and open collections are given wherever they are made. -/
structure Gives (m : SourceMap) (P : Node → Prop) (Q : OpenCollection → Prop) : Prop where
  scalar : ∀ {text style anchor span s n s'},
    scalar m text style anchor span s = .ok (n, s') → P n
  aliasNode : ∀ {anchor span s n s'}, aliasNode m anchor span s = .ok (n, s') → P n
  opened : ∀ {isMapping anchor span s c s'},
    openCollection m isMapping anchor span s = .ok (c, s') → Q c
  child : ∀ {c n}, Q c → Q { c with children := n :: c.children }
  closed : ∀ {c s n s'}, close m c s = .ok (n, s') → Q c → (∀ x ∈ c.children, x.All P) → P n
  document : ∀ {n : Node}, P n → P ⟨.document, n.start, n.stop, none, [n]⟩

/-- What a state holds has the properties. -/
structure State.Holds (P : Node → Prop) (Q : OpenCollection → Prop) (s : State) : Prop where
  documents : ∀ d ∈ s.documents, d.All P
  nest : ∀ {nest}, s.stage = .inside nest → ∀ c ∈ nest, Q c ∧ ∀ x ∈ c.children, x.All P

section Made

variable {m : SourceMap} {s s' : State} {n : Node}

/-- A scalar node is made of its extent and its label. -/
theorem scalar_eq {text : Text} {style : ScalarStyle} {anchor : Nat} {span : Span}
    (h : scalar m text style anchor span s = .ok (n, s')) :
    ∃ start first last taken name,
      Extent.skipProperties m.source (m.offsetOfMark span.start) = .ok start ∧
      scalarExtent m text style start (max (m.offsetOfMark span.stop) start) =
        .ok (first, last, taken) ∧
      label m anchor (min (m.offsetOfMark span.start) first) s = .ok (name, s') ∧
      n = ⟨.scalar taken, m.position first, m.position last, name, []⟩ := by
  unfold scalar at h
  rw [offsets_bind] at h
  obtain ⟨start, hstart, h⟩ := h
  rw [offsets_bind] at h
  obtain ⟨⟨first, last, taken⟩, hextent, h⟩ := h
  rw [stateful_bind_eq_ok] at h
  obtain ⟨name, s₁, hlabel, h⟩ := h
  cases h
  exact ⟨start, first, last, taken, name, hstart, hextent, hlabel, rfl⟩

/-- An alias node has the name that its anchor has, or that is written. -/
theorem aliasNode_eq {anchor : Nat} {span : Span}
    (h : aliasNode m anchor span s = .ok (n, s')) :
    ∃ stop name,
      Extent.aliasEnd m.source (m.offsetOfMark span.start) = .ok stop ∧
      aliasName m (s.labels.lookup anchor) (m.offsetOfMark span.start)
        (stop.getD (m.offsetOfMark span.stop)) = .ok name ∧
      n = ⟨.aliasTo name, m.position (m.offsetOfMark span.start),
        m.position (stop.getD (m.offsetOfMark span.stop)), none, []⟩ := by
  unfold aliasNode at h
  rw [offsets_bind] at h
  obtain ⟨stop, hstop, h⟩ := h
  rw [get_bind, offsets_bind] at h
  obtain ⟨name, hname, h⟩ := h
  cases h
  exact ⟨stop, name, hstop, hname, rfl⟩

/-- The kind of a collection. -/
def kindOf (isMapping : Bool) (style : Style) : Kind :=
  if isMapping then .mapping style else .sequence style

/-- A closed collection is made of its extent and its children. -/
theorem close_eq {c : OpenCollection} (h : close m c s = .ok (n, s')) :
    ∃ style start stop, collectionStyle m c = .ok style ∧
      collectionExtent m c style c.children.reverse = .ok (start, stop) ∧
      n = ⟨kindOf c.isMapping style, m.position start, m.position stop, c.anchor,
        c.children.reverse⟩ ∧
      (c.isMapping = true → c.children.reverse.length % 2 = 0) ∧ s' = s := by
  unfold close at h
  dsimp only at h
  split at h
  · cases h
  · next heven =>
      rw [offsets_bind] at h
      obtain ⟨style, hstyle, h⟩ := h
      rw [offsets_bind] at h
      obtain ⟨⟨start, stop⟩, hextent, h⟩ := h
      cases h
      refine ⟨style, start, stop, hstyle, hextent, rfl, fun hmapping => ?_, rfl⟩
      by_contra hodd
      exact heven ⟨hmapping, hodd⟩

end Made

/-- How an event is read, stage by stage. Behind the end of the stream nothing is read any more. -/
inductive Reads (m : SourceMap) (s : State) : Event → Span → State → Prop where
  | stream {span : Span} (hstage : s.stage = .beforeStream) :
      Reads m s .streamStart span { s with stage := .betweenDocuments }
  | document {span : Span} (hstage : s.stage = .betweenDocuments ∨ s.stage = .afterContent) :
      Reads m s .documentStart span { s with stage := .inside [] }
  | streamEnd {span : Span} (hstage : s.stage = .betweenDocuments ∨ s.stage = .afterContent) :
      Reads m s .streamEnd span { s with stage := .ended }
  | documentEnd {span : Span} (hstage : s.stage = .afterContent) :
      Reads m s .documentEnd span { s with stage := .betweenDocuments }
  | behind {e : Event} {span : Span} (hstage : s.stage = .ended) : Reads m s e span s
  | scalar {nest : List OpenCollection} {text : Text} {style : ScalarStyle} {anchor : Nat}
      {span : Span} {n : Node} {s₁ : State} (hstage : s.stage = .inside nest)
      (h : TreeBuilder.scalar m text style anchor span s = .ok (n, s₁)) :
      Reads m s (.scalar text style anchor) span (s₁.placed nest n)
  | reference {nest : List OpenCollection} {anchor : Nat} {span : Span} {n : Node}
      (hstage : s.stage = .inside nest) (h : aliasNode m anchor span s = .ok (n, s)) :
      Reads m s (.aliasTo anchor) span (s.placed nest n)
  | opener {nest : List OpenCollection} {isMapping : Bool} {anchor : Nat} {e : Event} {span : Span}
      {c : OpenCollection} {s₁ : State} (hstage : s.stage = .inside nest)
      (he : e = openerOf isMapping anchor)
      (h : openCollection m isMapping anchor span s = .ok (c, s₁)) :
      Reads m s e span { s₁ with stage := .inside (c :: nest) }
  | closer {outer : List OpenCollection} {c : OpenCollection} {e : Event} {span : Span} {n : Node}
      (hstage : s.stage = .inside (c :: outer)) (he : e = .sequenceEnd ∨ e = .mappingEnd)
      (h : close m c s = .ok (n, s)) : Reads m s e span (s.placed outer n)

section Reads

variable {m : SourceMap} {s s' : State} {e : Event} {span : Span}

theorem reads_of_between (hstage : s.stage = .betweenDocuments ∨ s.stage = .afterContent)
    (h : betweenEvent e s = .ok ((), s')) : Reads m s e span s' := by
  cases e with
  | documentStart =>
      cases h
      exact .document hstage
  | streamEnd =>
      cases h
      exact .streamEnd hstage
  | _ => cases h

theorem reads_of_inside {nest : List OpenCollection} (hstage : s.stage = .inside nest)
    (h : insideEvent m nest e span s = .ok ((), s')) : Reads m s e span s' := by
  have hopener : ∀ isMapping anchor, e = openerOf isMapping anchor → Reads m s e span s' := by
    rintro isMapping anchor rfl
    rw [insideEvent_opener, stateful_bind_eq_ok] at h
    obtain ⟨c, s₁, hopen, h⟩ := h
    cases h
    exact .opener hstage rfl hopen
  have hcloser : e = .sequenceEnd ∨ e = .mappingEnd → Reads m s e span s' := by
    intro he
    cases nest with
    | nil => rcases he with rfl | rfl <;> cases h
    | cons c outer =>
        have hclose : (close m c >>= place outer) s = .ok ((), s') := by
          rcases he with rfl | rfl <;> exact h
        obtain ⟨n, s₁, hn, hplace⟩ := stateful_bind_eq_ok.mp hclose
        obtain ⟨-, -, -, -, -, -, -, rfl⟩ := close_eq hn
        rw [place_apply] at hplace
        cases hplace
        exact .closer hstage he hn
  cases e with
  | scalar text style anchor =>
      obtain ⟨n, s₁, hn, hplace⟩ := stateful_bind_eq_ok.mp h
      rw [place_apply] at hplace
      cases hplace
      exact .scalar hstage hn
  | aliasTo anchor =>
      obtain ⟨n, s₁, hn, hplace⟩ := stateful_bind_eq_ok.mp h
      obtain rfl := (aliasNode_outline hn).2
      rw [place_apply] at hplace
      cases hplace
      exact .reference hstage hn
  | sequenceStart anchor => exact hopener false anchor rfl
  | mappingStart anchor => exact hopener true anchor rfl
  | sequenceEnd => exact hcloser (.inl rfl)
  | mappingEnd => exact hcloser (.inr rfl)
  | _ => cases h

/-- **What a step of the builder does.** -/
theorem reads_of_step (h : step m e span s = .ok ((), s')) : Reads m s e span s' := by
  cases hstage : s.stage with
  | beforeStream =>
      unfold step at h
      rw [get_bind, hstage] at h
      dsimp only at h
      split at h
      · next he =>
          subst he
          cases h
          exact .stream hstage
      · cases h
  | betweenDocuments =>
      rw [step_between hstage] at h
      exact reads_of_between (.inl hstage) h
  | inside nest =>
      rw [step_inside hstage] at h
      exact reads_of_inside hstage h
  | afterContent =>
      unfold step at h
      rw [get_bind, hstage] at h
      dsimp only at h
      split at h
      · next he =>
          subst he
          cases h
          exact .documentEnd hstage
      · exact reads_of_between (.inr hstage) h
  | ended =>
      unfold step at h
      rw [get_bind, hstage] at h
      cases h
      exact .behind hstage

end Reads

section Holds

variable {m : SourceMap} {P : Node → Prop} {Q : OpenCollection → Prop} {s s' : State}
  {e : Event} {span : Span}

/-- A state in which no document is being read. -/
theorem holds_of_documents (hdocuments : ∀ d ∈ s.documents, d.All P)
    (hstage : ∀ nest, s.stage ≠ .inside nest) : s.Holds P Q :=
  ⟨hdocuments, fun h => absurd h (hstage _)⟩

/-- Only the names of anchors are different. -/
theorem State.Holds.relabel (h : s.Holds P Q) (labels : List (Nat × Text)) :
    State.Holds P Q { s with labels } :=
  ⟨h.documents, h.nest⟩

theorem holds_of_placed (hgives : Gives m P Q) {nest : List OpenCollection} {n : Node}
    (h : s.Holds P Q) (hnest : ∀ c ∈ nest, Q c ∧ ∀ x ∈ c.children, x.All P) (hn : n.All P) :
    (s.placed nest n).Holds P Q := by
  cases nest with
  | nil =>
      refine holds_of_documents ?_ nofun
      intro d hd
      rcases List.mem_cons.mp hd with rfl | hd
      · refine .mk (hgives.document hn.here) fun c hc => ?_
        rw [List.mem_singleton.mp hc]
        exact hn
      · exact h.documents d hd
  | cons c outer =>
      refine ⟨h.documents, ?_⟩
      intro nest hstage x hx
      cases hstage
      obtain ⟨hc, hchildren⟩ := hnest c List.mem_cons_self
      rcases List.mem_cons.mp hx with rfl | hx
      · refine ⟨hgives.child hc, fun y hy => ?_⟩
        rcases List.mem_cons.mp hy with rfl | hy
        · exact hn
        · exact hchildren y hy
      · exact hnest x (List.mem_cons_of_mem c hx)

/-- **A step of the builder** makes nodes that have what is given to them. -/
theorem holds_of_step (hgives : Gives m P Q) (h : s.Holds P Q)
    (hstep : step m e span s = .ok ((), s')) : s'.Holds P Q := by
  cases reads_of_step hstep with
  | stream | streamEnd | documentEnd => exact holds_of_documents h.documents nofun
  | document =>
      refine ⟨h.documents, fun hstage => ?_⟩
      cases hstage
      exact nofun
  | behind => exact h
  | scalar hstage hn =>
      obtain rfl := (scalar_outline hn).2
      refine holds_of_placed hgives (h.relabel _) (h.nest hstage) (.mk (hgives.scalar hn) ?_)
      obtain ⟨_, _, _, _, _, -, -, -, rfl⟩ := scalar_eq hn
      exact nofun
  | reference hstage hn =>
      refine holds_of_placed hgives h (h.nest hstage) (.mk (hgives.aliasNode hn) ?_)
      obtain ⟨_, _, -, -, rfl⟩ := aliasNode_eq hn
      exact nofun
  | @opener nest _ _ _ _ c _ hstage _ hc =>
      obtain ⟨-, hchildren, -, rfl⟩ := openCollection_eq hc
      have hinside : ∀ x ∈ c :: nest, Q x ∧ ∀ y ∈ x.children, y.All P := by
        refine List.forall_mem_cons.mpr ⟨⟨hgives.opened hc, ?_⟩, h.nest hstage⟩
        rw [hchildren]
        exact nofun
      refine ⟨h.documents, fun hinner => ?_⟩
      cases hinner
      exact hinside
  | @closer outer c _ _ _ hstage _ hn =>
      obtain ⟨⟨hQ, hchildren⟩, houter⟩ := List.forall_mem_cons.mp (h.nest hstage)
      refine holds_of_placed hgives h houter (.mk (hgives.closed hn hQ hchildren) ?_)
      obtain ⟨_, _, _, -, -, rfl, -, -⟩ := close_eq hn
      exact fun x hx => hchildren x (List.mem_reverse.mp hx)

/-- The same for all events, one after the other. -/
theorem holds_of_steps (hgives : Gives m P Q) {events : List (Event × Span)} (h : s.Holds P Q)
    (hsteps : steps m events s = .ok ((), s')) : s'.Holds P Q := by
  induction events generalizing s with
  | nil =>
      cases hsteps
      exact h
  | cons y rest ih =>
      obtain ⟨s₁, hstep, hrest⟩ := steps_cons.mp hsteps
      exact ih (holds_of_step hgives h hstep) hrest

end Holds

/-- The tree is the stream of the documents that have been built. -/
theorem finish_eq {m : SourceMap} {s : State} {root : Node} (h : finish m s = .ok root) :
    root = ⟨.stream, ⟨0, 0⟩, m.position (Text.size m.source), none, s.documents.reverse⟩ := by
  unfold finish at h
  cases hstage : s.stage with
  | beforeStream =>
      rw [hstage] at h
      cases h
  | inside nest =>
      rw [hstage] at h
      cases nest <;> cases h
  | _ =>
      rw [hstage] at h
      cases h
      rfl

end TreeBuilder

/-- **All nodes of a tree** have what is given to a node where it is made, if the stream itself
has it. -/
theorem Node.all_of_ofEvents {m : SourceMap} {P : Node → Prop}
    {Q : TreeBuilder.OpenCollection → Prop} (hgives : TreeBuilder.Gives m P Q)
    (hstream : ∀ documents, P ⟨.stream, ⟨0, 0⟩, m.position (Text.size m.source), none, documents⟩)
    {events : List (Event × Span)} {root : Node} (h : Node.ofEvents m events = .ok root) :
    root.All P := by
  obtain ⟨⟨⟨⟩, s⟩, hsteps, hfinish⟩ := bind_eq_ok.mp h
  have hstart : TreeBuilder.start.Holds P Q :=
    TreeBuilder.holds_of_documents (fun _ hd => nomatch hd) (fun _ hnest => nomatch hnest)
  have hholds := TreeBuilder.holds_of_steps hgives hstart hsteps
  obtain rfl := TreeBuilder.finish_eq hfinish
  exact .mk (hstream _) fun d hd => hholds.documents d (List.mem_reverse.mp hd)

end YamlEdit
