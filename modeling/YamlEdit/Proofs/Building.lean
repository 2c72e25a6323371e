import YamlEdit.Proofs.TreeOfEvents

/-!
# Well-nested events build a tree

The builder keeps open collections where the events tell roles: what is still to come for a state of
the builder is a list of roles as well (`TreeBuilder.Stage.roles`). An event that the first role has
a sign for is one that the builder can take there, and what completes that role is what is then
still to come (`TreeBuilder.step_progress`, one case for each role). So the builder never complains
about the shape of well-nested events (`Node.ofEvents_progress`); all that it can fail with is an
offset.
-/

namespace YamlEdit

namespace Role

/-- Roles that are read one after the other. -/
theorem readsAll_of_append {roles roles' : List Role} {u v : List Sign} (h : ReadsAll roles u)
    (h' : ReadsAll roles' v) : ReadsAll (roles ++ roles') (u ++ v) := by
  induction roles generalizing u with
  | nil =>
      obtain rfl : u = [] := h
      exact h'
  | cons role rest ih =>
      obtain ⟨u, u', rfl, hu, hu'⟩ := h
      exact ⟨u, u' ++ v, by simp, hu, ih hu'⟩

/-- One role is read by what it stands for. -/
theorem readsAll_singleton {role : Role} {w : List Sign} (h : role.Reads w) :
    ReadsAll [role] w :=
  ⟨w, [], by simp, h, rfl⟩

/-- A node is read by a sign that starts it and by what completes that. -/
theorem starts_of_node {o : Outline} (ho : o.IsNode) {sign : Sign} {w v : List Sign}
    (h : sign :: w = o.signs ++ v) :
    ∃ roles u, Starts sign roles ∧ w = u ++ v ∧ ReadsAll roles u := by
  cases ho with
  | scalar text =>
      cases h
      exact ⟨[], [], .scalar text, rfl, rfl⟩
  | reference name =>
      cases h
      exact ⟨[], [], .reference name, rfl, rfl⟩
  | @sequence style l inner =>
      cases h
      exact ⟨[.items], _, .sequence style, rfl, readsAll_singleton ⟨l, inner, rfl⟩⟩
  | @mapping style l paired inner =>
      cases h
      exact ⟨[.keys], _, .mapping style, rfl, readsAll_singleton ⟨l, inner, paired, rfl⟩⟩

/-- The first sign of what a collection still holds starts a node or closes the collection. -/
theorem starts_of_nodes {l : List Outline} (hl : Nodes l) {sign : Sign} {w : List Sign}
    {c : Closing} (h : sign :: w = Outline.signsOf l ++ [.closing c]) :
    l = [] ∧ sign = .closing c ∧ w = [] ∨
      ∃ rest roles u, l.length = rest.length + 1 ∧ Nodes rest ∧ Starts sign roles ∧
        w = u ++ (Outline.signsOf rest ++ [.closing c]) ∧ ReadsAll roles u := by
  cases l with
  | nil =>
      cases h
      exact .inl ⟨rfl, rfl, rfl⟩
  | cons o rest =>
      rw [Outline.signsOf_cons, List.append_assoc] at h
      obtain ⟨roles, u, hstarts, hw, hu⟩ := starts_of_node (hl o List.mem_cons_self) h
      exact .inr ⟨rest, roles, u, rfl, fun o ho => hl o (List.mem_cons_of_mem _ ho), hstarts, hw,
        hu⟩

/-- **Every sign of a role is a step of it**: the converse of `reads_of_goes`. -/
theorem goes_of_reads {role : Role} {sign : Sign} {w : List Sign} (h : role.Reads (sign :: w)) :
    ∃ roles, Goes role sign roles ∧ ReadsAll roles w := by
  cases role with
  | stream =>
      obtain ⟨contents, hc, hw⟩ := h
      cases hw
      exact ⟨_, .stream, readsAll_singleton ⟨contents, hc, rfl⟩⟩
  | documents =>
      obtain ⟨contents, hc, hw⟩ := h
      cases contents with
      | nil =>
          cases hw
          exact ⟨_, .streamEnd, rfl⟩
      | cons o rest =>
          obtain ⟨rfl, rfl⟩ : sign = .opening .document ∧ w = o.signs ++ (.closing .document ::
              (Outline.signsOf (Outline.documents rest) ++ [.closing .stream])) := by
            simpa [Outline.documents, Outline.signs, Bracket.closing] using hw
          exact ⟨_, .document, o.signs, _, rfl, ⟨o, hc o List.mem_cons_self, rfl⟩,
            readsAll_singleton ⟨rest, fun o ho => hc o (List.mem_cons_of_mem _ ho), rfl⟩⟩
  | documentEnd =>
      obtain ⟨contents, hc, hw⟩ := h
      cases hw
      exact ⟨_, .documentEnd, readsAll_singleton ⟨contents, hc, rfl⟩⟩
  | node =>
      obtain ⟨o, ho, hw⟩ := h
      obtain ⟨roles, u, hstarts, rfl, hu⟩ := starts_of_node ho (v := []) (by simpa using hw)
      exact ⟨roles, .node hstarts, by simpa using hu⟩
  | items =>
      obtain ⟨l, hl, hw⟩ := h
      rcases starts_of_nodes hl hw with ⟨-, rfl, rfl⟩ | ⟨rest, roles, u, -, hrest, hstarts, rfl, hu⟩
      · exact ⟨[], .itemsEnd, rfl⟩
      · exact ⟨_, .item hstarts, readsAll_of_append hu (readsAll_singleton ⟨rest, hrest, rfl⟩)⟩
  | keys =>
      obtain ⟨l, hl, heven, hw⟩ := h
      rcases starts_of_nodes hl hw with
        ⟨-, rfl, rfl⟩ | ⟨rest, roles, u, hlength, hrest, hstarts, rfl, hu⟩
      · exact ⟨[], .keysEnd, rfl⟩
      · exact ⟨_, .key hstarts,
          readsAll_of_append hu (readsAll_singleton ⟨rest, hrest, by omega, rfl⟩)⟩
  | values =>
      obtain ⟨l, hl, hodd, hw⟩ := h
      rcases starts_of_nodes hl hw with
        ⟨rfl, -, -⟩ | ⟨rest, roles, u, hlength, hrest, hstarts, rfl, hu⟩
      · cases hodd
      · exact ⟨_, .value hstarts,
          readsAll_of_append hu (readsAll_singleton ⟨rest, hrest, by omega, rfl⟩)⟩

/-- Every role has a sign. -/
theorem not_reads_nil {role : Role} : ¬ role.Reads [] := by
  intro h
  cases role with
  | node =>
      obtain ⟨o, -, hw⟩ := h
      cases o <;> cases hw
  | stream | documentEnd =>
      obtain ⟨_, -, hw⟩ := h
      cases hw
  | documents | items =>
      obtain ⟨_, -, hw⟩ := h
      simp at hw
  | keys | values =>
      obtain ⟨_, -, -, hw⟩ := h
      simp at hw

/-- A sign of roles is a step of the first one. -/
theorem goes_of_readsAll {role : Role} {rest : List Role} {sign : Sign} {w : List Sign}
    (h : ReadsAll (role :: rest) (sign :: w)) :
    ∃ roles, Goes role sign roles ∧ ReadsAll (roles ++ rest) w := by
  obtain ⟨u, v, hw, hu, hv⟩ := h
  cases u with
  | nil => exact absurd hu not_reads_nil
  | cons first u =>
      cases hw
      obtain ⟨roles, hgoes, hroles⟩ := goes_of_reads hu
      exact ⟨roles, hgoes, readsAll_of_append hroles hv⟩

theorem eq_nil_of_readsAll {roles : List Role} (h : ReadsAll roles []) : roles = [] := by
  cases roles with
  | nil => rfl
  | cons role rest =>
      obtain ⟨u, v, hnil, hu, -⟩ := h
      obtain ⟨rfl, -⟩ := List.append_eq_nil_iff.mp hnil.symm
      exact absurd hu not_reads_nil

end Role

/-- Whether a failure is that of an offset, and not of the shape of the events. -/
def TreeError.IsOffset (e : TreeError) : Prop := ∃ b, e = .badOffset b

namespace TreeBuilder

/-! ## What is still to come -/

/-- What is left for an open collection after `more` children. -/
def OpenCollection.role (c : OpenCollection) (more : Nat) : Role :=
  if c.isMapping then if (c.children.length + more) % 2 = 0 then .keys else .values else .items

/-- What is left after a node in the given collections. -/
def rolesBehind : List OpenCollection → List Role
  | [] => [.documentEnd]
  | c :: outer => c.role 1 :: rolesBehind outer

/-- What is left at a stage. -/
def Stage.roles : Stage → List Role
  | .beforeStream => [.stream]
  | .betweenDocuments => [.documents]
  | .inside [] => [.node, .documentEnd]
  | .inside (c :: outer) => c.role 0 :: rolesBehind outer
  | .afterContent => [.documentEnd]
  | .ended => []

/-- After a node, it is what comes behind the node that is left. -/
theorem roles_placed (s : State) (nest : List OpenCollection) (n : Node) :
    (s.placed nest n).stage.roles = rolesBehind nest := by
  cases nest with
  | nil => rfl
  | cons c outer => rfl

/-! ## Steps that do not look at the shape -/

/-- A part of a step that can only fail with an offset. -/
def Steady {α : Type} (x : Build α) : Prop :=
  ∀ s, Yields TreeError.IsOffset (fun _ => True) (x s)

section Steady

variable {α β : Type} {m : SourceMap}

theorem Steady.bind {x : Build α} {f : α → Build β} (hx : Steady x) (hf : ∀ a, Steady (f a)) :
    Steady (x >>= f) :=
  fun s => (hx s).bind fun p _ => hf p.1 p.2

theorem steady_offsets (x : Except BadOffset α) : Steady (offsets x) := by
  intro s
  cases x with
  | ok a => trivial
  | error e => exact ⟨e, rfl⟩

theorem steady_label (anchor start : Nat) : Steady (label m anchor start) := by
  unfold label
  split
  · exact fun _ => trivial
  · exact (steady_offsets _).bind fun _ _ => trivial

theorem steady_scalar (text : Text) (style : ScalarStyle) (anchor : Nat) (span : Span) :
    Steady (scalar m text style anchor span) :=
  (steady_offsets _).bind fun _ => (steady_offsets _).bind fun _ =>
    (steady_label _ _).bind fun _ _ => trivial

theorem steady_aliasNode (anchor : Nat) (span : Span) : Steady (aliasNode m anchor span) :=
  (steady_offsets _).bind fun _ => Steady.bind (fun _ => trivial) fun _ =>
    (steady_offsets _).bind fun _ _ => trivial

theorem steady_openCollection (isMapping : Bool) (anchor : Nat) (span : Span) :
    Steady (openCollection m isMapping anchor span) :=
  (steady_offsets _).bind fun _ => (steady_label _ _).bind fun _ _ => trivial

theorem steady_close {c : OpenCollection}
    (heven : c.isMapping = true → c.children.length % 2 = 0) : Steady (close m c) := by
  unfold close
  dsimp only
  rw [if_neg]
  · exact (steady_offsets _).bind fun _ => (steady_offsets _).bind fun _ _ => trivial
  · rintro ⟨hmapping, hodd⟩
    rw [List.length_reverse] at hodd
    exact hodd (heven hmapping)

end Steady

/-! ## Steps at a role -/

section Progress

variable {m : SourceMap} {s : State} {nest : List OpenCollection} {e : Event} {span : Span}
  {look : Look} {w : List Sign}

/-- A step after which `w` is still to come, unless it fails with an offset. -/
def Leaves (s : State) (w : List Sign) (x : Build Unit) : Prop :=
  Yields TreeError.IsOffset (fun r => Role.ReadsAll r.2.stage.roles w) (x s)

/-- A node is put where it belongs. -/
theorem leaves_place {x : Build Node} (hx : Steady x)
    (hw : Role.ReadsAll (rolesBehind nest) w) : Leaves s w (x >>= place nest) := by
  refine (hx s).bind fun p _ => ?_
  show Yields _ _ (place nest p.1 p.2)
  rw [place_apply]
  show Role.ReadsAll _ w
  rwa [roles_placed]

/-- A collection is opened. -/
theorem leaves_opener (isMapping : Bool) {anchor : Nat}
    (hw : Role.ReadsAll ((if isMapping then .keys else .items) :: rolesBehind nest) w) :
    Leaves s w (insideEvent m nest (openerOf isMapping anchor) span) := by
  unfold Leaves
  rw [insideEvent_opener]
  have hopened : Yields TreeError.IsOffset
      (fun p => p.1.isMapping = isMapping ∧ p.1.children = [])
      (openCollection m isMapping anchor span s) := by
    refine (steady_openCollection isMapping anchor span s).of_ok ?_
    rintro ⟨c, s₁⟩ hc
    obtain ⟨hmapping, hchildren, -⟩ := openCollection_eq hc
    exact ⟨hmapping, hchildren⟩
  refine hopened.bind fun p hp => ?_
  show Role.ReadsAll (p.1.role 0 :: rolesBehind nest) w
  rw [OpenCollection.role, hp.1, hp.2]
  exact hw

/-- The innermost collection is closed. -/
theorem leaves_closer {c : OpenCollection} {outer : List OpenCollection}
    (heven : c.isMapping = true → c.children.length % 2 = 0)
    (hw : Role.ReadsAll (rolesBehind outer) w) :
    Leaves s w (do place outer (← close m c)) :=
  leaves_place (steady_close heven) hw

/-- The start of a node is taken inside a document. -/
theorem leaves_of_starts {roles : List Role} (hstage : s.stage = .inside nest)
    (h : Role.Starts (e.sign look) roles) (hw : Role.ReadsAll (roles ++ rolesBehind nest) w) :
    Leaves s w (step m e span) := by
  unfold Leaves
  rw [step_inside hstage]
  cases e with
  | scalar text style anchor =>
      cases h
      exact leaves_place (steady_scalar text style anchor span) hw
  | aliasTo anchor =>
      cases h
      exact leaves_place (steady_aliasNode anchor span) hw
  | sequenceStart anchor =>
      cases h
      exact leaves_opener false hw
  | mappingStart anchor =>
      cases h
      exact leaves_opener true hw
  | _ => cases h

/-- A sign of what an open collection still holds is taken, or the one that closes it. -/
theorem leaves_of_goes {c : OpenCollection} {outer : List OpenCollection} {roles : List Role}
    (hstage : s.stage = .inside (c :: outer)) (h : Role.Goes (c.role 0) (e.sign look) roles)
    (hw : Role.ReadsAll (roles ++ rolesBehind outer) w) : Leaves s w (step m e span) := by
  -- a node in the collection leaves what the collection still holds behind it
  have hnode : ∀ {roles : List Role}, Role.Starts (e.sign look) roles →
      Role.ReadsAll (roles ++ [c.role 1] ++ rolesBehind outer) w → Leaves s w (step m e span) := by
    intro roles hstarts hw
    rw [List.append_assoc] at hw
    exact leaves_of_starts hstage hstarts hw
  -- the closing sign is that of the collection
  have hclose : ∀ isMapping style, e.sign look = .closing (bracketOf isMapping style).closing →
      (c.isMapping = true → c.children.length % 2 = 0) → Role.ReadsAll (rolesBehind outer) w →
      Leaves s w (step m e span) := by
    intro isMapping style hsign heven hw
    unfold Leaves
    rw [step_inside hstage, (insideEvent_closer hsign c outer span).1]
    exact leaves_closer heven hw
  generalize hsign : e.sign look = sign at h
  have hzero : c.role 0 = if c.isMapping then
      if c.children.length % 2 = 0 then .keys else .values else .items := rfl
  have hone : c.role 1 = if c.isMapping then
      if (c.children.length + 1) % 2 = 0 then .keys else .values else .items := rfl
  cases hmapping : c.isMapping with
  | false =>
      rw [hmapping] at hzero hone
      rw [hzero] at h
      cases h with
      | item h =>
          rw [← hsign] at h
          rw [← show c.role 1 = .items from hone] at hw
          exact hnode h hw
      | itemsEnd => exact hclose false .block hsign (by rw [hmapping]; nofun) hw
  | true =>
      rw [hmapping] at hzero hone
      rcases Nat.mod_two_eq_zero_or_one c.children.length with heven | hodd
      · rw [hzero, if_pos rfl, if_pos heven] at h
        rw [if_pos rfl, if_neg (by omega)] at hone
        cases h with
        | key h =>
            rw [← hsign] at h
            rw [← hone] at hw
            exact hnode h hw
        | keysEnd => exact hclose true .block hsign (fun _ => heven) hw
      · rw [hzero, if_pos rfl, if_neg (by omega)] at h
        rw [if_pos rfl, if_pos (by omega)] at hone
        cases h with
        | value h =>
            rw [← hsign] at h
            rw [← hone] at hw
            exact hnode h hw

/-- **A step of the builder** takes an event that the first role has a sign for, and leaves what
completes that role. -/
theorem step_progress (h : Role.ReadsAll s.stage.roles (e.sign look :: w)) :
    Leaves s w (step m e span) := by
  cases hstage : s.stage with
  | beforeStream =>
      rw [hstage] at h
      obtain ⟨roles, hgoes, hw⟩ := Role.goes_of_readsAll h
      generalize hsign : e.sign look = sign at hgoes
      cases hgoes
      obtain rfl := streamStart_of_sign hsign
      unfold Leaves step
      rw [get_bind, hstage]
      exact hw
  | betweenDocuments =>
      rw [hstage] at h
      obtain ⟨roles, hgoes, hw⟩ := Role.goes_of_readsAll h
      generalize hsign : e.sign look = sign at hgoes
      unfold Leaves
      rw [step_between hstage]
      cases hgoes with
      | streamEnd =>
          obtain rfl := streamEnd_of_sign hsign
          exact hw
      | document =>
          obtain rfl := documentStart_of_sign hsign
          exact hw
  | afterContent =>
      rw [hstage] at h
      obtain ⟨roles, hgoes, hw⟩ := Role.goes_of_readsAll h
      generalize hsign : e.sign look = sign at hgoes
      cases hgoes
      obtain rfl := documentEnd_of_sign hsign
      unfold Leaves step
      rw [get_bind, hstage]
      exact hw
  | ended =>
      rw [hstage] at h
      cases h
  | inside nest =>
      rw [hstage] at h
      cases nest with
      | nil =>
          obtain ⟨roles, hgoes, hw⟩ := Role.goes_of_readsAll h
          cases hgoes with
          | node hstarts => exact leaves_of_starts hstage hstarts hw
      | cons c outer =>
          obtain ⟨roles, hgoes, hw⟩ := Role.goes_of_readsAll h
          exact leaves_of_goes hstage hgoes hw

/-- The same for all events, one after the other. -/
theorem steps_progress {events : List (Event × Span)} {signs : List Sign}
    (hfits : List.Forall₂ Event.Fits events signs) (h : Role.ReadsAll s.stage.roles signs) :
    Leaves s [] (steps m events) := by
  induction hfits generalizing s with
  | nil => exact h
  | @cons y sign rest signs hfit _ ih =>
      obtain ⟨e, span⟩ := y
      obtain ⟨look, rfl⟩ := hfit
      exact (step_progress h).bind fun p hp => ih hp

end Progress

end TreeBuilder

/-- **Well-nested events make a tree**, unless an offset is bad. -/
theorem Node.ofEvents_progress {m : SourceMap} {events : List (Event × Span)} {signs : List Sign}
    {contents : List Outline} (hfits : List.Forall₂ Event.Fits events signs)
    (hcontents : ∀ o ∈ contents, o.IsNode) (hsigns : signs = (Outline.stream contents).signs) :
    Yields TreeError.IsOffset (fun _ => True) (Node.ofEvents m events) := by
  have hstream : Role.ReadsAll TreeBuilder.start.stage.roles signs :=
    Role.readsAll_singleton ⟨contents, hcontents, hsigns⟩
  refine (TreeBuilder.steps_progress hfits hstream).bind fun p hp => ?_
  have hended : p.2.stage.roles = [] := Role.eq_nil_of_readsAll hp
  show Yields _ _ (TreeBuilder.finish m p.2)
  unfold TreeBuilder.finish
  cases hstage : p.2.stage with
  | inside nest =>
      rw [hstage] at hended
      cases nest <;> cases hended
  | ended => trivial
  | _ =>
      rw [hstage] at hended
      cases hended

end YamlEdit
