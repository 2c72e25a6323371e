import YamlEdit.Proofs.ValueEvents
import YamlEdit.Value.Read

/-!
# The value of a sheet

What a sheet is read as (`Outline.value?`) depends on its outline alone: not on the column where it
stands, nor on the margins in it.

Main statement: `Value.parse_sheet`.
-/

namespace YamlEdit

/-! ## The value of an outline -/

namespace Outline

mutual

/-- The value of an outline in which collections are nested no deeper than `depth`. -/
def value? : (depth : Nat) → Outline → Option Value
  | _, scalar text => (Value.ofPlain text).toOption
  | _, reference _ => none
  | depth, group bracket children =>
    match bracket, depth with
    | .sequence _, depth + 1 => (values? depth children).map .sequence
    | .mapping _, depth + 1 => (entries? depth [] children).map .mapping
    | _, _ => none

/-- The values of the items of a sequence. -/
def values? : (depth : Nat) → List Outline → Option (List Value)
  | _, [] => some []
  | depth, o :: rest => (value? depth o).bind fun v => (values? depth rest).map (v :: ·)

/-- The entries of a mapping, behind those that have been read, the last one first. No key occurs
twice. -/
def entries? : (depth : Nat) → (read : List (Value × Value)) → List Outline →
    Option (List (Value × Value))
  | _, read, [] => some read.reverse
  | _, _, [_] => none
  | depth, read, key :: node :: rest => (value? depth key).bind fun k =>
    if Value.hasKey read k then none
    else (value? depth node).bind fun v => entries? depth ((k, v) :: read) rest

end

end Outline

namespace Value.Decode

variable {α β : Type} {c : Contents} {fuel depth index : Nat} {path : Path} {start mark : Mark}
  {steps others : Rest}

theorem toOption_bind (x : Decode α) (f : α → Decode β) (n : Nat) :
    ((x >>= f) n).toOption = (x n).toOption.bind fun r => (f r.1 r.2).toOption := by
  show (Except.bind (x n) fun r => f r.1 r.2).toOption = _
  cases x n <;> rfl

/-- A reader takes steps, whatever is behind them, and gives what they stand for, if anything. -/
def Gives (r : Rest → Decode (α × Rest)) (steps : Rest) (x? : Option α) : Prop :=
  ∀ left n, (r (steps ++ left) n).toOption = x?.map fun x => ((x, left), n)

/-- An event that starts a node. -/
inductive IsStart : ReadStep → Prop where
  | word (w : Text) : IsStart (.event (.scalar w true .none))
  | sequence : IsStart (.event (.sequenceStart .none))
  | mapping : IsStart (.event (.mappingStart .none))

theorem gives_word (w : Text) :
    Gives (node c (fuel + 1) depth path false) [(.event (.scalar w true .none), mark)]
      (ofPlain w).toOption := by
  intro left n
  have hrun :
      node c (fuel + 1) depth path false ([(.event (.scalar w true .none), mark)] ++ left) n =
      (content path mark (ofPlain w) >>= fun v => pure (v, left) : Decode (Value × Rest)) n := by
    rw [node.eq_def]
    rfl
  rw [hrun, toOption_bind]
  cases h : ofPlain w <;> rfl

theorem gives_items_end :
    Gives (items c (fuel + 1) depth path index) [(.event .sequenceEnd, mark)] (some []) := by
  intro left n
  rw [items.eq_def]
  rfl

theorem gives_entries_end (read : List (Value × Value)) :
    Gives (entries c (fuel + 1) depth path start read) [(.event .mappingEnd, mark)]
      (some read.reverse) := by
  intro left n
  rw [entries.eq_def]
  rfl

/-- A sequence is nested one level deeper than its items. -/
theorem Gives.sequence {vs? : Nat → Option (List Value)} (mark : Mark)
    (h : ∀ depth, Gives (items c fuel depth path 0) steps (vs? depth)) :
    ∀ depth, Gives (node c (fuel + 1) depth path false)
      ((.event (.sequenceStart .none), mark) :: steps)
      (match depth with
        | 0 => none
        | depth + 1 => (vs? depth).map .sequence)
  | 0, left, n => by
      rw [List.cons_append, node.eq_def]
      rfl
  | depth + 1, left, n => by
      have hrun : node c (fuel + 1) (depth + 1) path false
          ((.event (.sequenceStart .none), mark) :: steps ++ left) n =
          (items c fuel depth path 0 (steps ++ left) >>= fun r =>
            (pure (.sequence r.1, r.2) : Decode (Value × Rest))) n := by
        rw [List.cons_append, node.eq_def]
        rfl
      rw [hrun, toOption_bind, h depth left n]
      show _ = ((vs? depth).map Value.sequence).map fun x => ((x, left), n)
      cases vs? depth <;> rfl

/-- A mapping is nested one level deeper than its entries. -/
theorem Gives.mapping {es? : Nat → Option (List (Value × Value))} (mark : Mark)
    (h : ∀ depth, Gives (entries c fuel depth path mark []) steps (es? depth)) :
    ∀ depth, Gives (node c (fuel + 1) depth path false)
      ((.event (.mappingStart .none), mark) :: steps)
      (match depth with
        | 0 => none
        | depth + 1 => (es? depth).map .mapping)
  | 0, left, n => by
      rw [List.cons_append, node.eq_def]
      rfl
  | depth + 1, left, n => by
      have hrun : node c (fuel + 1) (depth + 1) path false
          ((.event (.mappingStart .none), mark) :: steps ++ left) n =
          (entries c fuel depth path mark [] (steps ++ left) >>= fun r =>
            (pure (.mapping r.1, r.2) : Decode (Value × Rest))) n := by
        rw [List.cons_append, node.eq_def]
        rfl
      rw [hrun, toOption_bind, h depth left n]
      show _ = ((es? depth).map Value.mapping).map fun x => ((x, left), n)
      cases es? depth <;> rfl

/-- An item, and the items behind it. -/
theorem Gives.item {first : ReadStep × Mark} {v? : Option Value} {vs? : Option (List Value)}
    (hnode : Gives (node c fuel depth (.item path index) false) (first :: steps) v?)
    (hothers : Gives (items c fuel depth path (index + 1)) others vs?) (hfirst : IsStart first.1) :
    Gives (items c (fuel + 1) depth path index) (first :: steps ++ others)
      (v?.bind fun v => vs?.map (v :: ·)) := by
  intro left n
  have hrun : items c (fuel + 1) depth path index (first :: steps ++ others ++ left) n =
      (node c fuel depth (.item path index) false (first :: steps ++ (others ++ left)) >>= fun r =>
        items c fuel depth path (index + 1) r.2 >>= fun r' =>
          (pure (r.1 :: r'.1, r'.2) : Decode (List Value × Rest))) n := by
    obtain ⟨first, mark⟩ := first
    rw [List.append_assoc, List.cons_append, items.eq_def]
    cases hfirst <;> rfl
  rw [hrun, toOption_bind, hnode]
  cases v? with
  | none => rfl
  | some v =>
      show ((items c fuel depth path (index + 1) (others ++ left) >>= _) n).toOption = _
      rw [toOption_bind, hothers]
      cases vs? <;> rfl

/-- An entry, and the entries behind it. -/
theorem Gives.entry {name : Text} {read : List (Value × Value)} {k? v? : Option Value}
    {es? : List (Value × Value) → Option (List (Value × Value))}
    (hkey : Gives (node c fuel depth path false) [(.event (.scalar name true .none), mark)] k?)
    (hnode : Gives (node c fuel depth (.entry path name) false) steps v?)
    (hothers : ∀ read, Gives (entries c fuel depth path start read) others (es? read)) :
    Gives (entries c (fuel + 1) depth path start read)
      ((.event (.scalar name true .none), mark) :: (steps ++ others))
      (k?.bind fun k => if hasKey read k then none else v?.bind fun v => es? ((k, v) :: read)) := by
  intro left n
  have hrun : entries c (fuel + 1) depth path start read
      ((.event (.scalar name true .none), mark) :: (steps ++ others) ++ left) n =
      (node c fuel depth path false
        ([(.event (.scalar name true .none), mark)] ++ (steps ++ (others ++ left))) >>= fun r => do
          if hasKey read r.1 then fail (.content path start (.duplicate ⟨r.1⟩))
          node c fuel depth (.entry path name) false r.2 >>= fun r' =>
            entries c fuel depth path start ((r.1, r'.1) :: read) r'.2) n := by
    rw [List.cons_append, List.append_assoc, entries.eq_def]
    rfl
  rw [hrun, toOption_bind, hkey]
  cases k? with
  | none => rfl
  | some k =>
      simp only [Option.map_some, Option.bind_some]
      cases hkey : hasKey read k with
      | true => rfl
      | false =>
          show ((node c fuel depth (.entry path name) false (steps ++ (others ++ left)) >>= fun r =>
            entries c fuel depth path start ((k, r.1) :: read) r.2) n).toOption = _
          rw [toOption_bind, hnode]
          cases v? with
          | none => rfl
          | some v => exact hothers ((k, v) :: read) left n

theorem exists_start {t : Sheet} (h : steps.map (·.1) = t.outline.valueEvents.map ReadStep.event) :
    ∃ first others, steps = first :: others ∧ IsStart first.1 := by
  have hgroup : ∀ (head : Head) children, steps.map (·.1) =
      (Outline.group head.bracket children).valueEvents.map ReadStep.event →
        ∃ first others, steps = first :: others ∧ IsStart first.1 := by
    intro head children h
    rw [Outline.valueEvents] at h
    cases head with
    | dash gap =>
        obtain ⟨first, others, rfl, hfirst, -⟩ := List.map_eq_cons_iff.mp h
        exact ⟨first, others, rfl, hfirst ▸ .sequence⟩
    | key name gap =>
        obtain ⟨first, others, rfl, hfirst, -⟩ := List.map_eq_cons_iff.mp h
        exact ⟨first, others, rfl, hfirst ▸ .mapping⟩
  cases t with
  | word w margin =>
      obtain ⟨first, rfl, hfirst⟩ := List.map_eq_singleton_iff.mp h
      exact ⟨first, [], rfl, hfirst ▸ .word w⟩
  | last head node => exact hgroup head _ h
  | more head node rest => exact hgroup head _ h

/-- What the decoder gives for the steps of a sheet, as a node. -/
def GivesNode (c : Contents) (t : Sheet) : Prop :=
  ∀ ⦃steps : Rest⦄ ⦃fuel : Nat⦄, steps.length ≤ fuel →
    steps.map (·.1) = t.outline.valueEvents.map ReadStep.event → ∀ depth path,
      Gives (node c fuel depth path false) steps (t.outline.value? depth)

/-- What it gives for them as the items of a sequence. -/
def GivesItems (c : Contents) (t : Sheet) : Prop :=
  ∀ ⦃steps : Rest⦄ ⦃fuel : Nat⦄, steps.length ≤ fuel → steps.map (·.1) =
    (Outline.valueEventsOf t.outline.children ++ [Source.Event.sequenceEnd]).map ReadStep.event →
      ∀ depth path index,
        Gives (items c fuel depth path index) steps (Outline.values? depth t.outline.children)

/-- What it gives for them as the entries of a mapping. -/
def GivesEntries (c : Contents) (t : Sheet) : Prop :=
  ∀ ⦃steps : Rest⦄ ⦃fuel : Nat⦄, steps.length ≤ fuel → steps.map (·.1) =
    (Outline.valueEventsOf t.outline.children ++ [Source.Event.mappingEnd]).map ReadStep.event →
      ∀ depth path start read,
        Gives (entries c fuel depth path start read) steps
          (Outline.entries? depth read t.outline.children)

theorem GivesItems.node {c : Contents} {t : Sheet} {style : Style} {os : List Outline}
    (houtline : t.outline = .group (.sequence style) os) (h : GivesItems c t) : GivesNode c t := by
  intro steps fuel hfuel hsteps depth path
  rw [GivesItems, houtline] at h
  rw [houtline] at hsteps ⊢
  rw [Outline.valueEvents] at hsteps
  obtain ⟨⟨_, mark⟩, steps, rfl, rfl, hbehind⟩ := List.map_eq_cons_iff.mp hsteps
  obtain ⟨fuel, rfl⟩ := Nat.exists_eq_add_one.mpr (Nat.zero_lt_of_lt hfuel)
  have := Gives.sequence mark (fun depth => h (Nat.le_of_succ_le_succ hfuel) hbehind depth path 0)
    depth
  rw [Outline.value?.eq_def]
  cases depth <;> exact this

theorem GivesEntries.node {c : Contents} {t : Sheet} {style : Style} {os : List Outline}
    (houtline : t.outline = .group (.mapping style) os) (h : GivesEntries c t) : GivesNode c t := by
  intro steps fuel hfuel hsteps depth path
  rw [GivesEntries, houtline] at h
  rw [houtline] at hsteps ⊢
  rw [Outline.valueEvents] at hsteps
  obtain ⟨⟨_, mark⟩, steps, rfl, rfl, hbehind⟩ := List.map_eq_cons_iff.mp hsteps
  obtain ⟨fuel, rfl⟩ := Nat.exists_eq_add_one.mpr (Nat.zero_lt_of_lt hfuel)
  have := Gives.mapping mark
    (fun depth => h (Nat.le_of_succ_le_succ hfuel) hbehind depth path mark []) depth
  rw [Outline.value?.eq_def]
  cases depth <;> exact this

/-- An item of a sheet, and the items behind it. -/
theorem GivesNode.item {c : Contents} {t : Sheet} (h : GivesNode c t) (depth : Nat) (path : Path)
    (index : Nat) {own others : Rest}
    (hown : own.map (·.1) = t.outline.valueEvents.map ReadStep.event)
    (hfuel : (own ++ others).length ≤ fuel) (hpos : 0 < others.length) {vs? : Option (List Value)}
    (hothers : ∀ fuel index, others.length ≤ fuel →
      Gives (items c fuel depth path index) others vs?) :
    Gives (items c fuel depth path index) (own ++ others)
      ((t.outline.value? depth).bind fun v => vs?.map (v :: ·)) := by
  obtain ⟨first, behind, rfl, hfirst⟩ := exists_start hown
  simp only [List.length_append, List.length_cons] at hfuel
  obtain ⟨fuel, rfl⟩ := Nat.exists_eq_add_one.mpr (show 0 < fuel by omega)
  exact .item (h (by rw [List.length_cons]; omega) hown depth _)
    (hothers fuel (index + 1) (by omega)) hfirst

/-- An entry of a sheet, and the entries behind it. -/
theorem GivesNode.entry {c : Contents} {t : Sheet} (h : GivesNode c t) (name : Text) (mark : Mark)
    (depth : Nat) (path : Path) (start : Mark) {own others : Rest}
    (hown : own.map (·.1) = t.outline.valueEvents.map ReadStep.event)
    (hfuel : (own ++ others).length < fuel) (read : List (Value × Value))
    {es? : List (Value × Value) → Option (List (Value × Value))}
    (hothers : ∀ fuel read, others.length ≤ fuel →
      Gives (entries c fuel depth path start read) others (es? read)) :
    Gives (entries c fuel depth path start read)
      ((.event (.scalar name true .none), mark) :: (own ++ others))
      (((Outline.scalar name).value? depth).bind fun k =>
        if hasKey read k then none else (t.outline.value? depth).bind fun v =>
          es? ((k, v) :: read)) := by
  rw [List.length_append] at hfuel
  obtain ⟨first, behind, hfirst, -⟩ := exists_start hown
  have hpos : 0 < own.length := by
    rw [hfirst]
    exact Nat.zero_lt_succ _
  obtain ⟨fuel, rfl⟩ := Nat.exists_eq_add_one.mpr (show 0 < fuel by omega)
  obtain ⟨fuel, rfl⟩ := Nat.exists_eq_add_one.mpr (show 0 < fuel by omega)
  rw [Outline.value?]
  exact .entry (gives_word name) (h (by omega) hown depth _) fun read =>
    hothers (fuel + 1) read (by omega)

section Sheets

variable {c : Contents} {gap name : Text} {t others : Sheet}

theorem GivesNode.last_item (h : GivesNode c t) : GivesItems c (.last (.dash gap) t) := by
  intro steps fuel hfuel hsteps depth path index
  have hsteps : steps.map (·.1) = t.outline.valueEvents.map ReadStep.event ++
      [.event .sequenceEnd] := by
    simpa [Sheet.outline, Outline.children, Head.outlines] using hsteps
  obtain ⟨own, closing, rfl, hown, hclose⟩ := List.map_eq_append_iff.mp hsteps
  obtain ⟨⟨_, mark⟩, rfl, rfl⟩ := List.map_eq_singleton_iff.mp hclose
  have := h.item depth path index hown hfuel (Nat.zero_lt_succ _) fun fuel index hfuel => by
      obtain ⟨fuel, rfl⟩ := Nat.exists_eq_add_one.mpr hfuel
      exact gives_items_end
  simpa [Outline.values?, Sheet.outline, Outline.children, Head.outlines] using this

theorem GivesNode.more_item (h : GivesNode c t) (hothers : GivesItems c others) :
    GivesItems c (.more (.dash gap) t others) := by
  intro steps fuel hfuel hsteps depth path index
  have hsteps : steps.map (·.1) = t.outline.valueEvents.map ReadStep.event ++
      (Outline.valueEventsOf others.outline.children ++ [Source.Event.sequenceEnd]).map .event := by
    simpa [Sheet.outline, Outline.children, Head.outlines] using hsteps
  obtain ⟨own, behind, rfl, hown, hbehind⟩ := List.map_eq_append_iff.mp hsteps
  have hpos : 0 < behind.length := by
    rw [← List.length_map (·.1), hbehind]
    simp
  have := h.item depth path index hown hfuel hpos fun fuel index hfuel =>
    hothers hfuel hbehind depth path index
  simpa [Outline.values?, Sheet.outline, Outline.children, Head.outlines] using this

theorem GivesNode.last_entry (h : GivesNode c t) : GivesEntries c (.last (.key name gap) t) := by
  intro steps fuel hfuel hsteps depth path start read
  have hsteps : steps.map (·.1) = .event (.scalar name true .none) ::
      (t.outline.valueEvents.map ReadStep.event ++ [.event .mappingEnd]) := by
    simpa [Sheet.outline, Outline.children, Head.outlines, Outline.valueEvents] using hsteps
  obtain ⟨⟨_, mark⟩, behind, rfl, rfl, hbehind⟩ := List.map_eq_cons_iff.mp hsteps
  obtain ⟨own, closing, rfl, hown, hclose⟩ := List.map_eq_append_iff.mp hbehind
  obtain ⟨⟨_, _⟩, rfl, rfl⟩ := List.map_eq_singleton_iff.mp hclose
  have := h.entry name mark depth path start hown hfuel read fun fuel read hfuel => by
      obtain ⟨fuel, rfl⟩ := Nat.exists_eq_add_one.mpr hfuel
      exact gives_entries_end read
  simpa [Outline.entries?, Sheet.outline, Outline.children, Head.outlines] using this

theorem GivesNode.more_entry (h : GivesNode c t) (hothers : GivesEntries c others) :
    GivesEntries c (.more (.key name gap) t others) := by
  intro steps fuel hfuel hsteps depth path start read
  have hsteps : steps.map (·.1) = .event (.scalar name true .none) ::
      (t.outline.valueEvents.map ReadStep.event ++
        (Outline.valueEventsOf others.outline.children ++
          [Source.Event.mappingEnd]).map .event) := by
    simpa [Sheet.outline, Outline.children, Head.outlines, Outline.valueEvents] using hsteps
  obtain ⟨⟨_, mark⟩, behind, rfl, rfl, hbehind⟩ := List.map_eq_cons_iff.mp hsteps
  obtain ⟨own, rest, rfl, hown, hrest⟩ := List.map_eq_append_iff.mp hbehind
  have := h.entry name mark depth path start hown hfuel read fun fuel read hfuel =>
    hothers hfuel hrest depth path start read
  simpa [Outline.entries?, Sheet.outline, Outline.children, Head.outlines] using this

/-- **What the decoder gives for a sheet**, as a node and as a collection of its kind. -/
theorem gives_sheet {column : Nat} (ht : t.Fits column) (c : Contents) :
    GivesNode c t ∧ (t.head?.map Head.isKey = some false → GivesItems c t) ∧
      (t.head?.map Head.isKey = some true → GivesEntries c t) := by
  induction ht with
  | word _ _ =>
      refine ⟨fun steps fuel hfuel hsteps depth path => ?_, (fun h => by cases h), fun h => by cases h⟩
      obtain ⟨⟨_, mark⟩, rfl, rfl⟩ := List.map_eq_singleton_iff.mp hsteps
      obtain ⟨fuel, rfl⟩ := Nat.exists_eq_add_one.mpr hfuel
      rw [Sheet.outline, Outline.value?]
      exact gives_word _
  | @last column head node _ _ _ ih =>
      cases head with
      | dash gap =>
          have hitems : GivesItems c (.last (.dash gap) node) := ih.1.last_item
          exact ⟨hitems.node rfl, fun _ => hitems, fun h => by cases h⟩
      | key name gap =>
          have hentries : GivesEntries c (.last (.key name gap) node) := ih.1.last_entry
          exact ⟨hentries.node rfl, (fun h => by cases h), fun _ => hentries⟩
  | @more column head node others _ _ _ _ hkind _ ihnode ihothers =>
      cases head with
      | dash gap =>
          have hitems : GivesItems c (.more (.dash gap) node others) :=
            ihnode.1.more_item (ihothers.2.1 hkind)
          exact ⟨hitems.node rfl, fun _ => hitems, fun h => by cases h⟩
      | key name gap =>
          have hentries : GivesEntries c (.more (.key name gap) node others) :=
            ihnode.1.more_entry (ihothers.2.2 hkind)
          exact ⟨hentries.node rfl, (fun h => by cases h), fun _ => hentries⟩

end Sheets

end Value.Decode

/-! ## The value of a text -/

/-- An event without an anchor or a tag. -/
inductive Value.Source.Event.IsBare : Value.Source.Event → Prop where
  | scalar (w : Text) : IsBare (.scalar w true .none)
  | sequenceStart : IsBare (.sequenceStart .none)
  | sequenceEnd : IsBare .sequenceEnd
  | mappingStart : IsBare (.mappingStart .none)
  | mappingEnd : IsBare .mappingEnd

open Value.Source.Event (IsBare) in
theorem Sheet.isBare_of_mem (t : Sheet) : (∀ e ∈ t.outline.valueEvents, IsBare e) ∧
    ∀ e ∈ Outline.valueEventsOf t.outline.children, IsBare e := by
  have hgroup : ∀ {head : Head} {os : List Outline}, (∀ e ∈ Outline.valueEventsOf os, IsBare e) →
      ∀ e ∈ (Outline.group head.bracket os).valueEvents, IsBare e := by
    intro head os h e he
    rw [Outline.valueEvents, List.mem_append, List.mem_append] at he
    rcases he with he | he | he
    · cases head <;> obtain rfl := List.mem_singleton.mp he
      · exact .sequenceStart
      · exact .mappingStart
    · exact h e he
    · cases head <;> obtain rfl := List.mem_singleton.mp he
      · exact .sequenceEnd
      · exact .mappingEnd
  have hhead : ∀ {head : Head}, ∀ e ∈ head.valueEvents, IsBare e := by
    intro head e he
    cases head with
    | dash => cases he
    | key name => exact List.mem_singleton.mp he ▸ .scalar name
  induction t with
  | word w =>
      refine ⟨fun e he => ?_, fun e he => by cases he⟩
      rw [outline, Outline.valueEvents] at he
      exact List.mem_singleton.mp he ▸ .scalar w
  | last head node ih =>
      have hchildren : ∀ e ∈ Outline.valueEventsOf (last head node).outline.children, IsBare e := by
        intro e he
        simp only [outline, Outline.children, Outline.valueEventsOf_append,
          Head.valueEventsOf_outlines, Outline.valueEventsOf_cons, Outline.valueEventsOf_nil,
          List.append_nil, List.mem_append] at he
        exact he.elim (hhead e) (ih.1 e)
      exact ⟨hgroup hchildren, hchildren⟩
  | more head node rest ihnode ihrest =>
      have hchildren : ∀ e ∈ Outline.valueEventsOf (more head node rest).outline.children,
          IsBare e := by
        intro e he
        simp only [outline, Outline.children, Outline.valueEventsOf_append,
          Head.valueEventsOf_outlines, Outline.valueEventsOf_cons, List.mem_append] at he
        rcases he with he | he | he
        · exact hhead e he
        · exact ihnode.1 e he
        · exact ihrest.2 e he
      exact ⟨hgroup hchildren, hchildren⟩

namespace Value

open Source.Event (IsBare)

/-- Without anchors and aliases there is nothing to number. -/
theorem Contents.ofEvents_bare {events : List (Source.Event × Mark)}
    (h : ∀ e ∈ events, IsBare e.1) (fault : Option ReadError) (index : Nat) (n : Numbering) :
    Contents.ofEvents fault index n events =
      ⟨events.map fun e => (.event e.1, e.2), n.places, fault⟩ := by
  induction events generalizing index with
  | nil => rfl
  | cons e events ih =>
      obtain ⟨e, mark⟩ := e
      have hrest := fun index => ih (fun e he => h e (List.mem_cons_of_mem _ he)) index
      have he : IsBare e := h _ List.mem_cons_self
      cases he <;> rw [Contents.ofEvents] <;> simp [Source.Properties.none, Numbering.add, hrest]

/-- **A text that is a sheet behind a margin is read as what its outline stands for.** -/
theorem parse_sheet {g b : Text} {t : Sheet} (hg : Token.Margin g)
    (hfits : t.Fits (Text.columnBehind 0 g)) (hb : Token.IsBreak b ∨ b = [])
    (hlegible : (g ++ (t.body ++ b)).IsLegible) :
    (Value.parse (g ++ (t.body ++ b))).toOption = t.outline.value? maxDepth := by
  obtain ⟨events, hparse, hevents⟩ := Source.parse_sheet hg hfits hb hlegible
  have hbare : ∀ e ∈ events, IsBare e.1 := fun e he =>
    t.isBare_of_mem.1 e.1 (hevents ▸ List.mem_map_of_mem he)
  have hsteps : (events.map fun e => ((.event e.1, e.2) : ReadStep × Mark)).map (·.1) =
      t.outline.valueEvents.map ReadStep.event := by
    rw [← hevents, List.map_map, List.map_map]
    rfl
  have hempty : events.isEmpty = false := by
    obtain ⟨first, others, hsteps, -⟩ := Decode.exists_start hsteps
    cases events with
    | nil => cases hsteps
    | cons => rfl
  rw [parse, hparse, ofDocument, Contents.ofEvents_bare hbare]
  generalize events.map (fun e => ((.event e.1, e.2) : ReadStep × Mark)) = steps at *
  have hfuel : steps.length ≤ 3 * (maxDepth + 2) * (steps.length + 2) :=
    Nat.le_trans (Nat.le_add_right _ 2) (Nat.le_mul_of_pos_left _ (by decide))
  have hnode := (Decode.gives_sheet hfits ⟨steps, [], none⟩).1 hfuel hsteps maxDepth .whole [] 0
  rw [List.append_nil] at hnode
  simp only [hempty]
  rw [if_neg fun h => Bool.false_ne_true h.1]
  show ((fun x => x.1.1) <$> Decode.node ⟨steps, [], none⟩ _ maxDepth .whole false steps 0 >>=
    fun v => pure v : Except ReadError Value).toOption = _
  generalize Decode.node _ _ _ _ _ _ _ = r at hnode ⊢
  cases hvalue : t.outline.value? maxDepth with
  | none =>
      rw [hvalue] at hnode
      cases r with
      | error e => rfl
      | ok r => cases hnode
  | some v =>
      rw [hvalue] at hnode
      cases r with
      | error e => cases hnode
      | ok r =>
          obtain rfl := Option.some.inj hnode
          rfl

end Value

end YamlEdit
