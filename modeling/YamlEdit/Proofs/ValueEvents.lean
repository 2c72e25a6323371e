import YamlEdit.Proofs.ValueSheets
import YamlEdit.Value.Source.Event

/-!
# The events of a sheet that is read as a value

What a sheet says to a reader of values (`Outline.valueEvents`) depends on its outline alone.

Main statement: `parse_sheet`.
-/

namespace YamlEdit

/-! ## What an outline says -/

/-- The event at the start of a collection. -/
def Bracket.valueOpening : Bracket → List Value.Source.Event
  | sequence _ => [.sequenceStart .none]
  | mapping _ => [.mappingStart .none]
  | _ => []

/-- The event at the end of a collection. -/
def Bracket.valueClosing : Bracket → List Value.Source.Event
  | sequence _ => [.sequenceEnd]
  | mapping _ => [.mappingEnd]
  | _ => []

namespace Outline

mutual

/-- The events of an outline. -/
def valueEvents : Outline → List Value.Source.Event
  | scalar text => [.scalar text true .none]
  | reference name => [.aliasTo name]
  | group bracket children =>
      bracket.valueOpening ++ (valueEventsOf children ++ bracket.valueClosing)

/-- The events of outlines, one after the other. -/
def valueEventsOf : List Outline → List Value.Source.Event
  | [] => []
  | o :: rest => valueEvents o ++ valueEventsOf rest

end

@[simp] theorem valueEventsOf_nil : valueEventsOf [] = [] := by rw [valueEventsOf]

@[simp] theorem valueEventsOf_cons (o : Outline) (rest : List Outline) :
    valueEventsOf (o :: rest) = valueEvents o ++ valueEventsOf rest := by rw [valueEventsOf]

@[simp] theorem valueEventsOf_append (l l' : List Outline) :
    valueEventsOf (l ++ l') = valueEventsOf l ++ valueEventsOf l' := by
  induction l with
  | nil => simp
  | cons o l ih => simp [ih]

end Outline

namespace Head

/-- The events of the head itself. -/
def valueEvents : Head → List Value.Source.Event
  | dash _ => []
  | key name _ => [.scalar name true .none]

theorem valueEventsOf_outlines (head : Head) :
    Outline.valueEventsOf head.outlines = head.valueEvents := by
  cases head <;> simp [outlines, valueEvents, Outline.valueEvents]

end Head

namespace Sheet

/-- The tokens of a sheet with those that close what is open at its end. -/
def closedItems (inside : Bool) (t : Sheet) : List Token :=
  t.items inside ++ List.replicate t.depth .blockEnd

theorem closedItems_last (inside : Bool) (head : Head) (node : Sheet) :
    (last head node).closedItems inside =
      (if inside then [] else [head.openingItem]) ++
        (head.items ++ (node.closedItems false ++ [.blockEnd])) := by
  simp [closedItems, items, depth, List.replicate_succ']

theorem closedItems_more (inside : Bool) (head : Head) (node rest : Sheet) :
    (more head node rest).closedItems inside =
      (if inside then [] else [head.openingItem]) ++
        (head.items ++ (node.closedItems false ++ rest.closedItems true)) := by
  simp [closedItems, items, depth]

theorem closedItems_false {t : Sheet} {head : Head} (h : t.head? = some head) :
    t.closedItems false = head.openingItem :: t.closedItems true := by
  cases t with
  | word => cases h
  | last | more =>
      obtain rfl := Option.some.inj h
      simp [closedItems, items]

/-- What a node starts with. -/
inductive IsFirstItem : Token → Prop where
  | scalar (style : ScalarStyle) (text : Text) : IsFirstItem (.scalar style text)
  | sequence : IsFirstItem .blockSequenceStart
  | mapping : IsFirstItem .blockMappingStart

theorem exists_firstItem (t : Sheet) :
    ∃ first rest, t.closedItems false = first :: rest ∧ IsFirstItem first := by
  have hopening : ∀ head : Head, IsFirstItem head.openingItem := by
    intro head
    cases head with
    | dash => exact .sequence
    | key => exact .mapping
  cases t with
  | word w margin => exact ⟨_, _, rfl, .scalar .plain w⟩
  | last head node =>
      rw [closedItems_last]
      exact ⟨_, _, rfl, hopening head⟩
  | more head node rest =>
      rw [closedItems_more]
      exact ⟨_, _, rfl, hopening head⟩

end Sheet

/-! ## Reading the tokens -/

namespace Value.Source

/-- The reader in front of tokens, behind events. -/
def Parser.facing (tokens : List (Located Token)) (handles : List (Text × Text))
    (events : List (Event × Mark)) : Parser := ⟨tokens, none, handles, events⟩

namespace Parse

variable {tokens rest : List (Located Token)} {handles : List (Text × Text)}
  {events : List (Event × Mark)}

theorem bind_of_ok {α β : Type} {r : Parse α} {x : α} {p p' : Parser} (h : r p = (.ok x, p'))
    (f : α → Parse β) : (r >>= f) p = f x p' := by
  show ExceptT.bindCont f (r p).1 (r p).2 = _
  rw [h]
  rfl

/-- Entries of a collection are read by the rules of its kind. -/
def entries (head : Head) (fuel : Nat) (start : Mark) : Parse Unit :=
  if head.isKey then blockEntries fuel start else blockItems fuel start

/-- A step of reading takes tokens and meets events, whatever is around them. -/
def Takes (r : Parse Unit) (tokens : List (Located Token)) (met : List Event) : Prop :=
  ∃ es : List (Event × Mark), es.map (·.1) = met ∧ ∀ rest handles events,
    r (.facing (tokens ++ rest) handles events) =
      (.ok (), .facing rest handles (es.reverse ++ events))

section Takes

variable {fuel : Nat} {tokens others : List (Located Token)} {head : Head} {met met' : List Event}

theorem takes_word (fuel : Nat) (block indentless : Bool) (span : Span) (w : Text) :
    Takes (node (fuel + 1) block indentless) [⟨span, .scalar .plain w⟩] [.scalar w true .none] :=
  ⟨[(_, span.start)], rfl, fun _ _ _ => rfl⟩

/-- A collection is closed behind its last entry. -/
theorem takes_close (fuel : Nat) (start : Mark) (span : Span) (head : Head) :
    Takes (entries head (fuel + 1) start) [⟨span, .blockEnd⟩] head.bracket.valueClosing := by
  cases head <;> exact ⟨[(_, span.start)], rfl, fun _ _ _ => rfl⟩

/-- A collection is opened in front of its first entry. -/
theorem Takes.opening {span : Span} (h : Takes (entries head fuel span.start) tokens met)
    (indentless : Bool) :
    Takes (node (fuel + 1) true indentless) (⟨span, head.openingItem⟩ :: tokens)
      (head.bracket.valueOpening ++ met) := by
  obtain ⟨es, rfl, h⟩ := h
  cases head <;> refine ⟨(_, span.start) :: es, rfl, fun rest handles events => ?_⟩ <;>
    rw [List.reverse_cons, List.append_assoc] <;> exact h rest handles _

/-- An entry is taken: its head, its node, and what comes behind it. -/
theorem Takes.entry {heads : List (Located Token)} {start : Mark} {first : Located Token}
    (hnode : Takes (node fuel true head.isKey) (first :: tokens) met)
    (hothers : Takes (entries head fuel start) others met')
    (hheads : heads.map (·.item) = head.items) (hfirst : Sheet.IsFirstItem first.item)
    (hpos : 0 < fuel) : Takes (entries head (fuel + 1) start) (heads ++ (first :: tokens ++ others))
      (head.valueEvents ++ (met ++ met')) := by
  obtain ⟨fuel, rfl⟩ := Nat.exists_eq_add_one.mpr hpos
  obtain ⟨es, rfl, hnode⟩ := hnode
  obtain ⟨es', rfl, hothers⟩ := hothers
  obtain ⟨span, item⟩ := first
  cases head with
  | dash gap =>
      obtain ⟨⟨_, _⟩, rfl, rfl⟩ := List.map_eq_singleton_iff.mp hheads
      refine ⟨es ++ es', by simp [Head.valueEvents], fun rest handles events => ?_⟩
      have hrun := (bind_of_ok (hnode (others ++ rest) handles events)
        fun _ => blockItems (fuel + 1) start).trans (hothers rest handles (es.reverse ++ events))
      simp only [List.reverse_append, List.append_assoc]
      refine Eq.trans ?_ hrun
      cases hfirst <;> rfl
  | key name gap =>
      obtain ⟨⟨_, _⟩, _, rfl, rfl, hname⟩ := List.map_eq_cons_iff.mp hheads
      obtain ⟨⟨s, _⟩, _, rfl, rfl, hvalue⟩ := List.map_eq_cons_iff.mp hname
      obtain ⟨⟨_, _⟩, rfl, rfl⟩ := List.map_eq_singleton_iff.mp hvalue
      refine ⟨(.scalar name true .none, s.start) :: (es ++ es'), by simp [Head.valueEvents],
        fun rest handles events => ?_⟩
      have hrun := (bind_of_ok (hnode (others ++ rest) handles
        ((.scalar name true .none, s.start) :: events))
        fun _ => blockEntries (fuel + 1) start).trans (hothers rest handles _)
      simp only [List.reverse_cons, List.reverse_append, List.append_assoc]
      refine Eq.trans ?_ hrun
      cases hfirst <;> rfl

end Takes

theorem entries_congr {head head' : Head} (h : head.isKey = head'.isKey) :
    entries head = entries head' := by
  funext fuel start
  rw [entries, entries, h]

theorem exists_first {t : Sheet} {tokens : List (Located Token)}
    (h : tokens.map (·.item) = t.closedItems false) :
    ∃ first others, tokens = first :: others ∧ Sheet.IsFirstItem first.item := by
  obtain ⟨item, items, hitems, hfirst⟩ := t.exists_firstItem
  rw [hitems] at h
  obtain ⟨first, others, rfl, rfl, -⟩ := List.map_eq_cons_iff.mp h
  exact ⟨first, others, rfl, hfirst⟩

/-- What an entry of a sheet says, and what comes behind it. -/
theorem Takes.sheet_entry {fuel : Nat} {heads tokens others : List (Located Token)} {head : Head}
    {met met' : List Event} {start : Mark} {node : Sheet}
    (hheads : heads.map (·.item) = head.items)
    (htokens : tokens.map (·.item) = node.closedItems false)
    (hfuel : (heads ++ (tokens ++ others)).length ≤ fuel)
    (hnode : ∀ fuel, tokens.length ≤ fuel → Takes (Parse.node fuel true head.isKey) tokens met)
    (hothers : ∀ fuel, others.length ≤ fuel → Takes (entries head fuel start) others met') :
    Takes (entries head fuel start) (heads ++ (tokens ++ others))
      (head.valueEvents ++ (met ++ met')) := by
  obtain ⟨first, tokens, rfl, hfirst⟩ := exists_first htokens
  have hpos : 0 < heads.length := by
    rw [← List.length_map (·.item), hheads]
    cases head <;> exact Nat.zero_lt_succ _
  simp only [List.length_append, List.length_cons] at hfuel
  obtain ⟨fuel, rfl⟩ := Nat.exists_eq_add_one.mpr (show 0 < fuel by omega)
  exact .entry (hnode fuel (by rw [List.length_cons]; omega)) (hothers fuel (by omega)) hheads
    hfirst (by omega)

/-- A collection is taken as a node if its entries are taken. -/
theorem takes_collection {t : Sheet} {head : Head} (hhead : t.head? = some head)
    (houtline : t.outline = .group head.bracket t.outline.children)
    (h : ∀ {fuel} {tokens : List (Located Token)} (start), tokens.length ≤ fuel →
      tokens.map (·.item) = t.closedItems true → Takes (entries head fuel start) tokens
        (Outline.valueEventsOf t.outline.children ++ head.bracket.valueClosing))
    {tokens : List (Located Token)} {fuel : Nat} (hfuel : tokens.length ≤ fuel) :
    (∀ indentless, tokens.map (·.item) = t.closedItems false →
      Takes (node fuel true indentless) tokens t.outline.valueEvents) ∧
    ∀ (head : Head) start, t.head?.map Head.isKey = some head.isKey →
      tokens.map (·.item) = t.closedItems true →
        Takes (entries head fuel start) tokens
          (Outline.valueEventsOf t.outline.children ++ head.bracket.valueClosing) := by
  refine ⟨fun indentless htokens => ?_, fun head' start hkind htokens => ?_⟩
  · rw [Sheet.closedItems_false hhead] at htokens
    obtain ⟨⟨span, _⟩, tokens, rfl, rfl, hitems⟩ := List.map_eq_cons_iff.mp htokens
    obtain ⟨fuel, rfl⟩ := Nat.exists_eq_add_one.mpr (Nat.zero_lt_of_lt hfuel)
    rw [houtline, Outline.valueEvents]
    exact (h span.start (Nat.le_of_succ_le_succ hfuel) hitems).opening indentless
  · rw [hhead] at hkind
    have hkey : head.isKey = head'.isKey := Option.some.inj hkind
    have hbracket : head.bracket = head'.bracket := by rw [Head.bracket, Head.bracket, hkey]
    rw [← entries_congr hkey, ← hbracket]
    exact h start hfuel htokens

/-- **The reader takes the tokens of a sheet**, as a node and as the entries of a collection. -/
theorem takes_sheet {column : Nat} {t : Sheet} (ht : t.Fits column) {tokens : List (Located Token)}
    {fuel : Nat} (hfuel : tokens.length ≤ fuel) :
    (∀ indentless, tokens.map (·.item) = t.closedItems false →
      Takes (node fuel true indentless) tokens t.outline.valueEvents) ∧
    ∀ (head : Head) start, t.head?.map Head.isKey = some head.isKey →
      tokens.map (·.item) = t.closedItems true →
        Takes (entries head fuel start) tokens
          (Outline.valueEventsOf t.outline.children ++ head.bracket.valueClosing) := by
  induction ht generalizing tokens fuel with
  | word _ _ =>
      refine ⟨fun indentless htokens => ?_, fun _ _ h => nomatch h⟩
      obtain ⟨⟨span, _⟩, rfl, rfl⟩ := List.map_eq_singleton_iff.mp htokens
      obtain ⟨fuel, rfl⟩ := Nat.exists_eq_add_one.mpr hfuel
      exact takes_word fuel true indentless span _
  | @last column head node _ _ _ ih =>
      refine takes_collection (t := .last head node) rfl rfl (fun start hfuel htokens => ?_) hfuel
      rw [Sheet.closedItems_last, if_pos rfl, List.nil_append] at htokens
      obtain ⟨heads, behind, rfl, hheads, hbehind⟩ := List.map_eq_append_iff.mp htokens
      obtain ⟨own, closing, hsplit, hnode, hclose⟩ := List.map_eq_append_iff.mp hbehind
      obtain ⟨⟨span, _⟩, hclosing, rfl⟩ := List.map_eq_singleton_iff.mp hclose
      subst hsplit hclosing
      have := Takes.sheet_entry hheads hnode hfuel
        (fun fuel hfuel => (ih hfuel).1 _ hnode) fun fuel hfuel => by
          obtain ⟨fuel, rfl⟩ := Nat.exists_eq_add_one.mpr hfuel
          exact takes_close fuel start span head
      simpa [Sheet.outline, Outline.children, Head.valueEventsOf_outlines] using this
  | @more column head node others _ _ _ _ hkind _ ihnode ihothers =>
      refine takes_collection (t := .more head node others) rfl rfl
        (fun start hfuel htokens => ?_) hfuel
      rw [Sheet.closedItems_more, if_pos rfl, List.nil_append] at htokens
      obtain ⟨heads, behind, rfl, hheads, hbehind⟩ := List.map_eq_append_iff.mp htokens
      obtain ⟨own, others, hsplit, hnode, hothers⟩ := List.map_eq_append_iff.mp hbehind
      subst hsplit
      have := Takes.sheet_entry hheads hnode hfuel
        (fun fuel hfuel => (ihnode hfuel).1 _ hnode)
        fun fuel hfuel => (ihothers hfuel).2 head start hkind hothers
      simpa [Sheet.outline, Outline.children, Head.valueEventsOf_outlines] using this

/-- A node that is all there is in a document. -/
theorem document_of_node {t : Sheet} {own : List (Located Token)} {first last : Span}
    {met : List Event} (hown : own.map (·.item) = t.closedItems false)
    (hnode : ∀ fuel, own.length ≤ fuel → Takes (node fuel true false) own met) :
    ∃ es : List (Event × Mark), es.map (·.1) = met ∧
      document (.facing (⟨first, .streamStart⟩ :: (own ++ [⟨last, .streamEnd⟩])) [] []) =
        (.ok (), .facing [⟨last, .streamEnd⟩] defaultHandles es.reverse) := by
  obtain ⟨es, hes, hrun⟩ :=
    hnode (3 * (own ++ [(⟨last, .streamEnd⟩ : Located Token)]).length + 8) (by
      rw [List.length_append]
      omega)
  have hrun := hrun [⟨last, .streamEnd⟩] defaultHandles []
  obtain ⟨⟨span, item⟩, others, rfl, hfirst⟩ := exists_first hown
  refine ⟨es, hes, ?_⟩
  rw [List.append_nil] at hrun
  refine Eq.trans ?_ (bind_of_ok hrun fun _ => do
    if (← peek).item = .documentEnd then skip)
  cases hfirst <;> rfl

end Parse

/-- The document is all there is of the text. -/
theorem parse_of_document {text : Text} {tokens : List (Located Token)}
    {handles : List (Text × Text)} {es : List (Event × Mark)} {last : Span}
    (hscan : scan text = ⟨tokens, none⟩) (hrun : Parse.document (.facing tokens [] []) =
      (.ok (), .facing [⟨last, .streamEnd⟩] handles es.reverse)) :
    parse text = ⟨es, none, true⟩ := by
  have hrun : Parse.document.run.run ⟨tokens, none, [], []⟩ =
    (.ok (), .facing [⟨last, .streamEnd⟩] handles es.reverse) := hrun
  unfold parse
  rw [hscan]
  dsimp only
  rw [hrun]
  exact congrArg (Document.mk · none true) (List.reverse_reverse es)

/-- **The events of a text that is a sheet behind a margin**, without their places. -/
theorem parse_sheet {g b : Text} {t : Sheet} (hg : Token.Margin g)
    (hfits : t.Fits (Text.columnBehind 0 g)) (hb : Token.IsBreak b ∨ b = [])
    (hlegible : (g ++ (t.body ++ b)).IsLegible) :
    ∃ events, parse (g ++ (t.body ++ b)) = ⟨events, none, true⟩ ∧
      events.map (·.1) = t.outline.valueEvents := by
  obtain ⟨tokens, hscan, hitems⟩ := scan_sheet hg hfits hb hlegible
  obtain ⟨⟨first, _⟩, behind, rfl, rfl, hbehind⟩ := List.map_eq_cons_iff.mp hitems
  obtain ⟨own, closing, hsplit, hown, hclose⟩ := List.map_eq_append_iff.mp hbehind
  obtain ⟨⟨last, _⟩, hclosing, rfl⟩ := List.map_eq_singleton_iff.mp hclose
  subst hsplit hclosing
  obtain ⟨es, hes, hrun⟩ := Parse.document_of_node hown
    fun fuel hfuel => (Parse.takes_sheet hfits hfuel).1 false hown
  exact ⟨es, parse_of_document hscan hrun, hes⟩

end Value.Source

end YamlEdit
