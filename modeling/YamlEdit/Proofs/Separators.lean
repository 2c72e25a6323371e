import YamlEdit.Proofs.Restoring

/-!
# Commas between entries

The inside of brackets is well separated (`Inside.Separated`) if there are blanks in front of the
first entry, one comma with blanks around it in front of each other one, and blanks with one comma
at most behind the last one. A cut in brackets takes one comma along and a new entry brings one of
its own, wherever the blanks and the line breaks are: main statement,
`Bracketed.separated_of_edits`.

The blanks that the planners pass over are those of Unicode, and those between entries are of ASCII
only. What keeps a cut from reaching into an entry, or over a bracket or a second comma, is that
none of these starts with a blank.
-/

namespace YamlEdit

/-! ## Blanks and commas -/

namespace Text

/-- Nothing but blanks of ASCII. -/
def IsGap (t : Text) : Prop := ∀ c ∈ t, isAsciiBlank c = true

/-- One comma, with blanks around it. -/
def IsComma (t : Text) : Prop := ∃ x y : Text, x.IsGap ∧ y.IsGap ∧ t = x ++ ',' :: y

/-- What may be in front of an entry: blanks in front of the first one, and a comma in front of each
other one. -/
def IsLead (first : Bool) (t : Text) : Prop := if first then t.IsGap else t.IsComma

/-- A text that starts with something to be seen. -/
def StartsInk (t : Text) : Prop := ∃ c rest, t = c :: rest ∧ isBlank c = false

section Gaps

variable {x y t : Text}

@[simp] theorem isGap_nil : IsGap [] := by
  intro c hc
  cases hc

@[simp] theorem isGap_append : IsGap (x ++ y) ↔ x.IsGap ∧ y.IsGap := by
  simp only [IsGap, List.mem_append]
  grind

/-- Something to be seen is no part of blanks. -/
theorem not_allBlank_of_mem {c : Char} (hc : c ∈ t) (hink : isBlank c = false) :
    t.allBlank = false := by
  rw [allBlank, List.all_eq_false]
  exact ⟨c, hc, by simp [hink]⟩

theorem isLead_true : IsLead true t ↔ t.IsGap := by simp [IsLead]

theorem isLead_false : IsLead false t ↔ t.IsComma := by simp [IsLead]

theorem IsGap.append_isComma (hx : x.IsGap) (ht : t.IsComma) : (x ++ t).IsComma := by
  obtain ⟨u, v, hu, hv, rfl⟩ := ht
  refine ⟨x ++ u, v, ?_, hv, by simp⟩
  simp [hx, hu]

theorem IsComma.append_isGap (ht : t.IsComma) (hx : x.IsGap) : (t ++ x).IsComma := by
  obtain ⟨u, v, hu, hv, rfl⟩ := ht
  refine ⟨u, v ++ x, hu, ?_, by simp⟩
  simp [hx, hv]

theorem IsLead.append_isGap {first : Bool} (ht : t.IsLead first) (hx : x.IsGap) :
    (t ++ x).IsLead first := by
  cases first with
  | true =>
      rw [isLead_true] at *
      simp [ht, hx]
  | false =>
      rw [isLead_false] at *
      exact ht.append_isGap hx

/-- Blanks at the end can go: the comma is not among them. -/
theorem IsLead.of_append {first : Bool} (h : (x ++ y).IsLead first) (hy : y.allBlank = true) :
    x.IsLead first := by
  cases first with
  | true =>
      rw [isLead_true] at *
      exact (isGap_append.mp h).1
  | false =>
      rw [isLead_false] at *
      obtain ⟨u, v, hu, hv, heq⟩ := h
      rcases List.append_eq_append_iff.mp heq with ⟨w, rfl, hcomma⟩ | ⟨w, rfl, hcomma⟩
      · -- the comma would be one of the blanks
        have hmem : ',' ∈ y := by simp [hcomma]
        rw [not_allBlank_of_mem hmem rfl] at hy
        cases hy
      · cases w with
        | nil =>
            have hmem : ',' ∈ y := by simp at hcomma; simp [← hcomma]
            rw [not_allBlank_of_mem hmem rfl] at hy
            cases hy
        | cons c w =>
            obtain ⟨rfl, rfl⟩ := List.cons.inj hcomma
            exact ⟨u, w, hu, (isGap_append.mp hv).1, rfl⟩

/-- Blanks in front of something to be seen are all that is skipped. -/
theorem dropWhile_isAsciiBlank {c : Char} (hx : x.IsGap) (hc : isAsciiBlank c = false) :
    (x ++ c :: t).dropWhile isAsciiBlank = c :: t := by
  rw [List.dropWhile_append_of_pos hx, List.dropWhile_cons_of_neg (by simp [hc])]

/-- The comma that follows is the one of the lead. -/
theorem afterComma_append (hx : x.IsGap) :
    Plan.Flow.afterComma (x ++ ',' :: t) = some t := by
  unfold Plan.Flow.afterComma
  rw [dropWhile_isAsciiBlank hx rfl]
  rfl

theorem trimEnd_append_isGap {c : Char} (hc : isBlank c = false) (hx : x.IsGap) :
    trimEnd (t ++ c :: x) = t ++ [c] := by
  have hreverse : (t ++ c :: x).reverse = x.reverse ++ c :: t.reverse := by simp
  have hblank : ∀ d ∈ x.reverse, isBlank d = true := by
    intro d hd
    exact isBlank_of_isAsciiBlank (hx d (by simpa using hd))
  unfold trimEnd
  rw [hreverse, List.dropWhile_append_of_pos hblank, List.dropWhile_cons_of_neg (by simp [hc])]
  simp

end Gaps

end Text

/-! ## Collections in brackets -/

/-- An entry, with what is in front of it. -/
structure Cell where
  lead : Text
  entry : Text

/-- The text of an entry, with what is in front of it. -/
def Cell.text (c : Cell) : Text := c.lead ++ c.entry

/-- What is inside the brackets of a collection. -/
structure Inside where
  cells : List Cell
  /-- What is behind the last entry. -/
  tail : Text

/-- Whether entries have the leads that they should have, the first one being the first of all or
not. -/
def Cell.Separated : (first : Bool) → List Cell → Prop
  | _, [] => True
  | first, c :: rest => c.lead.IsLead first ∧ Separated false rest

namespace Inside

/-- The entries. -/
def entries (t : Inside) : List Text := t.cells.map (·.entry)

/-- The text between the brackets. -/
def text (t : Inside) : Text := t.cells.flatMap Cell.text ++ t.tail

/-- **Well separated**: blanks in front of the first entry, one comma between neighbours, and blanks
with one comma at most behind the last one. -/
structure Separated (t : Inside) : Prop where
  leads : Cell.Separated true t.cells
  tail : t.tail.IsGap ∨ t.cells ≠ [] ∧ t.tail.IsComma

end Inside

/-- A collection in brackets in a text. -/
structure Bracketed where
  isMapping : Bool
  front : Text
  inside : Inside
  back : Text

namespace Bracketed

/-- The whole text. -/
def source (b : Bracketed) : Text :=
  b.front ++ openingBracket b.isMapping ::
    (b.inside.text ++ closingBracket b.isMapping :: b.back)

/-- The text in front of what follows some entries. -/
def ahead (b : Bracketed) (cells : List Cell) : Text :=
  b.front ++ openingBracket b.isMapping :: cells.flatMap Cell.text

/-- The text in front of an entry. -/
def before (b : Bracketed) (i : Nat) : Text :=
  b.ahead (b.inside.cells.take i) ++ (b.inside.cells[i]?.map (·.lead)).getD []

/-- The text up to the end of an entry. -/
def through (b : Bracketed) (i : Nat) : Text := b.ahead (b.inside.cells.take (i + 1))

/-- The number of the child that an entry starts with. -/
def firstChild (b : Bracketed) (i : Nat) : Nat := if b.isMapping then 2 * i else i

/-- The number of the child that an entry ends with. -/
def lastChild (b : Bracketed) (i : Nat) : Nat := if b.isMapping then 2 * i + 1 else i

/-- **The nodes stand where the text says**: the collection from its opening bracket to its closing
one, and the children of each entry from the start of the entry to its end. -/
structure Stands (b : Bracketed) (s : Snapshot) (n : Node) : Prop where
  map : s.map = SourceMap.ofText b.source
  flow : n.isFlow = true
  mapping : n.isMapping = b.isMapping
  start : s.startOf n = Text.size b.front
  stop : s.stopOf n = Text.size b.front + 1 + Text.size b.inside.text + 1
  count : n.children.length = b.firstChild b.inside.cells.length
  starts : ∀ i < b.inside.cells.length,
    (n.children[b.firstChild i]?).map s.startOf = some (Text.size (b.before i))
  stops : ∀ i < b.inside.cells.length,
    (n.children[b.lastChild i]?).map s.stopOf = some (Text.size (b.through i))

/-- The collection with other things inside. -/
def withInside (b : Bracketed) (t : Inside) : Bracketed := { b with inside := t }

end Bracketed

/-- What an operation on a collection in brackets does to its entries. -/
inductive Bracketed.Edits (b : Bracketed) (s : Snapshot) (n : Node) :
    Operation → List Text → Prop where
  | delete {path : Text} {target : Target} {i : Nat} (hi : i < b.inside.cells.length)
      (hpath : s.resolve path = .ok target)
      (hentry : target.entry .delete = .ok (n, b.lastChild i))
      (hlast : n.children[b.lastChild i]? = some target.node) :
      Edits b s n (.delete path) (b.inside.entries.eraseIdx i)
  | seqAdd {path : Text} {value : Value} {index : Option Nat} {target : Target} {f : Fragment}
      (hpath : s.resolve path = .ok target) (hnode : target.node = n)
      (hsequence : b.isMapping = false) (hf : Fragment.ofValue value = .ok f)
      (hinline : f.isInline = true) :
      Edits b s n (.seqAdd path value index)
        (b.inside.entries.insertIdx
          (Outline.insertionPlace index b.inside.entries.length) f.text.trim)
  | mapAdd {path key : Text} {value : Value} {target : Target} {k f : Fragment}
      (hpath : s.resolve path = .ok target) (hnode : target.node = n)
      (hmapping : b.isMapping = true) (hk : Fragment.ofValue (.string key) = .ok k)
      (hline : k.isMultiline = false) (hf : Fragment.ofValue value = .ok f)
      (hinline : f.isInline = true) :
      Edits b s n (.mapAdd path key value)
        (b.inside.entries ++ [k.text ++ ": ".toList ++ f.text.trim])

/-- A splice leaves a well separated collection with the given entries, and everything around it
alone. -/
def Bracketed.Leaves (b : Bracketed) (splice : Splice) (entries : List Text) : Prop :=
  ∃ t : Inside, t.Separated ∧ t.entries = entries ∧
    splice.apply b.source = .ok (b.withInside t).source

namespace Cell

theorem separated_append {first : Bool} {xs ys : List Cell} :
    Separated first (xs ++ ys) ↔ Separated first xs ∧ Separated (first && xs.isEmpty) ys := by
  induction xs generalizing first with
  | nil => simp [Separated]
  | cons x xs ih => simp [Separated, ih, and_assoc]

end Cell

namespace Bracketed

/-! ## Texts in parts -/

/-- The text from some entries on. -/
def behind (b : Bracketed) (cells : List Cell) (tail : Text) : Text :=
  cells.flatMap Cell.text ++ (tail ++ closingBracket b.isMapping :: b.back)

section Parts

variable {b : Bracketed} {xs ys : List Cell} {c : Cell} {tail : Text}

@[simp] theorem source_withInside :
    (b.withInside ⟨xs ++ ys, tail⟩).source = b.ahead xs ++ b.behind ys tail := by
  simp [source, withInside, ahead, behind, Inside.text]

@[simp] theorem behind_cons :
    b.behind (c :: ys) tail = c.lead ++ (c.entry ++ b.behind ys tail) := by
  simp [behind, Cell.text]

@[simp] theorem ahead_append_singleton :
    b.ahead (xs ++ [c]) = b.ahead xs ++ (c.lead ++ c.entry) := by
  simp [ahead, Cell.text]

theorem source_eq (h : b.inside = ⟨xs ++ ys, tail⟩) :
    b.source = b.ahead xs ++ b.behind ys tail := by
  rw [← source_withInside, ← h]
  rfl

theorem before_eq (h : b.inside = ⟨xs ++ c :: ys, tail⟩) :
    b.before xs.length = b.ahead xs ++ c.lead := by
  simp [before, h]

theorem through_eq (h : b.inside = ⟨xs ++ c :: ys, tail⟩) :
    b.through xs.length = b.ahead xs ++ (c.lead ++ c.entry) := by
  simp [through, h, List.take_append, List.take_of_length_le]

end Parts

/-! ## What is on the line in front of an entry -/

/-- **Blanks in front of an entry are part of its lead**: a bracket or a comma is in front of
them. -/
theorem lead_of_blank {b : Bracketed} {xs ys : List Cell} {c : Cell} {front line : Text}
    (hleads : Cell.Separated true (xs ++ c :: ys)) (htext : b.ahead xs ++ c.lead = front ++ line)
    (hblank : line.allBlank = true) :
    ∃ u : Text, c.lead = u ++ line ∧ front = b.ahead xs ++ u := by
  rcases List.append_eq_append_iff.mp htext with ⟨u, hfront, hlead⟩ | ⟨w, hahead, hline⟩
  · exact ⟨u, hlead, hfront⟩
  · -- the line would start in front of the lead, with something to be seen
    cases xs with
    | nil =>
        rcases List.eq_nil_or_concat w with rfl | ⟨w, d, rfl⟩
        · exact ⟨[], by simpa using hline.symm, by simpa using hahead.symm⟩
        · have hbracket : d = openingBracket b.isMapping := by
            simp only [ahead, List.flatMap_nil, List.concat_eq_append, ← List.append_assoc]
              at hahead
            exact (List.append_inj' hahead rfl).2 |> List.cons.inj |>.1 |>.symm
          have hmem : openingBracket b.isMapping ∈ line := by simp [hline, hbracket]
          have hink : Text.isBlank (openingBracket b.isMapping) = false := by
            cases b.isMapping <;> rfl
          rw [Text.not_allBlank_of_mem hmem hink] at hblank
          cases hblank
    | cons x xs =>
        have hcomma := (Cell.separated_append.mp hleads).2.1
        rw [List.isEmpty_cons, Bool.and_false, Text.isLead_false] at hcomma
        obtain ⟨u, v, -, -, hlead⟩ := hcomma
        have hmem : ',' ∈ line := by simp [hline, hlead]
        rw [Text.not_allBlank_of_mem hmem rfl] at hblank
        cases hblank

/-! ## Cuts and insertions -/

section Cuts

variable {b : Bracketed} {s : Snapshot} {n : Node} {xs ys : List Cell} {c d : Cell}
  {tail : Text}

/-- **Two leads are made one**: of the first one blanks at the end are cut off, and of the second
one all up to some blanks behind the comma. -/
theorem leaves_of_remove {u v x y z : Text} (hinside : b.inside = ⟨xs ++ c :: d :: ys, tail⟩)
    (hsep : b.inside.Separated) (hc : c.lead = u ++ v) (hv : v.allBlank = true)
    (hd : d.lead = x ++ ',' :: (y ++ z)) (hz : z.IsGap) :
    b.Leaves (Splice.remove (Text.size (b.ahead xs ++ u))
      (Text.size (b.ahead xs ++ u ++ (v ++ (c.entry ++ (x ++ ',' :: y))))))
      (xs ++ d :: ys |>.map (·.entry)) := by
  have hsource : b.source = b.ahead xs ++ u ++ ((v ++ (c.entry ++ (x ++ ',' :: y))) ++
      (z ++ (d.entry ++ b.behind ys tail))) := by
    simp [source_eq hinside, hc, hd]
  refine ⟨⟨xs ++ ⟨u ++ z, d.entry⟩ :: ys, tail⟩, ⟨?_, ?_⟩, ?_, ?_⟩
  · -- the new lead is of the kind of the first one
    have hleads := hsep.leads
    rw [hinside] at hleads
    obtain ⟨hxs, hlead, -, hys⟩ := Cell.separated_append.mp hleads
    refine Cell.separated_append.mpr ⟨hxs, ?_, hys⟩
    rw [hc] at hlead
    exact (hlead.of_append hv).append_isGap hz
  · have htail := hsep.tail
    rw [hinside] at htail
    simpa using htail
  · simp [Inside.entries]
  · rw [hsource, Splice.apply_remove, source_withInside, behind_cons]
    simp

/-- **The last entry goes with the comma in its lead.** -/
theorem leaves_of_removeLast {x y : Text} (hinside : b.inside = ⟨xs ++ [c], tail⟩)
    (hsep : b.inside.Separated) (hmore : xs ≠ []) (hc : c.lead = x ++ ',' :: y)
    (hx : x.IsGap) :
    b.Leaves (Splice.remove (Text.size (b.ahead xs ++ x))
      (Text.size (b.ahead xs ++ x ++ (',' :: (y ++ c.entry))))) (xs.map (·.entry)) := by
  have hsource : b.source = b.ahead xs ++ x ++ ((',' :: (y ++ c.entry)) ++ b.behind [] tail) := by
    simp [source_eq hinside, hc]
  obtain ⟨hleads, htail⟩ := hsep
  rw [hinside] at hleads htail
  refine ⟨⟨xs, x ++ tail⟩, ⟨(Cell.separated_append.mp hleads).1, ?_⟩, rfl, ?_⟩
  · rcases htail with htail | ⟨-, htail⟩
    · left
      simp [hx, htail]
    · right
      exact ⟨hmore, hx.append_isComma htail⟩
  · have hxs : (b.withInside ⟨xs ++ [], x ++ tail⟩).source = _ := source_withInside
    rw [List.append_nil] at hxs
    rw [hsource, Splice.apply_remove, hxs]
    simp [behind]

/-- **A new entry in front of another one takes its lead**, and brings a comma for it. -/
theorem leaves_of_insert (hinside : b.inside = ⟨xs ++ c :: ys, tail⟩) (hsep : b.inside.Separated)
    (content : Text) :
    b.Leaves (Splice.insert (Text.size (b.ahead xs ++ c.lead)) (content ++ ", ".toList))
      (xs.map (·.entry) ++ content :: (c :: ys).map (·.entry)) := by
  have hsource : b.source = b.ahead xs ++ c.lead ++ (c.entry ++ b.behind ys tail) := by
    simp [source_eq hinside]
  obtain ⟨hleads, htail⟩ := hsep
  rw [hinside] at hleads htail
  obtain ⟨hxs, hlead, hys⟩ := Cell.separated_append.mp hleads
  refine ⟨⟨xs ++ ⟨c.lead, content⟩ :: ⟨", ".toList, c.entry⟩ :: ys, tail⟩, ⟨?_, ?_⟩, ?_, ?_⟩
  · refine Cell.separated_append.mpr ⟨hxs, hlead, ?_, hys⟩
    exact ⟨[], [' '], by simp, by intro d hd; simp at hd; subst hd; rfl, rfl⟩
  · simpa using htail
  · simp [Inside.entries]
  · rw [hsource, Splice.apply_insert, source_withInside]
    simp

/-- **A new last entry brings a comma of its own**, and what was behind the last entry is behind
it. -/
theorem leaves_of_append (hinside : b.inside = ⟨xs ++ [c], tail⟩) (hsep : b.inside.Separated)
    (content : Text) :
    b.Leaves (Splice.insert (Text.size (b.ahead xs ++ (c.lead ++ c.entry)))
      (", ".toList ++ content)) ((xs ++ [c]).map (·.entry) ++ [content]) := by
  have hsource : b.source = b.ahead xs ++ (c.lead ++ c.entry) ++ b.behind [] tail := by
    simp [source_eq hinside]
  obtain ⟨hleads, htail⟩ := hsep
  rw [hinside] at hleads htail
  refine ⟨⟨(xs ++ [c]) ++ [⟨", ".toList, content⟩], tail⟩, ⟨?_, ?_⟩, ?_, ?_⟩
  · refine Cell.separated_append.mpr ⟨hleads, ?_, trivial⟩
    have hempty : (xs ++ [c]).isEmpty = false := by simp
    rw [hempty, Bool.and_false, Text.isLead_false]
    exact ⟨[], [' '], by simp, by intro d hd; simp at hd; subst hd; rfl, rfl⟩
  · simpa using htail
  · simp [Inside.entries]
  · rw [hsource, Splice.apply_insert, source_withInside]
    simp

/-- What is inside is replaced as a whole. -/
theorem leaves_of_fill {t : Inside} (ht : t.Separated) :
    b.Leaves (Splice.replace (Text.size b.front + 1)
      (Text.size b.front + 1 + Text.size b.inside.text) t.text) t.entries := by
  have hopen : Text.size (b.front ++ [openingBracket b.isMapping]) = Text.size b.front + 1 := by
    rw [Text.size_append, Text.size_cons, utf8Size_openingBracket]
    rfl
  have hsource : b.source = b.front ++ [openingBracket b.isMapping] ++
      (b.inside.text ++ closingBracket b.isMapping :: b.back) := by
    simp [source]
  refine ⟨t, ht, rfl, ?_⟩
  rw [hsource, ← hopen, ← Text.size_append, Splice.apply_replace]
  simp [withInside, source]

end Cuts

/-! ## What the planners cut -/

theorem utf8Size_comma : (',' : Char).utf8Size = 1 := rfl

theorem utf8Size_space : (' ' : Char).utf8Size = 1 := rfl

theorem utf8Size_lineFeed : ('\n' : Char).utf8Size = 1 := rfl

section Planners

variable {b : Bracketed} {s : Snapshot} {n : Node} {xs ys : List Cell} {c d : Cell}
  {tail : Text}

theorem Stands.source (hb : b.Stands s n) : s.source = b.source := by
  rw [Snapshot.source, hb.map]
  rfl

/-- The line in front of a place. -/
theorem Stands.exists_linePrefix (hb : b.Stands s n) {x y : Text} (h : b.source = x ++ y) :
    ∃ front line : Text, x = front ++ line ∧ s.linePrefix (Text.size x) = .ok line := by
  obtain ⟨front, line, rfl, hfront, hline⟩ := LineIndex.exists_line x
  have hmap : s.map = SourceMap.ofText (front ++ line ++ y) := by
    rw [← h, hb.map]
  exact ⟨front, line, rfl, Snapshot.linePrefix_eq hmap hfront hline⟩

/-- Blanks in front of something to be seen lie in the blanks in front of it. -/
theorem exists_of_blank_append {w z gap t : Text} (ht : t.StartsInk) (h : gap ++ t = w ++ z)
    (hw : w.allBlank = true) : ∃ rest : Text, gap = w ++ rest ∧ z = rest ++ t := by
  rcases List.append_eq_append_iff.mp h with ⟨k, hgap, hk⟩ | ⟨k, hgap, hk⟩
  · obtain ⟨c, rest, rfl, hc⟩ := ht
    cases k with
    | nil => exact ⟨[], by simpa using hgap.symm, by simpa using hk.symm⟩
    | cons c' k =>
        obtain ⟨rfl, -⟩ := List.cons.inj hk
        have hmem : c ∈ w := by simp [hgap]
        rw [Text.not_allBlank_of_mem hmem hc] at hw
        cases hw
  · exact ⟨k, hgap, hk⟩

section BehindComma

variable {x y rest : Text}

/-- What is left of an entry with a line of its own, taken out with the line. -/
theorem leaves_of_ownLine {front line : Text} (hinside : b.inside = ⟨xs ++ c :: d :: ys, tail⟩)
    (hsep : b.inside.Separated) (hd : d.lead = x ++ ',' :: y) (hy : y.IsGap)
    (hrest : rest.StartsInk) (htext : b.ahead xs ++ c.lead = front ++ line)
    (hline : line.allBlank = true) (hbreak : (y ++ rest).contains '\n' = true)
    (hblank : Text.allBlank ((y ++ rest).takeWhile (· ≠ '\n')) = true) :
    b.Leaves (Splice.remove (Text.size (b.ahead xs ++ c.lead) - Text.size line)
      (Text.size (b.ahead xs ++ c.lead ++ (c.entry ++ x)) + 1 +
        Text.size ((y ++ rest).takeWhile (· ≠ '\n')) + 1)) ((xs ++ d :: ys).map (·.entry)) := by
  have hleads := hsep.leads
  rw [hinside] at hleads
  obtain ⟨u, hlead, rfl⟩ := lead_of_blank hleads htext hline
  obtain ⟨z, hz⟩ := Plan.takeWhile_append_of_contains hbreak
  generalize (y ++ rest).takeWhile (· ≠ '\n') = w at hz hblank
  -- the rest of the line and the line feed are part of the lead of the next entry
  have hfeed : Text.allBlank (w ++ ['\n']) = true := by
    simp only [Text.allBlank, List.all_append, Bool.and_eq_true] at hblank ⊢
    exact ⟨hblank, rfl⟩
  obtain ⟨gap, hgap, -⟩ := exists_of_blank_append hrest
    (show y ++ rest = (w ++ ['\n']) ++ z by simpa using hz) hfeed
  subst hgap
  have hleaves := leaves_of_remove hinside hsep hlead hline hd (Text.isGap_append.mp hy).2
  have hstart : Text.size (b.ahead xs ++ c.lead) - Text.size line =
      Text.size (b.ahead xs ++ u) := by
    rw [hlead]
    simp only [Text.size_append]
    omega
  have hstop : Text.size (b.ahead xs ++ c.lead ++ (c.entry ++ x)) + 1 + Text.size w + 1 =
      Text.size (b.ahead xs ++ u ++ (line ++ (c.entry ++ (x ++ ',' :: (w ++ ['\n']))))) := by
    rw [hlead]
    simp only [Text.size_append, Text.size_cons, Text.size_nil, utf8Size_comma, utf8Size_lineFeed]
    omega
  rwa [hstart, hstop]

/-- What is left of an entry that shares its line, taken out with the comma behind it and one
space. -/
theorem leaves_of_sharedLine (hinside : b.inside = ⟨xs ++ c :: d :: ys, tail⟩)
    (hsep : b.inside.Separated) (hd : d.lead = x ++ ',' :: y) (hy : y.IsGap)
    (hrest : rest.StartsInk) :
    b.Leaves (Splice.remove (Text.size (b.ahead xs ++ c.lead))
      (if (y ++ rest).head? = some ' '
        then Text.size (b.ahead xs ++ c.lead ++ (c.entry ++ x)) + 1 + 1
        else Text.size (b.ahead xs ++ c.lead ++ (c.entry ++ x)) + 1))
      ((xs ++ d :: ys).map (·.entry)) := by
  have hlead : c.lead = c.lead ++ [] := by simp
  by_cases hspace : (y ++ rest).head? = some ' '
  · rw [if_pos hspace]
    obtain ⟨z, hz⟩ := List.head?_eq_some_iff.mp hspace
    obtain ⟨gap, hgap, -⟩ := exists_of_blank_append hrest (show y ++ rest = [' '] ++ z from hz) rfl
    subst hgap
    have hleaves := leaves_of_remove hinside hsep hlead rfl hd (Text.isGap_append.mp hy).2
    have hstop : Text.size (b.ahead xs ++ c.lead ++ (c.entry ++ x)) + 1 + 1 =
        Text.size (b.ahead xs ++ c.lead ++ ([] ++ (c.entry ++ (x ++ ',' :: [' '])))) := by
      simp only [Text.size_append, Text.size_cons, Text.size_nil, utf8Size_comma, utf8Size_space]
      omega
    rwa [hstop]
  · rw [if_neg hspace]
    have hleaves := leaves_of_remove hinside hsep hlead rfl (y := []) hd hy
    have hstop : Text.size (b.ahead xs ++ c.lead ++ (c.entry ++ x)) + 1 =
        Text.size (b.ahead xs ++ c.lead ++ ([] ++ (c.entry ++ (x ++ [','])))) := by
      simp only [Text.size_append, Text.size_cons, Text.size_nil, utf8Size_comma]
      omega
    rwa [hstop]

end BehindComma

/-- **An entry with another one behind it** goes with the comma of that one. -/
theorem Stands.removeWithNext (hb : b.Stands s n) (hinside : b.inside = ⟨xs ++ c :: d :: ys, tail⟩)
    (hsep : b.inside.Separated) (hink : d.entry.StartsInk) :
    ∃ splice, Plan.Flow.removeWithNext s (Text.size (b.ahead xs ++ c.lead))
        (Text.size (b.ahead xs ++ (c.lead ++ c.entry))) = .ok splice ∧
      b.Leaves splice ((xs ++ d :: ys).map (·.entry)) := by
  have hleads := hsep.leads
  rw [hinside] at hleads
  obtain ⟨-, -, ⟨x, y, hx, hy, hd⟩, -⟩ := Cell.separated_append.mp hleads
  have hsource := source_eq hinside
  rw [behind_cons, behind_cons] at hsource
  have hrest : Text.StartsInk (d.entry ++ b.behind ys tail) := by
    obtain ⟨e, t, he, hink⟩ := hink
    exact ⟨e, t ++ b.behind ys tail, by simp [he], hink⟩
  generalize d.entry ++ b.behind ys tail = rest at hsource hrest
  -- what is behind the entry, and what is behind the comma
  have hdrop : s.source.dropBytes (Text.size (b.ahead xs ++ (c.lead ++ c.entry))) =
      .ok (x ++ ',' :: (y ++ rest)) := by
    rw [hb.source]
    exact Text.dropBytes_eq_ok.mpr ⟨_, by simp [hsource, hd], rfl⟩
  have hcut : Text.size s.source - Text.size (y ++ rest) =
      Text.size (b.ahead xs ++ c.lead ++ (c.entry ++ x)) + 1 := by
    rw [hb.source, hsource, hd]
    simp only [Text.size_append, Text.size_cons, utf8Size_comma]
    omega
  obtain ⟨front, line, htext, hbefore⟩ := hb.exists_linePrefix
    (x := b.ahead xs ++ c.lead) (by rw [hsource, List.append_assoc])
  unfold Plan.Flow.removeWithNext
  rw [hdrop]
  dsimp only
  rw [Text.afterComma_append hx]
  dsimp only
  rw [hbefore, ok_bind, hcut]
  by_cases hown : (y ++ rest).contains '\n' = true ∧ line.allBlank = true ∧
    Text.allBlank ((y ++ rest).takeWhile (· ≠ '\n')) = true
  · rw [if_pos hown]
    obtain ⟨hbreak, hline, hblank⟩ := hown
    exact ⟨_, rfl, leaves_of_ownLine hinside hsep hd hy hrest htext hline hbreak hblank⟩
  · rw [if_neg hown]
    exact ⟨_, rfl, leaves_of_sharedLine hinside hsep hd hy hrest⟩

/-- **The last entry** goes with its own comma. -/
theorem Stands.removeLast (hb : b.Stands s n) (hinside : b.inside = ⟨xs ++ [c], tail⟩)
    (hsep : b.inside.Separated) (hmore : xs ≠ []) :
    ∃ splice, Plan.Flow.removeLast s (Text.size (b.ahead xs ++ c.lead))
        (Text.size (b.ahead xs ++ (c.lead ++ c.entry))) = .ok splice ∧
      b.Leaves splice (xs.map (·.entry)) := by
  have hleads := hsep.leads
  rw [hinside] at hleads
  obtain ⟨-, hlead, -⟩ := Cell.separated_append.mp hleads
  rw [List.isEmpty_eq_false_iff.mpr hmore, Bool.and_false, Text.isLead_false] at hlead
  obtain ⟨x, y, hx, hy, hc⟩ := hlead
  have hsource := source_eq hinside
  rw [behind_cons] at hsource
  have htake : s.source.takeBytes (Text.size (b.ahead xs ++ c.lead)) =
      .ok (b.ahead xs ++ x ++ ',' :: y) := by
    rw [hb.source]
    exact Text.takeBytes_eq_ok.mpr ⟨c.entry ++ b.behind [] tail, by simp [hsource, hc],
      by simp [hc]⟩
  unfold Plan.Flow.removeLast
  rw [htake]
  refine ⟨_, ?_, leaves_of_removeLast hinside hsep hmore hc hx⟩
  show (if _ then _ else _) = _
  rw [Text.trimEnd_append_isGap rfl hy, if_pos (by simp)]
  have hstart : Text.size (b.ahead xs ++ x ++ [',']) - 1 = Text.size (b.ahead xs ++ x) := by
    simp only [Text.size_append, Text.size_cons, Text.size_nil, utf8Size_comma]
    omega
  have hstop : b.ahead xs ++ (c.lead ++ c.entry) =
      b.ahead xs ++ x ++ (',' :: (y ++ c.entry)) := by simp [hc]
  rw [hstart, hstop]
  rfl

/-- The nodes of an entry. -/
theorem Stands.exists_nodes (hb : b.Stands s n) (hinside : b.inside = ⟨xs ++ c :: ys, tail⟩) :
    ∃ first last, n.children[b.firstChild xs.length]? = some first ∧
      n.children[b.lastChild xs.length]? = some last ∧
      s.startOf first = Text.size (b.ahead xs ++ c.lead) ∧
      s.stopOf last = Text.size (b.ahead xs ++ (c.lead ++ c.entry)) := by
  have hi : xs.length < b.inside.cells.length := by simp [hinside]
  obtain ⟨first, hfirst, hstart⟩ := Option.map_eq_some_iff.mp (hb.starts _ hi)
  obtain ⟨last, hlast, hstop⟩ := Option.map_eq_some_iff.mp (hb.stops _ hi)
  exact ⟨first, last, hfirst, hlast, by rw [hstart, before_eq hinside],
    by rw [hstop, through_eq hinside]⟩

theorem Stands.entryCount (hb : b.Stands s n) : n.entryCount = b.inside.cells.length := by
  have hcount := hb.count
  unfold firstChild at hcount
  unfold Node.entryCount
  rw [hb.mapping, hcount]
  by_cases hmapping : b.isMapping = true
  · simp [hmapping]
  · simp [hmapping]

/-- What is inside the brackets, as the planners see it. -/
theorem Stands.inside_eq (hb : b.Stands s n) : Plan.Flow.inside s n =
    (Text.size b.front + 1, Text.size b.front + 1 + Text.size b.inside.text) := by
  unfold Plan.Flow.inside
  dsimp only
  rw [hb.start, hb.stop]
  simp only [Prod.mk.injEq, true_and]
  omega

/-- **An entry in brackets is taken out** wherever it is. -/
theorem Stands.remove (hb : b.Stands s n) (hsep : b.inside.Separated)
    (hink : ∀ c ∈ b.inside.cells, c.entry.StartsInk)
    (hinside : b.inside = ⟨xs ++ c :: ys, tail⟩) {first last : Node}
    (hstart : s.startOf first = Text.size (b.ahead xs ++ c.lead))
    (hstop : s.stopOf last = Text.size (b.ahead xs ++ (c.lead ++ c.entry))) :
    ∃ splice, Plan.Flow.remove s n first last xs.length = .ok splice ∧
      b.Leaves splice ((xs ++ ys).map (·.entry)) := by
  have hcount : n.entryCount = xs.length + (ys.length + 1) := by
    rw [hb.entryCount, hinside]
    simp
  unfold Plan.Flow.remove
  dsimp only
  rw [hstart, hstop, hcount]
  by_cases hone : xs.length + (ys.length + 1) = 1
  · rw [if_pos hone]
    have hxs : xs = [] := List.length_eq_zero_iff.mp (by omega)
    have hys : ys = [] := List.length_eq_zero_iff.mp (by omega)
    subst hxs hys
    refine ⟨_, rfl, ?_⟩
    rw [hb.inside_eq]
    exact leaves_of_fill (t := ⟨[], []⟩) ⟨trivial, by simp⟩
  · rw [if_neg hone]
    by_cases hnext : xs.length + 1 < xs.length + (ys.length + 1)
    · rw [if_pos hnext]
      cases ys with
      | nil => simp at hnext
      | cons d ys => exact hb.removeWithNext hinside hsep (hink d (by simp [hinside]))
    · rw [if_neg hnext]
      have hys : ys = [] := List.length_eq_zero_iff.mp (by omega)
      subst hys
      have hmore : xs ≠ [] := by
        rintro rfl
        simp at hone
      simpa using hb.removeLast hinside hsep hmore

/-- **An entry is put behind the last one**, or between empty brackets. -/
theorem Stands.append (hb : b.Stands s n) (hsep : b.inside.Separated) (content : Text) :
    b.Leaves (Plan.Flow.append s n content) (b.inside.entries ++ [content]) := by
  have hlength : n.children.length = b.firstChild b.inside.cells.length := hb.count
  unfold Plan.Flow.append
  rcases List.eq_nil_or_concat b.inside.cells with hempty | ⟨xs, c, hcells⟩
  · -- there is nothing inside
    have hchildren : n.children = [] := by
      rw [hempty] at hlength
      apply List.length_eq_zero_iff.mp
      simpa [firstChild] using hlength
    rw [hchildren]
    show b.Leaves (Plan.Flow.fill s n content) _
    have hfill : Plan.Flow.fill s n content = Splice.replace (Text.size b.front + 1)
        (Text.size b.front + 1 + Text.size b.inside.text)
        (Inside.text ⟨[⟨[' '], content⟩], [' ']⟩) := by
      unfold Plan.Flow.fill
      rw [hb.inside_eq]
      simp [Inside.text, Cell.text]
    have hblank : Text.IsGap [' '] := by
      intro d hd
      rw [List.mem_singleton.mp hd]
      rfl
    rw [hfill]
    simpa [Inside.entries, hempty] using leaves_of_fill (b := b) (t := ⟨[⟨[' '], content⟩], [' ']⟩)
      ⟨⟨Text.isLead_true.mpr hblank, trivial⟩, .inl hblank⟩
  · -- the last child of all is the last one of the last entry
    rw [List.concat_eq_append] at hcells
    have hinside : b.inside = ⟨xs ++ [c], b.inside.tail⟩ := by rw [← hcells]
    obtain ⟨-, last, -, hlast, -, hstop⟩ := hb.exists_nodes hinside
    have hget : n.children.getLast? = some last := by
      rw [List.getLast?_eq_getElem?, hlength, hcells, ← hlast]
      congr 1
      unfold firstChild lastChild
      cases b.isMapping <;> simp
      omega
    rw [hget]
    dsimp only
    rw [hstop, Inside.entries, hcells]
    exact leaves_of_append hinside hsep content

theorem insertIdx_length_append {α : Type} (xs ys : List α) (x : α) :
    (xs ++ ys).insertIdx xs.length x = xs ++ x :: ys := by
  induction xs with
  | nil => simp
  | cons a xs ih => simp [ih]

/-- **An item is put in front of the one at the index**, or at the end. -/
theorem Stands.addItem (hb : b.Stands s n) (hsep : b.inside.Separated)
    (hsequence : b.isMapping = false) {f : Fragment} (hinline : f.isInline = true)
    (index : Option Nat) :
    ∃ splice, Plan.Flow.addItem s n f index = .ok splice ∧
      b.Leaves splice (b.inside.entries.insertIdx
        (Outline.insertionPlace index b.inside.entries.length) f.text.trim) := by
  have hlength : n.children.length = b.inside.entries.length := by
    rw [hb.count, Inside.entries, List.length_map]
    simp [firstChild, hsequence]
  have hcontent : Plan.Flow.inline f n = .ok f.text.trim := by
    unfold Plan.Flow.inline
    rw [if_pos hinline]
  unfold Plan.Flow.addItem
  rw [hcontent, ok_bind]
  cases hnext : index.bind (n.children[·]?) with
  | none =>
      refine ⟨_, rfl, ?_⟩
      have hplace : Outline.insertionPlace index b.inside.entries.length =
          b.inside.entries.length := by
        unfold Outline.insertionPlace
        cases index with
        | none => simp
        | some i =>
            have hle : n.children.length ≤ i := by simpa using hnext
            simp
            omega
      rw [hplace, List.insertIdx_length_self]
      exact hb.append hsep _
  | some next =>
      obtain ⟨i, rfl, hget⟩ := Option.bind_eq_some_iff.mp hnext
      have hi : i < b.inside.cells.length := by
        have := (List.getElem?_eq_some_iff.mp hget).1
        simpa [hlength, Inside.entries] using this
      obtain ⟨xs, c, ys, hcells, rfl⟩ : ∃ xs c ys, b.inside.cells = xs ++ c :: ys ∧
          xs.length = i :=
        ⟨b.inside.cells.take i, b.inside.cells[i], b.inside.cells.drop (i + 1), by simp,
          by simp; omega⟩
      have hinside : b.inside = ⟨xs ++ c :: ys, b.inside.tail⟩ := by rw [← hcells]
      obtain ⟨first, -, hfirst, -, hstart, -⟩ := hb.exists_nodes hinside
      have hsame : first = next := by
        simp only [firstChild, hsequence] at hfirst
        exact Option.some.inj (hfirst.symm.trans hget)
      subst hsame
      refine ⟨_, rfl, ?_⟩
      have hplace : Outline.insertionPlace (some xs.length) b.inside.entries.length =
          (xs.map (·.entry)).length := by
        simp [Outline.insertionPlace, Inside.entries, hcells]
      have hentries : b.inside.entries = xs.map (·.entry) ++ (c :: ys).map (·.entry) := by
        simp [Inside.entries, hcells]
      rw [hstart, hplace, hentries, insertIdx_length_append]
      exact leaves_of_insert hinside hsep _

/-! ## What the operations plan -/

variable {path : Text} {first : Node} {target : Target} {f : Fragment} {value : Value}

theorem Stands.delete_eq (hb : b.Stands s n) {i : Nat} (hpath : s.resolve path = .ok target)
    (hentry : target.entry .delete = .ok (n, b.lastChild i))
    (hfirst : n.children[b.firstChild i]? = some first)
    (hlast : n.children[b.lastChild i]? = some target.node) :
    Plan.delete s path = Plan.Flow.remove s n first target.node i := by
  by_cases hmapping : b.isMapping = true
  · -- the key is in front of the value
    have hkey : n.pairedKey (b.lastChild i) = .ok first := by
      have hodd : (2 * i + 1) % 2 ≠ 0 := by omega
      simp only [firstChild, hmapping, if_true] at hfirst
      unfold Node.pairedKey lastChild
      simp only [hmapping, if_true, if_neg hodd, Nat.add_sub_cancel, hfirst]
    have hplace : b.lastChild i / 2 = i := by
      simp only [lastChild, hmapping, if_true]
      omega
    have hnode : n.isMapping = true := by rw [hb.mapping, hmapping]
    rw [Plan.delete_eq hpath hentry (by rw [if_pos hnode, hkey]), if_pos hb.flow, if_pos hnode,
      hplace]
  · have hsame : first = target.node := by
      simp only [firstChild, lastChild, if_neg hmapping] at hfirst hlast
      exact Option.some.inj (hfirst.symm.trans hlast)
    have hplace : b.lastChild i = i := by simp [lastChild, hmapping]
    have hnode : ¬ n.isMapping = true := by rwa [hb.mapping]
    rw [Plan.delete_eq hpath hentry (by rw [if_neg hnode]; rfl), if_pos hb.flow, if_neg hnode, hplace,
      hsame]

theorem Stands.seqAdd_eq (hb : b.Stands s n) (hpath : s.resolve path = .ok target)
    (hnode : target.node = n) (hsequence : b.isMapping = false)
    (hf : Fragment.ofValue value = .ok f) (index : Option Nat) :
    Plan.seqAdd s path value index = Plan.Flow.addItem s n f index := by
  have hkind : n.isSequence = true := by
    have hflow := hb.flow
    have hmapping := hb.mapping
    rw [hsequence] at hmapping
    unfold Node.isFlow Kind.isFlow at hflow
    unfold Node.isMapping at hmapping
    unfold Node.isSequence
    cases hkind : n.kind <;> simp_all [Kind.style?, Kind.isMapping, Kind.isSequence]
  subst hnode
  rw [Plan.seqAdd_eq hpath hkind hf, if_pos hb.flow]

theorem Stands.mapAdd_eq (hb : b.Stands s n) {key : Text} {k : Fragment}
    (hpath : s.resolve path = .ok target) (hnode : target.node = n)
    (hmapping : b.isMapping = true) (hk : Fragment.ofValue (.string key) = .ok k)
    (hline : k.isMultiline = false) (hf : Fragment.ofValue value = .ok f)
    (hinline : f.isInline = true) :
    Plan.mapAdd s path key value =
      .ok (Plan.Flow.append s n (k.text ++ ": ".toList ++ f.text.trim)) := by
  have hkind : n.isMapping = true := by rw [hb.mapping, hmapping]
  have hpair : Plan.Flow.addPair s n k f =
      .ok (Plan.Flow.append s n (k.text ++ ": ".toList ++ f.text.trim)) := by
    unfold Plan.Flow.addPair Plan.Flow.inline
    rw [if_pos hinline]
    rfl
  subst hnode
  rw [Plan.mapAdd_eq hpath hkind hk hline hf, if_pos hb.flow, hpair]

end Planners

end Bracketed

/-- **Splices in brackets keep the separators right.** In a collection that is well separated and
whose entries start with something to be seen, an entry can be taken out, an item put in and a pair
added; what is left is well separated, its entries are the old ones without that one or with the new
one, and the text around it is the same. -/
theorem Bracketed.separated_of_edits {b : Bracketed} {s : Snapshot} {n : Node} {o : Operation}
    {entries : List Text} (hb : b.Stands s n) (hsep : b.inside.Separated)
    (hink : ∀ entry ∈ b.inside.entries, entry.StartsInk) (h : b.Edits s n o entries) :
    ∃ splice t, Plan.operation s o = .ok splice ∧ t.Separated ∧ t.entries = entries ∧
      splice.apply s.source = .ok (b.withInside t).source := by
  suffices hleaves : ∃ splice, Plan.operation s o = .ok splice ∧ b.Leaves splice entries by
    obtain ⟨splice, hplan, t, ht, hentries, htext⟩ := hleaves
    exact ⟨splice, t, hplan, ht, hentries, by rw [hb.source, htext]⟩
  cases h with
  | @delete path target i hi hpath hentry hlast =>
      obtain ⟨xs, c, ys, hcells, rfl⟩ : ∃ xs c ys, b.inside.cells = xs ++ c :: ys ∧
          xs.length = i :=
        ⟨b.inside.cells.take i, b.inside.cells[i], b.inside.cells.drop (i + 1), by simp,
          by simp; omega⟩
      have hinside : b.inside = ⟨xs ++ c :: ys, b.inside.tail⟩ := by rw [← hcells]
      obtain ⟨first, last, hfirst, hlast', hstart, hstop⟩ := hb.exists_nodes hinside
      obtain rfl : target.node = last := Option.some.inj (hlast.symm.trans hlast')
      obtain ⟨splice, hremove, hleaves⟩ := hb.remove hsep
        (fun c hc => hink _ (List.mem_map_of_mem hc)) hinside hstart hstop
      refine ⟨splice, ?_, ?_⟩
      · rw [← hremove]
        exact hb.delete_eq hpath hentry hfirst hlast
      · have hentries : b.inside.entries.eraseIdx xs.length = (xs ++ ys).map (·.entry) := by
          simp [Inside.entries, hcells, List.eraseIdx_append_of_length_le]
        rw [hentries]
        exact hleaves
  | @seqAdd path value index target f hpath hnode hsequence hf hinline =>
      obtain ⟨splice, hadd, hleaves⟩ := hb.addItem hsep hsequence hinline index
      refine ⟨splice, ?_, hleaves⟩
      rw [← hadd]
      exact hb.seqAdd_eq hpath hnode hsequence hf index
  | @mapAdd path key value target k f hpath hnode hmapping hk hline hf hinline =>
      exact ⟨_, hb.mapAdd_eq hpath hnode hmapping hk hline hf hinline, hb.append hsep _⟩

/-- A sequence with a line for each item. -/
private def threeLines : Bracketed where
  isMapping := false
  front := "a: ".toList
  inside := ⟨[⟨"\n  ".toList, ['x']⟩, ⟨" ,\n  ".toList, ['y']⟩, ⟨",\n  ".toList, ['z']⟩], ['\n']⟩
  back := ['\n']

/-- The middle one of three items goes with its line. -/
theorem Bracketed.separated_of_edits_line :
    ∃ e n splice t, Editor.load "a: [\n  x ,\n  y,\n  z\n]\n".toList = .ok e ∧
      threeLines.Stands e.snapshot n ∧ threeLines.inside.Separated ∧
      (∀ entry ∈ threeLines.inside.entries, entry.StartsInk) ∧
      threeLines.Edits e.snapshot n (.delete "a.1".toList) [['x'], ['z']] ∧
      Plan.operation e.snapshot (.delete "a.1".toList) = .ok splice ∧ t.Separated ∧
      t.entries = [['x'], ['z']] ∧
      splice.apply e.snapshot.source = .ok (threeLines.withInside t).source := by
  obtain ⟨e, hload, hpath, hstyle, hnode⟩ :=
    Editor.exists_load "a: [\n  x ,\n  y,\n  z\n]\n".toList
    (P := fun e => e.snapshot.addressOf "a.1".toList = some ([0, 0, 1] ++ [1]) ∧
      e.snapshot.entryStyle? ([0, 0, 1] ++ [1]) = some .flow ∧
      (e.snapshot.tree.root.descendant? [0, 0, 1]).all (fun n => n.isFlow ∧ n.isMapping = false ∧
        e.snapshot.startOf n = 3 ∧ e.snapshot.stopOf n = 21 ∧ n.children.length = 3 ∧
        n.children.map e.snapshot.startOf = [7, 13, 18] ∧
        n.children.map e.snapshot.stopOf = [8, 14, 19]) = true)
    (by decide +kernel)
  have hread := (Editor.load_eq_ok hload).1
  obtain ⟨target, n, hresolve, hentry, hn, hlast⟩ :=
    Snapshot.child_of_addressOf hread hpath hstyle .delete
  rw [hn] at hnode
  obtain ⟨hflow, hmapping, hstart, hstop, hcount, hstarts, hstops⟩ := of_decide_eq_true hnode
  have hstands : threeLines.Stands e.snapshot n := by
    refine ⟨(Snapshot.within_of_ofText hread).map, hflow, hmapping, hstart, hstop, hcount, ?_, ?_⟩
    · intro i
      rw [← List.getElem?_map, hstarts]
      revert i
      decide
    · intro i
      rw [← List.getElem?_map, hstops]
      revert i
      decide
  have hsep : threeLines.inside.Separated := by
    refine ⟨⟨Text.isLead_true.mpr ?_, ⟨[' '], "\n  ".toList, ?_, ?_, rfl⟩,
      ⟨[], "\n  ".toList, ?_, ?_, rfl⟩, trivial⟩, .inl ?_⟩
    all_goals exact List.all_eq_true.mp rfl
  have hink : ∀ entry ∈ threeLines.inside.entries, entry.StartsInk := by
    intro entry hentry
    simp only [Inside.entries, threeLines, List.map_cons, List.map_nil, List.mem_cons,
      List.not_mem_nil, or_false] at hentry
    rcases hentry with rfl | rfl | rfl
    all_goals exact ⟨_, [], rfl, rfl⟩
  have hedits : threeLines.Edits e.snapshot n (.delete "a.1".toList) [['x'], ['z']] :=
    .delete (i := 1) (by decide) hresolve hentry hlast
  obtain ⟨splice, t, hplan, ht, hentries, htext⟩ :=
    Bracketed.separated_of_edits hstands hsep hink hedits
  exact ⟨e, n, splice, t, hload, hstands, hsep, hink, hedits, hplan, ht, hentries, htext⟩

end YamlEdit
