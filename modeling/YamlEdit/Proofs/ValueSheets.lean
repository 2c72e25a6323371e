import YamlEdit.Proofs.SheetTokens
import YamlEdit.Proofs.ValueTokens

/-!
# The tokens of a sheet that is read as a value

The tokens of a sheet, without their places (`Sheet.items`), are the same wherever it stands: behind
spaces or any other margin, and whatever margin is at its end, where there need not be one.

Main statement: `scan_sheet`.
-/

namespace YamlEdit

/-! ## Tokens without their places -/

/-- The tokens of the head of an entry. -/
def Head.items : Head → List Token
  | .dash _ => [.blockEntry]
  | .key name _ => [.key, .scalar .plain name, .value]

/-- The token that opens a collection. -/
def Head.openingItem (head : Head) : Token :=
  if head.isKey then .blockMappingStart else .blockSequenceStart

namespace Sheet

/-- The tokens of a sheet, up to the last scalar. The flag says that these are entries of a
collection that is open. -/
def items : (inside : Bool) → Sheet → List Token
  | _, word w _ => [.scalar .plain w]
  | inside, last head node =>
    (if inside then [] else [head.openingItem]) ++ head.items ++ items false node
  | inside, more head node rest =>
    (if inside then [] else [head.openingItem]) ++ head.items ++ items false node ++
      List.replicate node.depth .blockEnd ++ items true rest

/-- The columns that are open at the end of a sheet, innermost first. -/
def columns (column : Nat) (t : Sheet) : List Nat := (t.opened column).map (·.column)

theorem length_columns (column : Nat) (t : Sheet) : (t.columns column).length = t.depth := by
  rw [columns, List.length_map, length_opened]

theorem streamEnd_not_mem_items : ∀ (inside : Bool) (t : Sheet), .streamEnd ∉ t.items inside
  | _, word _ _ => by simp [items]
  | inside, last head node => by
      have := streamEnd_not_mem_items false node
      cases inside <;> cases head <;> simp [items, Head.items, Head.openingItem, Head.isKey, this]
  | inside, more head node rest => by
      have := streamEnd_not_mem_items false node
      have := streamEnd_not_mem_items true rest
      cases inside <;> cases head <;> simp [items, Head.items, Head.openingItem, Head.isKey, *]

end Sheet

end YamlEdit

namespace YamlEdit.Value.Source

/-- The last token waits if as many as come before it have been handed out at most. -/
theorem Scanner.Hands.exists_waiting {s : Scanner} {handed : List (Located Token)}
    {all : List Token} {t : Token} (h : s.Hands handed (all ++ [t]))
    (htaken : s.taken ≤ all.length) :
    ∃ waiting, s.queue.map (·.item) = waiting ++ [t] ∧ s.taken + waiting.length = all.length ∧
      handed.reverse.map (·.item) ++ waiting = all := by
  have hitems := h.items
  have hlength := h.taken
  rw [List.map_append] at hitems
  rcases List.append_eq_append_iff.mp hitems with ⟨waiting, hall, hqueue⟩ | ⟨more, hhanded, hmore⟩
  · refine ⟨waiting, hqueue, ?_, hall.symm⟩
    rw [hall, List.length_append, List.length_map, List.length_reverse, hlength]
  · have := congrArg List.length hhanded
    simp only [List.length_map, List.length_reverse, List.length_append] at this
    obtain rfl := List.length_eq_zero_iff.mp (show more.length = 0 by omega)
    exact ⟨[], hmore.symm, by simp; omega, by rw [hhanded]; simp⟩

section Rounds

variable {inside fresh : Bool} {column count : Nat} {base columns : List Nat} {gap v : Text}
  {all new out : List Token}

/-- A token behind a margin: what is deeper is closed, and then come the tokens that it adds. -/
theorem Goes.of_token {Q : Scanner → Prop} (new : List Token)
    (henters : Enters inside column base columns count)
    (hstart : Token.isSpaceOrEnd (v.headD '\x00') = false ∧ v.headD '\x00' ≠ '#')
    (hmark : v.headD '\x00' ≠ '%' ∧ YamlEdit.Scan.isDocumentMarker '-' v = false ∧
      YamlEdit.Scan.isDocumentMarker '.' v = false)
    (hQ : Scanner.Lasts Q) (hnew : .streamEnd ∉ new) (hlength : new.length ≤ 2)
    (hrun : ∀ {s : Scanner}, s.Faces v column fresh (entered inside column base) →
      s.taken + s.queue.length = all.length + count →
        ∃ s', Scan.fetchByStart (v.headD '\x00') (v.getD 1 '\x00') s = .ok ((), s') ∧ Q s' ∧
          s.Adds new s')
    (h : Goes Q (all ++ (List.replicate count .blockEnd ++ new)) out) :
    Goes (Scanner.Stands v column fresh columns) all out := by
  refine .of_fetch (Scanner.stands_lasts _ _ _ _) hQ (fun {s handed} hs hhands => ?_)
    (fun hall => ?_) h
  · obtain ⟨t, hfetch, hfaces, htaken, hqueue, houter, hrest⟩ :=
      Scan.exists_fetch hs henters hstart hmark
    have hsize : s.taken + s.queue.length = all.length := by
      have := congrArg List.length hhands.items
      simp [← hhands.taken] at this
      exact this
    have hcount : t.queue.length = s.queue.length + count := by
      have := congrArg List.length hqueue
      simpa using this
    obtain ⟨s', hrun, hs', hadds⟩ := hrun hfaces (by omega)
    have hqueue' := hadds.queue
    have hlength' : s'.queue.length = t.queue.length + new.length := by
      have := congrArg List.length hqueue'
      simpa using this
    refine ⟨s', hfetch.trans hrun, hs', ⟨?_, (hadds.taken.trans htaken).trans hhands.taken⟩, ?_⟩
    · rw [List.map_append, hqueue', hqueue, ← hhands.items]
      simp
    · have := hadds.outer
      have := hadds.rest
      unfold Scanner.need
      omega
  · simp only [List.mem_append, not_or]
    exact ⟨hall, fun h => absurd (List.eq_of_mem_replicate h) (by simp), hnew⟩

/-- A scalar that is no key. -/
theorem Goes.word {w b : Text} (hw : Token.PlainLine w) (hb : Token.IsBreak b ∨ b = [] ∧ v = [])
    (henters : Enters false column base columns count)
    (hv : Token.isSpaceOrBreak (v.headD '\x00') = false)
    (hleft : v = [] ∨ (Text.columnBehind column (w ++ b) : Int) ≤ indentOf base)
    (h : Goes (Scanner.Stands v (Text.columnBehind column (w ++ b)) (b.contains '\n') base)
      (all ++ (List.replicate count .blockEnd ++ [.scalar .plain w])) out) :
    Goes (Scanner.Stands (w ++ (b ++ v)) column fresh columns) all out := by
  have hx : (b ++ v).headD '\x00' ≠ '-' ∧ (b ++ v).headD '\x00' ≠ '.' := by
    rcases hb with hb | ⟨rfl, rfl⟩
    · exact hb.noMark v
    · exact ⟨by decide, by decide⟩
  have hbase : indentOf base < column := by
    cases henters
    assumption
  refine .of_token _ henters (hw.headD_append _) (hw.noMark hx) (Scanner.stands_lasts _ _ _ _)
    (by simp) (by simp) (fun {s} hs _ => ?_) h
  rw [Scan.fetchByStart_line hw hs.legible hs.outside.flow]
  exact Scan.exists_word hs hw hbase hb hv hleft

/-- The dash of an item. -/
theorem Goes.dash (hgap : Token.Margin gap)
    (hfirst : Token.isSpaceOrBreak (gap.headD '\x00') = true)
    (henters : Enters inside column base columns count)
    (h : Goes (Scanner.Stands v (Text.columnBehind column ('-' :: gap)) true (column :: base))
      (all ++ (List.replicate count .blockEnd ++
        ((if inside then [] else [.blockSequenceStart]) ++ [.blockEntry]))) out) :
    Goes (Scanner.Stands ('-' :: (gap ++ v)) column true columns) all out := by
  have hmark := noMark_of_dash (Token.isSpaceOrBreak_headD_append hfirst v)
  refine .of_token _ henters ⟨rfl, by simp⟩ hmark (Scanner.stands_lasts _ _ _ _) ?_ ?_
    (fun {s} hs _ => ?_) h
  · cases inside <;> simp
  · cases inside <;> simp
  · rw [List.headD_cons, Scan.fetchByStart_dash]
    · exact Scan.exists_dash hs hgap henters
    · rw [isGap_eq (hs.legible.getD 1), getD_one_cons]
      exact Token.isSpaceOrEnd_headD_append hfirst v

/-- A key with its `:`. -/
theorem Goes.key {name : Text} (hname : Token.PlainLine name) (hsize : Text.size name ≤ 1024)
    (hgap : Token.Margin gap) (hfirst : Token.isSpaceOrBreak (gap.headD '\x00') = true)
    (henters : Enters inside column base columns count)
    (h : Goes (Scanner.Stands v (Text.columnBehind column (name ++ ':' :: gap)) (gap.contains '\n')
        (column :: base))
      (all ++ (List.replicate count .blockEnd ++
        ((if inside then [] else [.blockMappingStart]) ++ [.key, .scalar .plain name, .value])))
          out) :
    Goes (Scanner.Stands (name ++ ':' :: (gap ++ v)) column true columns) all out := by
  have hfirst' := Token.isSpaceOrEnd_headD_append hfirst v
  have hlasts := Scanner.atColon_lasts hname hsize (gap ++ v) column (all.length + count)
    (entered inside column base)
  refine .of_token [.scalar .plain name] henters (hname.headD_append _)
    (hname.noMark ⟨by simp, by simp⟩) hlasts (by simp) (by simp) (fun {s} hs hnumber => ?_) ?_
  · rw [Scan.fetchByStart_line hname hs.legible hs.outside.flow, ← hnumber]
    exact Scan.exists_key hname hs henters hfirst'
  · refine .of_fetch hlasts (Scanner.stands_lasts _ _ _ _) (fun {s handed} hs hhands => ?_)
      (fun hall => ?_) h
    · have htaken : s.taken ≤ (all ++ List.replicate count Token.blockEnd).length := by
        obtain ⟨-, -, -, -, -, htaken⟩ := hs
        simpa using htaken
      rw [← List.append_assoc] at hhands
      obtain ⟨waiting, hqueue, hnumber, hall⟩ := hhands.exists_waiting htaken
      obtain ⟨s', hrun, hs', htaken', hqueue', houter, hrest⟩ := Scan.exists_colon hs hgap henters
        hqueue (by simpa using hnumber)
      refine ⟨s', (Scan.fetch_colon hs hname hsize hfirst henters).trans hrun, hs',
        ⟨?_, htaken'.trans hhands.taken⟩, ?_⟩
      · rw [List.map_append, hqueue', ← List.append_assoc, hall, List.append_assoc]
      · have hlength := congrArg List.length hqueue'
        have hlength' := congrArg List.length hqueue
        unfold Scanner.need
        cases inside <;> simp at hlength hlength' <;> omega
    · cases inside <;> simpa using hall

/-- The head of an entry. -/
theorem Goes.head {head : Head} (hhead : head.Fits column)
    (henters : Enters inside column base columns count)
    (h : Goes (Scanner.Stands v (Text.columnBehind column head.text)
        (!head.isKey || head.gap.contains '\n') (column :: base))
      (all ++ (List.replicate count .blockEnd ++
        ((if inside then [] else [head.openingItem]) ++ head.items))) out) :
    Goes (Scanner.Stands (head.text ++ v) column true columns) all out := by
  cases head with
  | dash gap => exact .dash hhead.margin hhead.first henters h
  | key name gap =>
      obtain ⟨hname, hsize⟩ := hhead.name
      have htext : (Head.key name gap).text = name ++ ':' :: gap := by
        simp [Head.text, Head.mark, Head.gap]
      rw [htext] at h
      rw [htext, List.append_assoc]
      exact .key hname hsize hhead.margin hhead.first henters h

/-- What stands no further right than an entry is left of what is in the entry. -/
theorem le_of_left {head : Head} (h : head.Fits column) {node : Sheet} {c : Int}
    (hc : c ≤ column) :
    c ≤ if node.isWord then indentOf (column :: base)
      else (Text.columnBehind column head.text : Int) := by
  have := h.deeper
  split
  · exact hc
  · omega

/-- **The tokens of a sheet**, in front of what stands further left. The margin at its end may be
another one, and at the end of the text there need not be one. -/
theorem Goes.sheet {t : Sheet} {b : Text} (hfits : t.Fits column)
    (henters : Enters inside column base columns count)
    (hinside : t.isWord = true → inside = false) (hfresh : t.isWord = false → fresh = true)
    (hb : Token.IsBreak b ∨ b = [] ∧ v = [])
    (hv : Token.isSpaceOrBreak (v.headD '\x00') = false)
    (hleft : v = [] ∨ (Text.columnBehind column (t.body ++ b) : Int) ≤
      if t.isWord then indentOf base else column)
    (h : Goes (Scanner.Stands v (Text.columnBehind column (t.body ++ b)) (b.contains '\n')
        (t.columns column ++ base))
      (all ++ (List.replicate count .blockEnd ++ t.items inside)) out) :
    Goes (Scanner.Stands (t.body ++ (b ++ v)) column fresh columns) all out := by
  induction hfits generalizing inside count base columns fresh all v b with
  | word hw _ =>
      obtain rfl := hinside rfl
      exact .word hw hb henters hv hleft h
  | @last column head node hhead hfollows hnode ih =>
      obtain rfl := hfresh rfl
      rw [Sheet.body, List.append_assoc] at hleft h
      rw [Text.columnBehind_append] at hleft h
      rw [Sheet.body, List.append_assoc]
      refine .head hhead henters (ih (.opens (Int.ofNat_lt.mpr hhead.deeper)) (fun _ => rfl)
        hfollows.fresh hb hv (hleft.imp_right (le_of_left hhead)) ?_)
      simpa [Sheet.columns, Sheet.opened, Sheet.items] using h
  | @more column head node rest hhead hfollows hnode haligned hkind hrest ihnode ihrest =>
      obtain rfl := hfresh rfl
      have hword : rest.isWord = false := by
        cases rest with
        | word _ _ => cases hkind
        | last _ _ | more _ _ _ => rfl
      have hnext : Text.columnBehind (Text.columnBehind column head.text) (node.body ++ node.tail) =
          column := by
        rw [← Sheet.text_eq, hnode.columnBehind_text, haligned]
      have hafter : Text.columnBehind column (head.text ++ node.text ++ rest.body ++ b) =
          Text.columnBehind column (rest.body ++ b) := by
        rw [List.append_assoc _ rest.body, Text.columnBehind_append column (head.text ++ node.text),
          Text.columnBehind_append column head.text, Sheet.text_eq, hnext]
      rw [Sheet.body, hafter] at hleft h
      rw [Sheet.body, Sheet.text_eq]
      simp only [List.append_assoc]
      refine .head hhead henters (ihnode (.opens (Int.ofNat_lt.mpr hhead.deeper)) (fun _ => rfl)
        hfollows.fresh (.inl hnode.isBreak_tail)
        (Token.not_isSpaceOrBreak_of (hrest.headD_body _).1)
        (.inr (le_of_left hhead (Int.le_of_eq (by rw [hnext])))) ?_)
      have hup : ∀ c ∈ node.columns (Text.columnBehind column head.text), column < c := by
        intro c hc
        obtain ⟨l, hl, rfl⟩ := List.mem_map.mp hc
        exact Nat.lt_of_lt_of_le hhead.deeper (hnode.mem_opened l hl).2
      rw [hnext]
      refine ihrest (.goesOn hup) (fun hw => ?_) (fun _ => ?_) hb hv
        (hleft.imp_right fun hle => ?_) ?_
      · rw [hword] at hw
        cases hw
      · simpa using hnode.isBreak_tail.feed
      · rw [if_neg (ne_true_of_eq_false hword)]
        exact hle
      · rw [Sheet.length_columns]
        simpa [Sheet.columns, Sheet.opened, Sheet.items] using h

end Rounds

/-! ## The end of the text -/

namespace Scan

/-- The end closes what is open. -/
theorem exists_streamEnd {s : Scanner} {key : PendingKey} (columns : List Nat)
    (hs : s.IsOutside columns) (hkeys : s.keys = [key])
    (hkey : (key.possible && key.required) = false) :
    ∃ s' m, fetchStreamEnd s = .ok ((), s') ∧ s'.illegal = none ∧
      (∃ key, s'.keys = [key] ∧ key.possible = false) ∧
      s'.queue = s.queue ++ List.replicate columns.length ⟨Span.empty m, .blockEnd⟩ ++
        [⟨Span.empty m, .streamEnd⟩] := by
  obtain ⟨t, ht, hkeys', hqueue, hrun⟩ : ∃ t : Scanner, t.IsOutside columns ∧ t.keys = s.keys ∧
      t.queue = s.queue ∧ fetchStreamEnd s = (do
        unrollIndent (-1)
        dropPendingKey
        setKeyAllowed false
        push (Span.empty (← mark)) .streamEnd) t := by
    refine ⟨if s.mark.column = 0 then s
      else { s with mark := { s.mark with column := 0, line := s.mark.line + 1 } }, ?_, ?_, ?_, rfl⟩
    · split
      · exact hs
      · exact hs.of_eq rfl rfl rfl rfl
    · split <;> rfl
    · split <;> rfl
  have hall : columns.takeWhile (isBeyond (-1)) = columns := by
    rw [List.takeWhile_eq_self_iff]
    intro c _
    simp only [isBeyond, decide_eq_true_eq]
    omega
  have hdrop := dropPendingKey_eq (s := t.closed (-1) columns) (hkeys'.trans hkeys)
    hkey
  rw [bind_of_ok (unrollIndent_outside ht (-1)), bind_of_ok hdrop, setKeyAllowed_bind,
    mark_bind] at hrun
  refine ⟨_, t.mark, hrun, ht.illegal, ⟨_, rfl, rfl⟩, ?_⟩
  rw [Scanner.closed, hall, hqueue]

theorem mustFetch_none {s : Scanner} {key : PendingKey} (hqueue : s.queue ≠ [])
    (hkeys : s.keys = [key]) (hkey : key.possible = false) :
    mustFetch.run s = .ok (false, s) := by
  have hstale : isStale s key = false := by simp [isStale, hkey]
  have haged : s.aged key = s := by
    rw [Scanner.aged, hstale, if_neg (by decide), ← hkeys]
  have hdrop := dropStaleKeys_one hkeys (by simp [hstale])
  rw [haged] at hdrop
  show (mustFetch s : Except _ _) = _
  unfold mustFetch
  rw [get_bind, if_neg (by simpa using hqueue), bind_of_ok hdrop, get_bind, hkeys]
  simp [hkey]
  rfl

end Scan

/-- What waits at the end is handed out. -/
theorem scanFrom_end {key : PendingKey} (hkey : key.possible = false) {e : Located Token}
    (he : e.item = .streamEnd) {queue : List (Located Token)} :
    ∀ {s : Scanner} {fuel : Nat} {handed : List (Located Token)},
      (∀ t ∈ queue, t.item ≠ .streamEnd) → s.queue = queue ++ [e] → s.keys = [key] →
        queue.length < fuel →
          scanFrom fuel s handed = ⟨handed.reverse ++ (queue ++ [e]), none⟩ := by
  induction queue with
  | nil =>
      intro s fuel handed _ hs hkeys hfuel
      obtain ⟨fuel, rfl⟩ := Nat.exists_eq_add_one.mpr hfuel
      rw [scanFrom, Scan.mustFetch_none (by simp [hs]) hkeys hkey]
      simp [hs, he]
  | cons t queue ih =>
      intro s fuel handed hqueue hs hkeys hfuel
      obtain ⟨fuel, rfl⟩ := Nat.exists_eq_add_one.mpr (Nat.zero_lt_of_lt hfuel)
      have ht := hqueue t List.mem_cons_self
      rw [scanFrom, Scan.mustFetch_none (by simp [hs]) hkeys hkey]
      simp only [hs, List.cons_append, if_neg ht]
      refine (ih (s := { s with queue := queue ++ [e], taken := s.taken + 1 })
        (fun t ht => hqueue t (List.mem_cons_of_mem _ ht)) rfl hkeys
        (Nat.lt_of_succ_lt_succ hfuel)).trans ?_
      simp

/-- The end closes what is open. -/
theorem Goes.end {column : Nat} {fresh : Bool} {columns : List Nat} {all : List Token} :
    Goes (Scanner.Stands [] column fresh columns) all
      (all ++ (List.replicate columns.length .blockEnd ++ [.streamEnd])) := by
  refine .of_round (Scanner.stands_lasts _ _ _ _) fun {s handed fuel} hall hs hhands hfuel => ?_
  obtain @⟨g, key, hg, hrest, -, -, hkeys, hkey, hlegible, hbound, houtside⟩ := hs
  have hstale : Scan.isStale (s.reach g []) key = true → key.required = false := by
    intro h
    rw [Scan.isStale, Bool.and_eq_true] at h
    exact (hkey h.1).1
  have hfetch := Scan.fetch_end hg hlegible rfl (by decide) houtside hkeys hstale hrest hbound rfl
  generalize hcolumn : ((s.reach g []).mark.column : Int) = c at *
  have hcount : (columns.takeWhile (isBeyond c)).length + (columns.dropWhile (isBeyond c)).length =
      columns.length := by
    rw [← List.length_append, List.takeWhile_append_dropWhile]
  obtain ⟨s', m, hrun, hillegal, ⟨key', hkeys', hkey'⟩, hqueue⟩ :=
    Scan.exists_streamEnd (s := s.arrived g [] key columns) (columns.dropWhile (isBeyond c))
      ⟨houtside.flow, by rw [← hcolumn]; rfl, by rw [← hcolumn]; rfl, houtside.illegal⟩ rfl
      (by
        split
        · rfl
        · exact Bool.and_eq_false_imp.mpr fun h => (hkey h).1)
  have hlast : s'.queue = s.queue ++ List.replicate (columns.takeWhile (isBeyond c)).length
      ⟨Span.empty (s.reach g []).mark, .blockEnd⟩ ++ List.replicate
        (columns.dropWhile (isBeyond c)).length ⟨Span.empty m, .blockEnd⟩ ++
          [⟨Span.empty m, .streamEnd⟩] := by
    rw [hqueue, ← hcolumn]
    rfl
  refine ⟨s', _, hfetch.trans hrun, hillegal, scanFrom_end hkey' rfl ?_ hlast hkeys' ?_, ?_⟩
  · intro t ht
    rcases List.mem_append.mp ht with ht | ht
    · rcases List.mem_append.mp ht with ht | ht
      · exact fun heq => hall (hhands.items ▸ List.mem_map.mpr
          ⟨t, List.mem_append_right _ ht, heq⟩)
      · rw [List.eq_of_mem_replicate ht]
        simp
    · rw [List.eq_of_mem_replicate ht]
      simp
  · unfold Scanner.need at hfuel
    rw [houtside.outer, length_outerOf] at hfuel
    simp only [List.length_append, List.length_replicate]
    omega
  · rw [← hhands.items, ← hcount, List.replicate_add]
    simp [-List.replicate_append_replicate]

theorem readable_of_legible {t : Text} (h : t.IsLegible) : readable t = ⟨t, none⟩ := by
  have hall : t.all isTextChar = true := List.all_eq_true.mpr fun c hc => (h c hc).1
  have hfrom : ∀ {t : Text} {start used index : Nat}, t.all isTextChar = true →
      readableFrom start used index t = index + t.length := by
    intro t
    induction t with
    | nil => exact fun _ => rfl
    | cons c t ih =>
        intro start used index hall
        rw [List.all_cons, Bool.and_eq_true] at hall
        rw [readableFrom]
        simp only [hall.1, if_true]
        rw [ih hall.2, List.length_cons]
        omega
  rw [readable, hfrom hall, if_pos hall, Nat.zero_add, List.take_length]

/-- **The tokens of a text that is a sheet behind a margin**, without their places. -/
theorem scan_sheet {g b : Text} {t : Sheet} (hg : Token.Margin g)
    (hfits : t.Fits (Text.columnBehind 0 g)) (hb : Token.IsBreak b ∨ b = [])
    (hlegible : (g ++ (t.body ++ b)).IsLegible) :
    ∃ tokens, scan (g ++ (t.body ++ b)) = ⟨tokens, none⟩ ∧ tokens.map (·.item) =
      .streamStart :: (t.items false ++ List.replicate t.depth .blockEnd ++ [.streamEnd]) := by
  have houtermost : indentOf [] < Text.columnBehind 0 g :=
    Int.lt_of_lt_of_le (by decide : (-1 : Int) < 0) (Int.natCast_nonneg _)
  have hgoes : Goes (Scanner.Stands (t.body ++ (b ++ [])) (Text.columnBehind 0 g) true [])
      [.streamStart] _ :=
    .sheet (v := []) hfits (.opens houtermost) (fun _ => rfl) (fun _ => rfl)
      (hb.imp_right fun hb => ⟨hb, rfl⟩) (by decide) (.inl rfl) .end
  rw [List.append_nil] at hgoes
  unfold scan
  rw [readable_of_legible hlegible]
  have hstands : (Scanner.start ⟨g ++ (t.body ++ b), none⟩).Stands (t.body ++ b)
      (Text.columnBehind 0 g) true [] :=
    .mk hg rfl rfl (Bool.true_or _) rfl nofun hlegible (Nat.lt_succ_self _) ⟨rfl, rfl, rfl, rfl⟩
  have hneed : (Scanner.start ⟨g ++ (t.body ++ b), none⟩).need ≤
      10 * (g ++ (t.body ++ b)).length + 10 := by
    simp only [Scanner.need, Scanner.start, List.length_singleton, List.length_nil]
    omega
  have hhands : (Scanner.start ⟨g ++ (t.body ++ b), none⟩).Hands [] [.streamStart] := ⟨rfl, rfl⟩
  obtain ⟨tokens, hscan, hitems⟩ := hgoes (by simp) hstands hhands hneed
  refine ⟨tokens, hscan, hitems.trans ?_⟩
  simp [Sheet.length_columns]

end YamlEdit.Value.Source
