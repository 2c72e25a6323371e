import YamlEdit.Proofs.Margins
import YamlEdit.Proofs.MissingValues

/-!
# Documents that are one plain scalar

A text that is one presentation of a plain scalar, and that looks like nothing else, is a document
with that scalar in it. The scanner is followed from the start of the text to its end: nothing is
open outside brackets (`Scanner.Idle`), so that the scalar may be a key all the time and is handed
out at the end of the text at the latest.

Main statement: `Node.decodes_of_presents`.
-/

namespace YamlEdit

namespace Scanner

/-- The scanner is outside brackets and blocks, where no key is required. -/
structure Idle (s : Scanner) : Prop where
  flowLevel : s.flowLevel = 0
  indent : s.indent = -1
  outer : s.outer = []
  keys : ∀ key ∈ s.keys, key.required = false

/-- The scanner with other keys. -/
def keyed (s : Scanner) (keys : List PendingKey) : Scanner := { s with keys }

/-- The scanner with a token handed out, and with those that still wait. -/
def handedOut (s : Scanner) (queue : List (Located Token)) : Scanner :=
  { s with queue, taken := s.taken + 1 }

end Scanner

namespace Scan

open Token

section Idle

variable {s : Scanner} {c : Char}

/-- Giving up keys asks for none. -/
theorem dropStaleKeys_idle (h : s.Idle) :
    ∃ keys, (s.keyed keys).Idle ∧ dropStaleKeys s = .ok ((), s.keyed keys) := by
  have hnone : (s.keys.any fun key => isStale s key && key.required) = false := by
    rw [List.any_eq_false]
    intro key hkey
    simp [h.keys key hkey]
  refine ⟨s.keys.map fun key => if isStale s key then { key with possible := false } else key,
    ⟨h.flowLevel, h.indent, h.outer, fun key hkey => ?_⟩, ?_⟩
  · obtain ⟨key₀, hkey₀, rfl⟩ := List.mem_map.mp hkey
    split
    · exact h.keys key₀ hkey₀
    · exact h.keys key₀ hkey₀
  · unfold dropStaleKeys
    rw [get_bind, if_neg (ne_true_of_eq_false hnone)]
    rfl

theorem unrollIndent_idle (h : s.Idle) (column : Int) : unrollIndent column s = .ok ((), s) := by
  show Except.ok ((), if s.flowLevel > 0 then s else unrollIndent.closeBeyond column s.outer s) = _
  rw [h.outer]
  split <;> rfl

theorem skipToToken_stay {fuel : Nat} (hfuel : 0 < fuel)
    (hblank : isSpaceOrBreak (s.rest.headD '\x00') = false) (hhash : s.rest.headD '\x00' ≠ '#') :
    skipToToken fuel s = .ok ((), s) := by
  obtain ⟨fuel, rfl⟩ := Nat.exists_eq_add_one_of_ne_zero (Nat.ne_of_gt hfuel)
  rw [isSpaceOrBreak, Bool.or_eq_false_iff] at hblank
  have htab : s.rest.headD '\x00' ≠ '\t' := by
    intro h
    rw [h] at hblank
    exact absurd hblank.1 (by decide)
  rw [skipToToken, get_bind, peek_bind, if_neg (fun h => htab h.1),
    if_neg (ne_true_of_eq_false hblank.1), if_neg (ne_true_of_eq_false hblank.2), if_neg hhash]
  rfl

theorem mustFetch_empty (h : s.queue = []) : mustFetch s = .ok (true, s) := by
  unfold mustFetch
  rw [get_bind, h]
  rfl

/-- Tokens that wait do so for the keys that are left. -/
theorem mustFetch_of_drop {s' : Scanner} (hqueue : s.queue ≠ [])
    (hdrop : dropStaleKeys s = .ok ((), s')) :
    mustFetch s = .ok (s'.keys.any fun key => key.possible && key.token == s'.taken, s') := by
  unfold mustFetch
  rw [get_bind, if_neg (by simpa using hqueue), bind_of_ok hdrop]
  rfl

theorem mustFetch_idle (h : s.Idle) (hqueue : s.queue ≠ []) :
    ∃ keys must, (s.keyed keys).Idle ∧ mustFetch s = .ok (must, s.keyed keys) := by
  obtain ⟨keys, hkeys, hdrop⟩ := dropStaleKeys_idle h
  exact ⟨keys, _, hkeys, mustFetch_of_drop hqueue hdrop⟩

/-! ## The scalar -/

/-- A key that starts outside blocks is not required. -/
theorem startsKey_idle (h : s.Idle) : ∃ keys, (s.keyed keys).Idle ∧
    startsKey s = .ok ((), { s.keyed keys with keyAllowed := false }) := by
  cases hallowed : s.keyAllowed with
  | false =>
      refine ⟨s.keys, h, ?_⟩
      unfold startsKey savePendingKey
      rw [modify_bind, hallowed]
      rfl
  | true =>
      refine ⟨⟨true, s.flowLevel == 0 && s.indent == s.mark.column && s.outer.head?.any (·.isOpen),
        s.taken + s.queue.length, s.mark⟩ :: s.keys.drop 1,
        ⟨h.flowLevel, h.indent, h.outer, List.forall_mem_cons.mpr ⟨?_, fun key hkey =>
          h.keys key (List.mem_of_mem_drop hkey)⟩⟩, ?_⟩
      · rw [h.outer]
        exact Bool.and_false _
      · unfold startsKey savePendingKey
        rw [modify_bind, hallowed]
        rfl

/-- **A presentation that stands alone** is read as one plain scalar. -/
theorem scanPlain_alone {u text : Text} (h : s.Idle) (hu : Presents u text)
    (halone : StandsAlone u) (hrest : s.rest = u) (hleading : s.leading = true)
    (hbound : u.length < s.bound) :
    ∃ (mark : Mark) (leading keyAllowed : Bool), mark.index = s.mark.index + u.length ∧
      scanPlain s = .ok (⟨⟨s.mark, mark⟩, .scalar .plain text⟩,
        { s.arrived [] mark leading with keyAllowed }) := by
  have hunroll : unrollProvisional s = .ok ((), s) := by
    show Except.ok ((), unrollProvisional.forget s.outer s) = _
    rw [h.outer]
    rfl
  obtain ⟨mark, leading, hindex, hwords⟩ := plainWords_alone [] s.mark s.mark s.bound hu
    halone.colon halone.comment (hleading ▸ halone.marker)
    hrest h.flowLevel hbound hbound
  refine ⟨mark, leading, if leading then true else s.keyAllowed, hindex, ?_⟩
  have hlevel : ¬ (0 < s.flowLevel ∧ (s.mark.column : Int) < 0) := fun h => by omega
  have hempty : ¬ text.isEmpty = true := by simpa using hu.text_ne_nil
  unfold scanPlain
  rw [bind_of_ok hunroll, get_bind, mark_bind, get_bind, h.indent,
    show (-1 : Int) + 1 = 0 from rfl, if_neg hlevel]
  dsimp only
  rw [List.reverse_nil, List.nil_append] at hwords
  rw [fuel_bind, bind_of_ok hwords, get_bind]
  dsimp only
  cases leading with
  | true =>
      rw [if_pos (by rfl), bind_of_ok (x := allowKey) (a := ()) rfl, if_neg hempty]
      rfl
  | false =>
      rw [if_neg (show ¬ (s.arrived [] mark false).leading = true from Bool.false_ne_true),
        if_neg hempty]
      rfl

/-- What the scanner is like when it has read a text that is one plain scalar, from `s` on. -/
structure HasRead (s : Scanner) (u text : Text) (s' : Scanner) : Prop extends s'.Idle where
  rest : s'.rest = []
  bound : s'.bound = s.bound
  queue : ∃ start stop : Mark,
    s'.queue = s.queue ++ [⟨⟨start, stop⟩, .scalar .plain text⟩] ∧
      start.index = s.mark.index ∧ stop.index = s.mark.index + u.length

theorem fetchPlain_alone {u text : Text} (h : s.Idle) (hu : Presents u text)
    (halone : StandsAlone u) (hrest : s.rest = u) (hleading : s.leading = true)
    (hbound : u.length < s.bound) :
    ∃ s', fetchPlain s = .ok ((), s') ∧ HasRead s u text s' := by
  obtain ⟨keys, hkeys, hstart⟩ := startsKey_idle h
  have hidle : ({ s.keyed keys with keyAllowed := false } : Scanner).Idle :=
    ⟨hkeys.flowLevel, hkeys.indent, hkeys.outer, hkeys.keys⟩
  obtain ⟨mark, leading, keyAllowed, hindex, hscan⟩ := scanPlain_alone hidle hu halone hrest
    hleading hbound
  unfold fetchPlain
  rw [bind_of_ok hstart, bind_of_ok hscan]
  exact ⟨_, rfl, ⟨hkeys.flowLevel, hkeys.indent, hkeys.outer, hkeys.keys⟩, rfl, rfl, s.mark, mark,
    rfl, rfl, hindex⟩

/-- **A text that is one plain scalar** is fetched at one go. -/
theorem fetch_plain {u text : Text} (h : s.Idle) (hu : Presents u text) (halone : StandsAlone u)
    (hstarts : StartsScalar u .plain) (hrest : s.rest = u) (hleading : s.leading = true)
    (hbound : u.length < s.bound) : ∃ s', fetch s = .ok ((), s') ∧ HasRead s u text s' := by
  obtain ⟨hblank, hreserved, hindicator⟩ := hstarts
  obtain ⟨keys, hkeys, hdrop⟩ := dropStaleKeys_idle h
  obtain ⟨s', hfetch, hread⟩ := fetchPlain_alone hkeys hu halone hrest hleading hbound
  refine ⟨s', ?_, hread.toIdle, hread.rest, hread.bound, hread.queue⟩
  have hhash : u.headD '\x00' ≠ '#' := by
    obtain ⟨c, t, rfl⟩ := List.exists_cons_of_ne_nil hu.ne_nil
    have := halone.comment
    rw [hasComment, Bool.or_eq_false_iff, Bool.true_and] at this
    simpa using this.1
  have hpercent : (u.headD '\x00' == '%') = false := by
    rw [beq_eq_false_iff_ne]
    intro h
    rw [h] at hreserved
    cases hreserved
  have hend : isEnd (u.headD '\x00') = false := by
    have := hu.headD
    rw [isSpaceOrEnd_eq, Bool.or_eq_false_iff] at this
    exact this.2
  have hmarker := not_marker_of_hasMarker hu.ne_nil halone.marker
  rw [Bool.true_and, Bool.or_eq_false_iff] at hmarker
  unfold fetch
  rw [fuel_bind, bind_of_ok (skipToToken_stay (Nat.zero_lt_of_lt hbound) (hrest ▸ hblank)
    (hrest ▸ hhash)), bind_of_ok hdrop, mark_bind, bind_of_ok (unrollIndent_idle hkeys _)]
  have hpeek : (s.keyed keys).rest = u := hrest
  have hcolumn : ¬ ((s.keyed keys).mark.column : Int) < (s.keyed keys).indent := by
    rw [hkeys.indent]
    omega
  generalize s.keyed keys = s₁ at *
  subst hpeek
  rw [peek_bind, mark_bind, hend, hpercent, Bool.and_false, if_neg Bool.false_ne_true,
    if_neg Bool.false_ne_true]
  rw [bind_of_ok (x := atDocumentStart) (a := isDocumentMarker '-' s₁.rest) rfl, hmarker.1,
    Bool.and_false, if_neg Bool.false_ne_true,
    bind_of_ok (x := atDocumentEnd) (a := isDocumentMarker '.' s₁.rest) rfl, hmarker.2,
    Bool.and_false, if_neg Bool.false_ne_true, mark_bind, get_bind, if_neg hcolumn, peekAt_bind,
    fetchByStart_plain hkeys.flowLevel hreserved hindicator halone.block.1 halone.block.2]
  exact hfetch

/-! ## The end of the text -/

/-- The token of the end is put behind those that wait. -/
theorem fetchStreamEnd_idle (h : s.Idle) : ∃ (s' : Scanner) (mark : Mark),
    fetchStreamEnd s = .ok ((), s') ∧ s'.queue = s.queue ++ [⟨Span.empty mark, .streamEnd⟩] ∧
      ∀ key ∈ s'.keys, key.possible = false := by
  have hnone : (s.keys.any fun key => key.required && key.possible) = false := by
    rw [List.any_eq_false]
    intro key hkey
    simp [h.keys key hkey]
  have hmoved : ∀ s₁ : Scanner, s₁.Idle → s₁.keys = s.keys → s₁.queue = s.queue →
      ∃ s', (do
        if (← get).keys.any fun key => key.required && key.possible then fail .simpleKeyExpected
        modify fun s => { s with keys := s.keys.map fun key => { key with possible := false } }
        unrollIndent (-1)
        forbidKey
        push (Span.empty (← mark)) .streamEnd : Scan Unit) s₁ = .ok ((), s') ∧
        s'.queue = s.queue ++ [⟨Span.empty s₁.mark, .streamEnd⟩] ∧
        ∀ key ∈ s'.keys, key.possible = false := by
    intro s₁ h₁ hkeys hqueue
    have hidle : (s₁.keyed (s₁.keys.map fun key => { key with possible := false })).Idle := by
      refine ⟨h₁.flowLevel, h₁.indent, h₁.outer, fun key hkey => ?_⟩
      obtain ⟨key₀, hkey₀, rfl⟩ := List.mem_map.mp hkey
      exact h₁.keys key₀ hkey₀
    rw [get_bind, hkeys, if_neg (ne_true_of_eq_false hnone)]
    show ∃ s', (unrollIndent (-1) >>= fun _ => do
        forbidKey
        push (Span.empty (← mark)) .streamEnd : Scan Unit)
        (s₁.keyed (s₁.keys.map fun key => { key with possible := false })) = .ok ((), s') ∧ _ ∧ _
    rw [bind_of_ok (unrollIndent_idle hidle (-1))]
    refine ⟨_, rfl, by rw [← hqueue]; rfl, fun key hkey => ?_⟩
    obtain ⟨key₀, -, rfl⟩ := List.mem_map.mp hkey
    rfl
  unfold fetchStreamEnd
  rw [modify_bind]
  obtain ⟨s', hs'⟩ := hmoved (if s.mark.column = 0 then s
    else { s with mark := { s.mark with line := s.mark.line + 1, column := 0 } })
    (by split; exacts [h, ⟨h.flowLevel, h.indent, h.outer, h.keys⟩]) (by split <;> rfl)
    (by split <;> rfl)
  exact ⟨s', _, hs'⟩

theorem fetch_end (h : s.Idle) (hrest : s.rest = []) (hbound : 0 < s.bound) :
    ∃ (s' : Scanner) (mark : Mark), fetch s = .ok ((), s') ∧
      s'.queue = s.queue ++ [⟨Span.empty mark, .streamEnd⟩] ∧
      ∀ key ∈ s'.keys, key.possible = false := by
  obtain ⟨keys, hkeys, hdrop⟩ := dropStaleKeys_idle h
  obtain ⟨s', mark, hfetch, hs'⟩ := fetchStreamEnd_idle hkeys
  refine ⟨s', mark, ?_, hs'⟩
  unfold fetch
  rw [fuel_bind, bind_of_ok (skipToToken_stay hbound (by rw [hrest]; rfl) (by rw [hrest]; decide)),
    bind_of_ok hdrop, mark_bind, bind_of_ok (unrollIndent_idle hkeys _), peek_bind, mark_bind,
    if_pos (by rw [show (s.keyed keys).rest = [] from hrest]; rfl)]
  exact hfetch

/-- Tokens need not wait for keys that have been given up. -/
theorem mustFetch_free (hqueue : s.queue ≠ []) (hkeys : ∀ key ∈ s.keys, key.possible = false) :
    mustFetch s = .ok (false, s) := by
  have hstale : ∀ key ∈ s.keys, isStale s key = false := by
    intro key hkey
    rw [isStale, hkeys key hkey]
    rfl
  have hnone : (s.keys.any fun key => isStale s key && key.required) = false := by
    rw [List.any_eq_false]
    intro key hkey
    simp [hstale key hkey]
  have hsame : (s.keys.map fun key =>
      if isStale s key then { key with possible := false } else key) = s.keys := by
    refine (List.map_congr_left fun key hkey => ?_).trans (List.map_id _)
    rw [if_neg (ne_true_of_eq_false (hstale key hkey))]
    rfl
  have hdrop : dropStaleKeys s = .ok ((), s) := by
    unfold dropStaleKeys
    rw [get_bind, if_neg (ne_true_of_eq_false hnone)]
    show Except.ok ((), s.keyed (s.keys.map fun key =>
      if isStale s key then { key with possible := false } else key)) = _
    rw [hsame]
    rfl
  have hfree : (s.keys.any fun key => key.possible && key.token == s.taken) = false := by
    rw [List.any_eq_false]
    intro key hkey
    simp [hkeys key hkey]
  rw [mustFetch_of_drop hqueue hdrop, hfree]

end Idle

end Scan

namespace Token

section Rounds

variable {fuel : Nat} {s s₁ s' : Scanner} {t last : Located Token}
  {front queue handed : List (Located Token)}

/-! ## Rounds of the scanner -/

theorem scanFrom_fetch (hmust : Scan.mustFetch s = .ok (true, s₁))
    (hfetch : Scan.fetch s₁ = .ok ((), s')) :
    scanFrom (fuel + 1) s handed = scanFrom fuel s' handed := by
  rw [scanFrom, show Scan.mustFetch.run s = _ from hmust]
  dsimp only
  rw [show Scan.fetch.run s₁ = _ from hfetch]

theorem scanFrom_hand (hmust : Scan.mustFetch s = .ok (false, s')) (hqueue : s'.queue = t :: queue)
    (ht : t.item ≠ .streamEnd) :
    scanFrom (fuel + 1) s handed =
      scanFrom fuel (s'.handedOut queue) (t :: handed) := by
  rw [scanFrom, show Scan.mustFetch.run s = _ from hmust]
  dsimp only
  rw [hqueue]
  dsimp only
  rw [if_neg ht]
  rfl

theorem scanFrom_last (hmust : Scan.mustFetch s = .ok (false, s')) (hqueue : s'.queue = t :: queue)
    (ht : t.item = .streamEnd) :
    scanFrom (fuel + 1) s handed = ⟨(t :: handed).reverse, none⟩ := by
  rw [scanFrom, show Scan.mustFetch.run s = _ from hmust]
  dsimp only
  rw [hqueue]
  dsimp only
  rw [if_pos ht]

/-- Tokens that need not wait any more are handed out up to the end. -/
theorem scanFrom_drain (front : List (Located Token)) (hqueue : s.queue = front ++ [last])
    (hlast : last.item = .streamEnd)
    (hfront : ∀ t ∈ front, t.item ≠ .streamEnd) (hkeys : ∀ key ∈ s.keys, key.possible = false)
    (hfuel : front.length < fuel) :
    scanFrom fuel s handed = ⟨handed.reverse ++ (front ++ [last]), none⟩ := by
  induction front generalizing fuel s handed with
  | nil =>
      obtain ⟨fuel, rfl⟩ := Nat.exists_eq_add_one_of_ne_zero (Nat.ne_of_gt hfuel)
      rw [scanFrom_last (Scan.mustFetch_free (by rw [hqueue]; nofun) hkeys) hqueue hlast,
        List.reverse_cons]
      rfl
  | cons t front ih =>
      obtain ⟨fuel, rfl⟩ := Nat.exists_eq_add_one.mpr (Nat.zero_lt_of_lt hfuel)
      have hmust := Scan.mustFetch_free (by rw [hqueue]; nofun) hkeys
      rw [List.cons_append] at hqueue
      rw [scanFrom_hand hmust hqueue (hfront t List.mem_cons_self),
        ih (s := s.handedOut (front ++ [last])) rfl
          (fun x hx => hfront x (List.mem_cons_of_mem t hx)) hkeys
          (Nat.lt_of_succ_lt_succ hfuel), List.reverse_cons, List.append_assoc]
      rfl

/-- At the end of the text the token that waits is handed out, and then the end. -/
theorem scanFrom_end (fuel : Nat) (handed : List (Located Token)) (h : s.Idle)
    (hrest : s.rest = []) (hbound : 0 < s.bound)
    (hqueue : s.queue = [t]) (ht : t.item ≠ .streamEnd) :
    ∃ mark, scanFrom (fuel + 3) s handed =
      ⟨handed.reverse ++ [t, ⟨Span.empty mark, .streamEnd⟩], none⟩ := by
  obtain ⟨keys, must, hkeys, hmust⟩ := Scan.mustFetch_idle h (by rw [hqueue]; nofun)
  cases must with
  | true =>
      obtain ⟨s', mark, hfetch, hs', hpossible⟩ := Scan.fetch_end hkeys hrest hbound
      refine ⟨mark, ?_⟩
      rw [scanFrom_fetch hmust hfetch]
      have hs' : s'.queue = [t] ++ [⟨Span.empty mark, .streamEnd⟩] := by
        rw [hs', ← hqueue]
        rfl
      exact scanFrom_drain [t] hs' rfl (fun x hx => List.mem_singleton.mp hx ▸ ht) hpossible
        (Nat.le_add_left 2 fuel)
  | false =>
      -- the key has been given up, so the token goes first
      rw [scanFrom_hand hmust hqueue ht]
      have hidle : ((s.keyed keys).handedOut []).Idle :=
        ⟨hkeys.flowLevel, hkeys.indent, hkeys.outer, hkeys.keys⟩
      obtain ⟨s', mark, hfetch, hs', hpossible⟩ := Scan.fetch_end hidle hrest hbound
      refine ⟨mark, ?_⟩
      rw [scanFrom_fetch (Scan.mustFetch_empty rfl) hfetch,
        scanFrom_drain [] hs' rfl nofun hpossible (Nat.succ_pos fuel), List.reverse_cons,
        List.append_assoc]
      rfl

/-- **The tokens of a text that is one plain scalar.** -/
theorem scan_plain {u text : Text} (hu : Presents u text) (halone : StandsAlone u)
    (hstarts : StartsScalar u .plain) :
    ∃ start stop last : Mark, start.index = 0 ∧ stop.index = u.length ∧
      scan u = ⟨[⟨Span.empty Mark.origin, .streamStart⟩, ⟨⟨start, stop⟩, .scalar .plain text⟩,
        ⟨Span.empty last, .streamEnd⟩], none⟩ := by
  have hmust : Scan.mustFetch (Scanner.start u) = .ok (false, Scanner.start u) :=
    Scan.mustFetch_free nofun fun key hkey => by
      rw [List.mem_singleton.mp hkey]
      rfl
  have hidle : ((Scanner.start u).handedOut []).Idle :=
    ⟨rfl, rfl, rfl, fun key hkey => by
      rw [List.mem_singleton.mp hkey]
      rfl⟩
  obtain ⟨s', hfetch, hread⟩ := Scan.fetch_plain hidle hu halone hstarts rfl rfl
    (Nat.lt_succ_self u.length)
  obtain ⟨start, stop, hqueue, hstart, hstop⟩ := hread.queue
  obtain ⟨last, hend⟩ := scanFrom_end (10 * u.length + 5)
    [⟨Span.empty Mark.origin, .streamStart⟩] hread.toIdle hread.rest
    (by rw [hread.bound]; exact Nat.succ_pos u.length) hqueue nofun
  refine ⟨start, stop, last, hstart, hstop.trans (Nat.zero_add _), ?_⟩
  unfold scan
  rw [scanFrom_hand hmust rfl nofun, scanFrom_fetch (Scan.mustFetch_empty rfl) hfetch, hend]
  rfl

end Rounds

end Token

/-! ## The tree -/

/-- A text that is the document of one scalar with the given text. -/
def Node.Decodes (u text : Text) : Prop :=
  ∃ root doc n, Node.ofText (SourceMap.ofText u) = .ok root ∧ root.children = [doc] ∧
    doc.children = [n] ∧ n.kind = .scalar text

theorem Event.ofDocument_plain {u text : Text} {start stop last : Mark}
    (h : Token.scan u = ⟨[⟨Span.empty Mark.origin, .streamStart⟩,
      ⟨⟨start, stop⟩, .scalar .plain text⟩, ⟨Span.empty last, .streamEnd⟩], none⟩) :
    Event.ofDocument u = .ok [(.streamStart, Span.empty Mark.origin),
      (.documentStart, ⟨start, stop⟩), (.scalar text .plain 0, ⟨start, stop⟩),
      (.documentEnd, Span.empty last), (.streamEnd, Span.empty last)] := by
  unfold Event.ofDocument
  rw [h]
  rfl

section Tree

open Text TreeBuilder

variable {u text : Text}

/-- The scalar of such a text reaches from its start to its end. -/
theorem scalar_plain {start stop : Mark} {s : TreeBuilder.State} (hne : u ≠ [])
    (hmark : Extent.isPropertyMark (u.headD ' ') = false) (hstart : start.index = 0)
    (hstop : stop.index = u.length) : ∃ n, n.kind = .scalar text ∧
      scalar (SourceMap.ofText u) text .plain 0 ⟨start, stop⟩ s = .ok (n, s) := by
  have hsize : 0 ≠ max (size u) 0 := by
    obtain ⟨c, t, rfl⟩ := List.exists_cons_of_ne_nil hne
    have := size_pos_of_cons c t
    omega
  have hslice : u.slice 0 (max (size u) 0) = .ok u :=
    slice_eq_ok.mpr ⟨[], [], (List.append_nil u).symm, rfl, by simp⟩
  have hmarked : (SourceMap.ofText u).offsetOfMark start = 0 := by
    rw [Node.offsetOfMark_eq, hstart, List.take_zero]
    rfl
  have hend : (SourceMap.ofText u).offsetOfMark stop = size u := by
    rw [Node.offsetOfMark_eq, hstop, List.take_length]
  have hskip : Extent.skipProperties (SourceMap.ofText u).source 0 = .ok 0 :=
    Extent.skipProperties_append (x := []) hmark
  have htrim : trimmedEnd (SourceMap.ofText u) 0 (max (size u) 0) =
      .ok (0 + size (Text.trimEnd u)) := by
    unfold trimmedEnd
    rw [show (SourceMap.ofText u).source.slice 0 (max (size u) 0) = _ from hslice]
    rfl
  have hextent : scalarExtent (SourceMap.ofText u) text .plain 0 (max (size u) 0) =
      .ok (0, 0 + size (Text.trimEnd u), text) := by
    unfold scalarExtent
    dsimp only
    rw [if_neg hsize, htrim]
    rfl
  unfold scalar
  rw [hmarked, hend, hskip, offsets_ok_bind, hextent, offsets_ok_bind]
  exact ⟨_, rfl, rfl⟩

/-- No property starts like a plain scalar. -/
theorem Token.not_isPropertyMark {c : Char} (h : Token.isReserved c = false) :
    Extent.isPropertyMark c = false := by
  simp only [Token.isReserved, Bool.or_eq_false_iff] at h
  obtain ⟨⟨⟨⟨⟨⟨⟨-, hand⟩, htag⟩, -⟩, -⟩, -⟩, -⟩, -⟩ := h
  rw [Extent.isPropertyMark, Bool.or_eq_false_iff]
  exact ⟨hand, htag⟩

/-- **A presentation that stands alone** is a document with the text in it that it stands for. -/
theorem Node.decodes_of_presents (hu : Token.Presents u text) (halone : Token.StandsAlone u)
    (hstarts : Token.StartsScalar u .plain) : Node.Decodes u text := by
  obtain ⟨start, stop, last, hstart, hstop, hscan⟩ := Token.scan_plain hu halone hstarts
  have hevents := Event.ofDocument_plain hscan
  have hmark : Extent.isPropertyMark (u.headD ' ') = false := by
    obtain ⟨c, t, rfl⟩ := List.exists_cons_of_ne_nil hu.ne_nil
    exact Token.not_isPropertyMark hstarts.2.1
  obtain ⟨n, hkind, hscalar⟩ := @scalar_plain u text start stop
    ⟨.inside [], [], []⟩ hu.ne_nil hmark hstart hstop
  have hstep : step (SourceMap.ofText u) (.scalar text .plain 0) ⟨start, stop⟩
      ⟨.inside [], [], []⟩ =
        .ok ((), ⟨.afterContent, [⟨.document, n.start, n.stop, none, [n]⟩], []⟩) := by
    rw [step_inside rfl]
    exact stateful_bind_eq_ok.mpr ⟨n, _, hscalar, rfl⟩
  have hsteps : steps (SourceMap.ofText u) [(.streamStart, Span.empty Mark.origin),
      (.documentStart, ⟨start, stop⟩), (.scalar text .plain 0, ⟨start, stop⟩),
      (.documentEnd, Span.empty last), (.streamEnd, Span.empty last)] TreeBuilder.start =
        .ok ((), ⟨.ended, [⟨.document, n.start, n.stop, none, [n]⟩], []⟩) :=
    steps_cons.mpr ⟨_, rfl, steps_cons.mpr ⟨_, rfl, steps_cons.mpr ⟨_, hstep,
      steps_cons.mpr ⟨_, rfl, steps_cons.mpr ⟨_, rfl, rfl⟩⟩⟩⟩⟩
  refine ⟨⟨.stream, ⟨0, 0⟩, (SourceMap.ofText u).position (size u), none,
    [⟨.document, n.start, n.stop, none, [n]⟩]⟩, _, n, ?_, rfl, rfl, hkind⟩
  unfold Node.ofText
  rw [show Event.ofDocument (SourceMap.ofText u).source = _ from hevents]
  exact bind_eq_ok.mpr ⟨((), _), hsteps, rfl⟩

end Tree

end YamlEdit
