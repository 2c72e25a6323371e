import Mathlib.Data.List.TakeWhile
import YamlEdit.Proofs.Outside
import YamlEdit.Proofs.PlainDocuments
import YamlEdit.Proofs.Sheets

/-!
# The tokens of a sheet

The scanner takes a sheet head by head. Which tokens come out is a matter of the layout and the
places (`Sheet.tokens`, `Sheet.closedTokens`): a collection is opened at its first entry, and those
that stand further right are closed where the next token starts.

Main statement: `Token.scan_sheet`.
-/

namespace YamlEdit

/-! ## Rounds -/

namespace Scanner

/-- More than the rounds that are still to come: a character leads to at most nine of them. -/
def need (s : Scanner) : Nat := 9 * s.rest.length + s.queue.length + s.outer.length + 2

/-- The tokens so far: those handed out and those that wait. -/
structure Hands (s : Scanner) (handed all : List (Located Token)) : Prop where
  tokens : handed.reverse ++ s.queue = all
  taken : s.taken = handed.length

/-- What still holds when keys get too old and when a token is handed out. -/
structure Lasts (P : Scanner → Prop) : Prop where
  ages : ∀ {s}, P s → ∃ s', Scan.dropStaleKeys s = .ok ((), s') ∧ P s' ∧ s'.queue = s.queue ∧
    s'.taken = s.taken ∧ s'.need = s.need
  handsOut : ∀ {s t queue}, P s → s.queue = t :: queue →
    (s.keys.any fun key => key.possible && key.token == s.taken) = false →
    P (s.handedOut queue)

end Scanner

/-- A token that is neither the end of the text nor a property. -/
def Located.IsOrdinary (t : Located Token) : Prop :=
  t.item ≠ .streamEnd ∧ Scan.isProperty t.item = false

/-- The scanner comes to the given end from any state that satisfies `P`, with the given tokens so
far. -/
def Goes (P : Scanner → Prop) (all : List (Located Token)) (out : TokenStream) : Prop :=
  (∀ t ∈ all, t.IsOrdinary) → ∀ {s : Scanner} {fuel : Nat} {handed : List (Located Token)}, P s →
    s.Hands handed all → s.need ≤ fuel → Token.scanFrom fuel s handed = out

/-- **A round.** Tokens that cannot start a key any more are handed out before the next one is
fetched. -/
theorem Goes.of_round {P : Scanner → Prop} {all : List (Located Token)} {out : TokenStream}
    (hP : Scanner.Lasts P)
    (h : ∀ {s handed fuel}, (∀ t ∈ all, t.IsOrdinary) → P s → s.Hands handed all →
      s.need ≤ fuel + 1 → ∃ s', Scan.fetch s = .ok ((), s') ∧ Token.scanFrom fuel s' handed = out) :
    Goes P all out := by
  intro hall s fuel handed hs hhands hfuel
  have hpos : 0 < fuel := by
    unfold Scanner.need at hfuel
    omega
  -- the induction is on the tokens that wait
  induction hqueue : s.queue generalizing s fuel handed with
  | nil =>
      obtain ⟨fuel, rfl⟩ := Nat.exists_eq_add_one.mpr hpos
      obtain ⟨s', hrun, hout⟩ := h hall hs hhands hfuel
      rwa [Token.scanFrom_fetch (Scan.mustFetch_empty hqueue) hrun]
  | cons t queue ih =>
      obtain ⟨fuel, rfl⟩ := Nat.exists_eq_add_one.mpr hpos
      obtain ⟨s₁, hdrop, hs₁, hqueue₁, htaken₁, hneed₁⟩ := hP.ages hs
      have hhands₁ : s₁.Hands handed all := ⟨by rw [hqueue₁]; exact hhands.tokens,
        htaken₁.trans hhands.taken⟩
      have hmust := Scan.mustFetch_of_drop (by rw [hqueue]; nofun) hdrop
      cases hwaits : s₁.keys.any fun key => key.possible && key.token == s₁.taken with
      | true =>
          obtain ⟨s', hrun, hout⟩ := h hall hs₁ hhands₁ (hneed₁.trans_le hfuel)
          rwa [Token.scanFrom_fetch (hwaits ▸ hmust) hrun]
      | false =>
          have ht : t.item ≠ .streamEnd := (hall t (by rw [← hhands.tokens, hqueue]; simp)).1
          have hless : (s₁.handedOut queue).need ≤ fuel := by
            have : s₁.queue.length = queue.length + 1 := by rw [hqueue₁, hqueue]; rfl
            unfold Scanner.need at hneed₁ hfuel ⊢
            simp only [Scanner.handedOut]
            omega
          rw [Token.scanFrom_hand (hwaits ▸ hmust) (hqueue₁.trans hqueue) ht]
          refine ih (hP.handsOut hs₁ (hqueue₁.trans hqueue) hwaits) ⟨?_, ?_⟩ hless ?_ rfl
          · rw [← hhands.tokens, hqueue]
            simp [Scanner.handedOut]
          · simp [Scanner.handedOut, hhands₁.taken]
          · unfold Scanner.need at hless
            omega

/-- One token more. -/
theorem Goes.of_fetch {P Q : Scanner → Prop} {all all' : List (Located Token)} {out : TokenStream}
    (hP : Scanner.Lasts P)
    (hfetch : ∀ {s handed}, (∀ t ∈ all, t.IsOrdinary) → P s → s.Hands handed all →
      ∃ s', Scan.fetch s = .ok ((), s') ∧ Q s' ∧ s'.Hands handed all' ∧ s'.need < s.need)
    (hnew : ∀ t ∈ all', t ∈ all ∨ t.IsOrdinary) (h : Goes Q all' out) : Goes P all out := by
  refine .of_round hP fun hall hs hhands hfuel => ?_
  obtain ⟨s', hrun, hs', hhands', hneed⟩ := hfetch hall hs hhands
  exact ⟨s', hrun, h (fun t ht => (hnew t ht).elim (hall t) id) hs' hhands' (by omega)⟩

/-! ## The scanner between tokens -/

theorem PendingKey.aged_eq_false {key : PendingKey} {m : Mark}
    (hkey : key.possible = true → key.mark.line < m.line) : (key.aged m).possible = false := by
  cases hpossible : key.possible with
  | false => simp [aged, isOld, hpossible]
  | true => simp [aged, isOld, hpossible, hkey hpossible]

namespace Scanner

open Token

/-- The scanner has come to a margin in front of `v`, which stands at `m`. The key that is pending,
if any, is on an earlier line. The flag says whether a key may start at `m`. -/
inductive Stands (m : Mark) (v : Text) (fresh : Bool) (levels : List Level) : Scanner → Prop where
  | mk {g : Text} {start : Mark} {queue : List (Located Token)} {taken bound : Nat}
      {f leading : Bool} {key : PendingKey} (hg : Margin g) (hover : start.across g = m)
      (hfresh : (f || g.contains '\n') = fresh)
      (hkey : key.possible = true →
        key.required = false ∧ key.mark.line < m.line ∧ taken ≤ key.token)
      (hbound : (g ++ v).length < bound) :
      Stands m v fresh levels (outside (g ++ v) start queue taken f key levels leading bound)

theorem stands_lasts (m : Mark) (v : Text) (fresh : Bool) (levels : List Level) :
    Lasts (Stands m v fresh levels) where
  ages := by
    rintro s ⟨hg, hover, hfresh, hkey, hbound⟩
    refine ⟨_, Scan.dropStaleKeys_outside fun h => .inl (hkey h).1,
      .mk hg hover hfresh (fun h => ?_) hbound, rfl, rfl, rfl⟩
    rw [PendingKey.aged] at h ⊢
    split at h
    · cases h
    · next hold =>
        rw [if_neg hold]
        exact hkey h
  handsOut := by
    rintro s t queue @⟨g, start, _, taken, bound, f, leading, key, hg, hover, hfresh, hkey,
      hbound⟩ - hwaits
    refine .mk hg hover hfresh (fun h => ?_) hbound
    obtain ⟨hrequired, hline, htaken⟩ := hkey h
    refine ⟨hrequired, hline, Nat.lt_of_le_of_ne htaken fun heq => ?_⟩
    exact (show ¬ key.token = taken by simpa [outside, h] using hwaits) heq.symm

end Scanner

open Scanner in
/-- A scalar that is no key. -/
theorem Goes.word {m : Mark} {w b v : Text} {fresh : Bool} {base levels : List Level}
    {all : List (Located Token)} {out : TokenStream} (hw : Token.PlainLine w)
    (hb : Token.IsBreak b) (henters : Level.Enters false m.column base levels 0)
    (hv : Token.isSpaceOrBreak (v.headD '\x00') = false)
    (hleft : v = [] ∨ ((m.across (w ++ b)).column : Int) ≤ Level.indent base)
    (h : Goes (Stands (m.across (w ++ b)) v true base)
      (all ++ [⟨⟨m, m.across w⟩, .scalar .plain w⟩]) out) :
    Goes (Stands m (w ++ (b ++ v)) fresh levels) all out := by
  refine .of_fetch (stands_lasts _ _ _ _) (fun {s handed} _ hs hhands => ?_) ?_ h
  · obtain @⟨g, start, queue, taken, bound, f, leading, key, hg, hover, -, hkey, hbound⟩ := hs
    have hbase := henters.indent_lt
    have hsettled := henters.upTo.settled_eq
    have hlength : (w ++ (b ++ v)).length < bound := by
      rw [List.length_append] at hbound
      omega
    have hfetch : Scan.fetch (outside (g ++ (w ++ (b ++ v))) start queue taken f key levels leading
        bound) = _ :=
      Scan.fetch_outside hg hover (hw.headD_append (b ++ v)) (fun h => .inl (hkey h).1)
        (hw.noMark (hb.noMark v)) henters.upTo.indent_le hbound
    rw [Scan.fetchByStart_line hw rfl, henters.closings_eq] at hfetch
    obtain ⟨p, q, rfl, hq, hplain⟩ := Scan.fetchPlain_margin (m := m) (v := v) hw hb
      (by rw [hsettled]; omega) hv (by rwa [hsettled]) hlength
    rw [hsettled] at hplain
    have hfeed := hb.feed
    have hline : m.line < (m.across (w ++ (p ++ q))).line :=
      Mark.line_lt_across (List.mem_append_right w hfeed) m
    refine ⟨_, hfetch.trans hplain, .mk hq ?_ ?_ ?_ ?_, ⟨?_, hhands.taken⟩, ?_⟩
    · rw [Mark.across_append, Mark.across_append]
    · simpa using hfeed
    · intro hpossible
      split at hpossible
      · next hfresh =>
          rw [if_pos hfresh]
          exact ⟨Scan.not_required henters.upTo _, hline, Nat.le_add_right _ _⟩
      · rw [PendingKey.aged_eq_false fun h => (hkey h).2.1] at hpossible
        cases hpossible
    · simp only [List.length_append] at hlength ⊢
      omega
    · rw [← hhands.tokens]
      simp [outside]
    · have hpos := List.length_pos_iff.mpr hw.ne_nil
      have hlevels := henters.length_le
      simp only [need, outside, Level.length_outer, List.length_append, List.length_replicate,
        List.length_singleton]
      omega
  · intro t ht
    rcases List.mem_append.mp ht with ht | ht
    · exact .inl ht
    · obtain rfl := List.mem_singleton.mp ht
      exact .inr ⟨by simp, rfl⟩

/-- The columns behind the head of an entry: what follows on another line, or behind a key, has to
be indented. -/
def Head.levels (head : Head) (column : Nat) (base : List Level) : List Level :=
  if head.isKey || head.gap.contains '\n' then ⟨column + 1, false⟩ :: ⟨column, true⟩ :: base
  else ⟨column, true⟩ :: base

/-- The tokens of the head of an entry. -/
def Head.tokens (m : Mark) : Head → List (Located Token)
  | .dash gap => [⟨Span.empty (m.across ('-' :: gap.takeWhile (· == ' '))), .blockEntry⟩]
  | .key name _ => [⟨Span.empty m, .key⟩, ⟨⟨m, m.across name⟩, .scalar .plain name⟩,
      ⟨Span.empty (m.across name), .value⟩]

/-- The token that opens a collection. -/
def Head.opening (m : Mark) (head : Head) : Located Token :=
  ⟨Span.empty m, if head.isKey then .blockMappingStart else .blockSequenceStart⟩

/-- What the scanner puts on its stack behind a dash. -/
theorem Head.levels_dash {k column : Nat} {r v : Text} {base : List Level}
    (hend : r = [] ∧ '\n' ∉ Text.spaces k ++ r ∨ r.head? = some '\n')
    (hv : Token.isSpaceOrEnd (v.headD '\x00') = false)
    (hflow : Token.isFlow (v.headD '\x00') = false) :
    (if Token.isBreak ((r ++ v).headD '\x00') ∨ Token.isFlow ((r ++ v).headD '\x00')
      then ⟨column + 1, false⟩ :: ⟨column, true⟩ :: base else ⟨column, true⟩ :: base) =
      (Head.dash (Text.spaces k ++ r)).levels column base := by
  rcases hend with ⟨rfl, hfeed⟩ | hr
  · have hbreak : ¬ Token.isBreak (v.headD '\x00') = true := by
      intro h
      have := Token.not_isSpaceOrBreak_of hv
      rw [Token.isSpaceOrBreak, h, Bool.or_true] at this
      cases this
    rw [List.append_nil] at hfeed
    rw [List.nil_append, if_neg (not_or.mpr ⟨hbreak, ne_true_of_eq_false hflow⟩)]
    simp [Head.levels, Head.isKey, Head.gap, hfeed]
  · obtain ⟨r, rfl⟩ := List.head?_eq_some_iff.mp hr
    rw [if_pos (.inl rfl)]
    simp [Head.levels, Head.isKey, Head.gap]

theorem Located.isOrdinary_blockEnd (m : Mark) (count : Nat) :
    ∀ t ∈ List.replicate count (⟨Span.empty m, .blockEnd⟩ : Located Token), t.IsOrdinary := by
  intro t ht
  rw [List.eq_of_mem_replicate ht]
  exact ⟨by simp, rfl⟩

theorem Head.isOrdinary_tokens (inside : Bool) (m : Mark) (head : Head) :
    ∀ t ∈ (if inside then [] else [head.opening m]) ++ head.tokens m, t.IsOrdinary := by
  intro t ht
  cases inside <;> cases head <;>
    simp only [Head.opening, Head.tokens, Head.isKey, if_true, if_false, Bool.false_eq_true,
      List.nil_append, List.cons_append, List.mem_cons, List.not_mem_nil, or_false] at ht
  · rcases ht with rfl | rfl <;> exact ⟨by simp, rfl⟩
  · rcases ht with rfl | rfl | rfl | rfl <;> exact ⟨by simp, rfl⟩
  · obtain rfl := ht
    exact ⟨by simp, rfl⟩
  · rcases ht with rfl | rfl | rfl <;> exact ⟨by simp, rfl⟩

/-- Spaces, and then a line feed or nothing more. -/
theorem Token.Margin.split_spaces {gap : Text} (h : Token.Margin gap) (hhash : '#' ∉ gap) :
    ∃ k r, gap = Text.spaces k ++ r ∧ gap.takeWhile (· == ' ') = Text.spaces k ∧ Token.Margin r ∧
      (r = [] ∧ '\n' ∉ gap ∨ r.head? = some '\n') := by
  induction h with
  | nil => exact ⟨0, [], rfl, rfl, .nil, .inl ⟨rfl, nofun⟩⟩
  | @space u hu ih =>
      obtain ⟨k, r, hgap, htake, hr, hend⟩ := ih fun h => hhash (List.mem_cons_of_mem _ h)
      refine ⟨k + 1, r, by rw [hgap]; rfl, ?_, hr, ?_⟩
      · rw [List.takeWhile_cons_of_pos (by decide), htake]
        rfl
      · refine hend.imp_left fun ⟨hr, hfeed⟩ => ⟨hr, fun h => ?_⟩
        rcases List.mem_cons.mp h with h | h
        · cases h
        · exact hfeed h
  | @feed u hu _ => exact ⟨0, '\n' :: u, rfl, rfl, .feed hu, .inr rfl⟩
  | comment _ _ _ => exact absurd List.mem_cons_self hhash

theorem Scan.fetchByStart_dash {next : Char} (hnext : Token.isSpaceOrEnd next = true) :
    Scan.fetchByStart '-' next = Scan.fetchBlockEntry := by
  funext s
  unfold Scan.fetchByStart
  rw [get_bind]
  simp [hnext]

/-- No line of a document's own starts with the dash of an item. -/
theorem noMark_of_dash {t : Text} (ht : Token.isSpaceOrBreak (t.headD '\x00') = true) :
    ('-' :: t).headD '\x00' ≠ '%' ∧ Scan.isDocumentMarker '-' ('-' :: t) = false ∧
      Scan.isDocumentMarker '.' ('-' :: t) = false := by
  refine ⟨by simp, ?_, ?_⟩
  · cases t with
    | nil => rfl
    | cons c t =>
        have hc : c ≠ '-' := by
          rintro rfl
          cases ht
        simp [Scan.isDocumentMarker, hc]
  · simp [Scan.isDocumentMarker]

open Scanner in
/-- The dash of an item. -/
theorem Goes.dash {m : Mark} {gap v : Text} {inside : Bool} {count : Nat} {base levels : List Level}
    {all : List (Located Token)} {out : TokenStream} (hgap : Token.Margin gap)
    (hfirst : Token.isSpaceOrBreak (gap.headD '\x00') = true) (hhash : '#' ∉ gap)
    (henters : Level.Enters inside m.column base levels count)
    (hv : Token.isSpaceOrEnd (v.headD '\x00') = false ∧ v.headD '\x00' ≠ '#')
    (hflow : Token.isFlow (v.headD '\x00') = false)
    (h : Goes (Stands (m.across ('-' :: gap)) v true ((Head.dash gap).levels m.column base))
      (all ++ (List.replicate count ⟨Span.empty m, .blockEnd⟩ ++
        ((if inside then [] else [(Head.dash gap).opening m]) ++ (Head.dash gap).tokens m))) out) :
    Goes (Stands m ('-' :: (gap ++ v)) true levels) all out := by
  refine .of_fetch (stands_lasts _ _ _ _) (fun {s handed} hall hs hhands => ?_) (fun t ht => ?_) h
  · obtain @⟨g, start, queue, taken, bound, f, leading, key, hg, hover, hfresh, hkey, hbound⟩ := hs
    obtain ⟨k, r, rfl, htake, hr, hend⟩ := hgap.split_spaces hhash
    rw [List.append_assoc] at hbound
    have hfirst' : Token.isSpaceOrBreak ((Text.spaces k ++ (r ++ v)).headD '\x00') = true := by
      rw [← List.append_assoc]
      exact Token.isSpaceOrBreak_headD_append hfirst v
    have hfetch : Scan.fetch (outside (g ++ '-' :: (Text.spaces k ++ (r ++ v))) start queue taken f
        key levels leading bound) = _ :=
      Scan.fetch_outside hg hover ⟨rfl, by simp⟩ (fun h => .inl (hkey h).1) (noMark_of_dash hfirst')
        henters.upTo.indent_le hbound
    have hnext :
        Token.isSpaceOrEnd (('-' :: (Text.spaces k ++ (r ++ v))).getD 1 '\x00') = true := by
      rw [getD_one_cons, Token.isSpaceOrEnd_eq, hfirst', Bool.true_or]
    have hspace : Token.isSpace ((r ++ v).headD '\x00') = false ∧ (r ++ v).headD '\x00' ≠ '#' := by
      rcases hend with ⟨rfl, -⟩ | hr
      · have := hv.1
        rw [Token.isSpaceOrEnd, Bool.or_eq_false_iff] at this
        exact ⟨this.1, hv.2⟩
      · obtain ⟨r, rfl⟩ := List.head?_eq_some_iff.mp hr
        exact ⟨rfl, by simp⟩
    rw [List.headD_cons, Scan.fetchByStart_dash hnext, henters.closings_eq, hfresh] at hfetch
    have hentry : Scan.fetchBlockEntry (outside ('-' :: (Text.spaces k ++ (r ++ v))) m
        (queue ++ List.replicate count ⟨Span.empty m, .blockEnd⟩) taken true (key.aged m)
        (Level.upTo m.column levels) (leading || g.contains '\n') bound) = _ :=
      Scan.fetchBlockEntry_outside k henters.upTo hspace.1 hspace.2 (by
        intro t ht
        rcases List.mem_append.mp ht with ht | ht
        · exact (hall t (hhands.tokens ▸ List.mem_append_right _ ht)).2
        · rw [List.eq_of_mem_replicate ht]
          rfl)
      (PendingKey.aged_eq_false fun h => (hkey h).2.1)
    rw [Head.levels_dash hend hv.1 hflow] at hentry
    rw [List.append_assoc]
    refine ⟨_, hfetch.trans hentry, .mk hr ?_ (Bool.true_or _) ?_ ?_, ⟨?_, hhands.taken⟩, ?_⟩
    · rw [← Mark.across_append]
      rfl
    · intro hpossible
      rw [PendingKey.aged_eq_false fun h => (hkey h).2.1] at hpossible
      cases hpossible
    · simp only [List.length_append, List.length_cons] at hbound ⊢
      omega
    · rw [← hhands.tokens, Head.tokens, htake]
      cases inside <;> simp [outside, Scan.opened, Head.opening, Head.isKey]
    · have hlength := henters.length_le
      have hopened : (Scan.opened inside (queue ++ List.replicate count ⟨Span.empty m, .blockEnd⟩)
          taken none ⟨Span.empty m, .blockSequenceStart⟩).length ≤ queue.length + count + 1 := by
        cases inside <;> simp [Scan.opened, Nat.add_assoc]
      have hdeep : ((Head.dash (Text.spaces k ++ r)).levels m.column base).length ≤
          base.length + 2 := by
        unfold Head.levels
        split <;> simp
      simp only [need, outside, Level.length_outer, List.length_append, List.length_cons,
        List.length_nil]
      omega
  · exact (List.mem_append.mp ht).imp_right fun ht => (List.mem_append.mp ht).elim
      (Located.isOrdinary_blockEnd m count t) ((Head.dash gap).isOrdinary_tokens inside m t)

namespace Scanner

open Token

/-- The scanner has come to the `:` behind a key, which is token number `number`. -/
inductive AtColon (m : Mark) (name v : Text) (number : Nat) (levels : List Level) :
    Scanner → Prop where
  | mk {queue : List (Located Token)} {taken bound : Nat} {required : Bool}
      (htaken : taken ≤ number) (hbound : (':' :: v).length < bound) :
      AtColon m name v number levels
        (outside (':' :: v) (m.across name) queue taken false ⟨true, required, number, m⟩ levels
          false bound)

variable {m : Mark} {name : Text}

/-- Behind a key of one line that is not too long, it is still pending. -/
theorem isOld_eq_false (hname : PlainLine name) (hlength : Text.size name ≤ 1024) (required : Bool)
    (number : Nat) : PendingKey.isOld ⟨true, required, number, m⟩ (m.across name) = false := by
  rw [Mark.across_of_not_mem (Scan.not_mem_of_staysPlain hname.stays)]
  simp [PendingKey.isOld, (Text.length_le_size name).trans hlength]

theorem atColon_lasts (hname : PlainLine name) (hlength : Text.size name ≤ 1024) (v : Text)
    (number : Nat) (levels : List Level) : Lasts (AtColon m name v number levels) where
  ages := by
    rintro s @⟨queue, taken, bound, required, htaken, hbound⟩
    have hold := isOld_eq_false (m := m) hname hlength required number
    refine ⟨_, Scan.dropStaleKeys_outside fun _ => .inr hold, ?_, rfl, rfl, rfl⟩
    rw [PendingKey.aged, if_neg (ne_true_of_eq_false hold)]
    exact .mk htaken hbound
  handsOut := by
    rintro s t queue @⟨_, taken, bound, required, htaken, hbound⟩ - hwaits
    refine .mk (Nat.lt_of_le_of_ne htaken fun heq => ?_) hbound
    exact (show ¬ number = taken by simpa [outside] using hwaits) heq.symm

end Scanner

theorem Level.stay {levels : List Level} {column : Nat} (h : indent levels ≤ column) (m : Mark) :
    closings m column levels = [] ∧ upTo column levels = levels := by
  cases levels with
  | nil => exact ⟨rfl, rfl⟩
  | cons l levels =>
      have hl : ¬ column < l.column := by
        rw [indent] at h
        omega
      exact ⟨by simp [closings, hl], by simp [upTo, hl]⟩

theorem Scan.fetchByStart_colon {next : Char} (hnext : Token.isSpaceOrEnd next = true) :
    Scan.fetchByStart ':' next = Scan.fetchValue := by
  funext s
  unfold Scan.fetchByStart
  rw [get_bind]
  simp [hnext]

theorem Scan.opened_some {inside : Bool} {waiting rest : List (Located Token)} {taken number : Nat}
    {t : Located Token} (h : number - taken = waiting.length) :
    opened inside (waiting ++ rest) taken (some number) t =
      waiting ++ ((if inside then [] else [t]) ++ rest) := by
  cases inside <;> simp [opened, h]

/-- What waits, up to the last token. -/
theorem Scanner.Hands.before_last {s : Scanner} {handed all : List (Located Token)}
    {t : Located Token} (h : s.Hands handed (all ++ [t])) (htaken : s.taken ≤ all.length) :
    ∃ waiting, s.queue = waiting ++ [t] ∧ handed.reverse ++ waiting = all ∧
      all.length - s.taken = waiting.length := by
  have hqueue : s.queue = (all ++ [t]).drop handed.length := by
    rw [← h.tokens, ← List.length_reverse, List.drop_left]
  rw [h.taken] at htaken ⊢
  rw [List.drop_append_of_le_length htaken] at hqueue
  refine ⟨all.drop handed.length, hqueue, ?_, by simp⟩
  have htokens := h.tokens
  rw [hqueue, ← List.append_assoc] at htokens
  exact List.append_cancel_right htokens

section Key

open Scanner

variable {m : Mark} {name gap v : Text} {inside : Bool} {base : List Level}
  {all : List (Located Token)} {out : TokenStream}

/-- The `:` behind a key announces it. -/
theorem Goes.colon {levels : List Level} (hname : Token.PlainLine name)
    (hlength : Text.size name ≤ 1024) (hgap : Token.Margin gap)
    (hfirst : Token.isSpaceOrBreak (gap.headD '\x00') = true)
    (henters : Level.Enters inside m.column base levels 0)
    (h : Goes (Stands (m.across (name ++ ':' :: gap)) v (gap.contains '\n')
        ((Head.key name gap).levels m.column base))
      (all ++ ((if inside then [] else [(Head.key name gap).opening m]) ++
        (Head.key name gap).tokens m)) out) :
    Goes (AtColon m name (gap ++ v) all.length levels)
      (all ++ [⟨⟨m, m.across name⟩, .scalar .plain name⟩]) out := by
  refine .of_fetch (atColon_lasts hname hlength _ _ _) (fun {s handed} _ hs hhands => ?_)
    (fun t ht => ?_) h
  · obtain @⟨queue, taken, bound, required, htaken, hbound⟩ := hs
    -- the tokens that wait, up to the scalar that turns out to be a key
    obtain ⟨waiting, rfl, hwaiting, hcount⟩ := hhands.before_last htaken
    change all.length - taken = waiting.length at hcount
    have hnext : Token.isSpaceOrEnd ((':' :: (gap ++ v)).getD 1 '\x00') = true := by
      rw [getD_one_cons]
      exact Token.isSpaceOrEnd_headD_append hfirst v
    have hdeeper : (m.across name).column = m.column + name.length := by
      rw [Mark.across_of_not_mem (Scan.not_mem_of_staysPlain hname.stays)]
    have hindent : Level.indent levels ≤ (m.across name).column := by
      have := henters.indent_le
      omega
    obtain ⟨hclosings, hstay⟩ := Level.stay hindent (m.across name)
    have hold := isOld_eq_false (m := m) hname hlength required all.length
    have hfetch : Scan.fetch (outside ([] ++ ':' :: (gap ++ v)) (m.across name)
        (waiting ++ [⟨⟨m, m.across name⟩, .scalar .plain name⟩]) taken false
        ⟨true, required, all.length, m⟩ levels false bound) = _ :=
      Scan.fetch_outside (m := m.across name) .nil rfl ⟨rfl, by simp⟩ (fun _ => .inr hold)
        ⟨by simp, by simp [Scan.isDocumentMarker], by simp [Scan.isDocumentMarker]⟩
        (by rw [hstay]; exact hindent) hbound
    rw [List.headD_cons, Scan.fetchByStart_colon hnext, hclosings, hstay, PendingKey.aged,
      if_neg (ne_true_of_eq_false hold), List.append_nil] at hfetch
    have hvalue : Scan.fetchValue (outside (':' :: (gap ++ v)) (m.across name)
        (waiting ++ [⟨⟨m, m.across name⟩, .scalar .plain name⟩]) taken
        (false || ([] : Text).contains '\n') ⟨true, required, all.length, m⟩ levels
        (false || ([] : Text).contains '\n') bound) = _ :=
      Scan.fetchValue_outside rfl (hgap.headD_ne_tab hfirst v) henters
    rw [Scan.opened_some hcount, Scan.opened_some hcount, if_neg Bool.false_ne_true] at hvalue
    refine ⟨_, hfetch.trans hvalue, .mk hgap ?_ (Bool.false_or _) (fun h => by cases h) ?_,
      ⟨?_, hhands.taken⟩, ?_⟩
    · rw [Mark.across_append, Mark.across_cons]
    · rw [List.length_cons] at hbound
      omega
    · rw [← hwaiting]
      cases inside <;> simp [outside, Head.opening, Head.tokens, Head.isKey]
    · have hopening : (if inside then [] else
          [(⟨Span.empty m, .blockMappingStart⟩ : Located Token)]).length ≤ 1 := by
        cases inside <;> simp
      have hlevels := henters.length_le
      simp only [need, outside, Level.length_outer, List.length_append, List.length_cons,
        List.length_nil]
      omega
  · exact (List.mem_append.mp ht).imp (List.mem_append_left _)
      ((Head.key name gap).isOrdinary_tokens inside m t)

/-- A key with its `:`. -/
theorem Goes.key {levels : List Level} {count : Nat} (hname : Token.PlainLine name)
    (hlength : Text.size name ≤ 1024) (hgap : Token.Margin gap)
    (hfirst : Token.isSpaceOrBreak (gap.headD '\x00') = true)
    (henters : Level.Enters inside m.column base levels count)
    (h : Goes (Stands (m.across (name ++ ':' :: gap)) v (gap.contains '\n')
        ((Head.key name gap).levels m.column base))
      (all ++ (List.replicate count ⟨Span.empty m, .blockEnd⟩ ++
        ((if inside then [] else [(Head.key name gap).opening m]) ++
          (Head.key name gap).tokens m))) out) :
    Goes (Stands m (name ++ ':' :: (gap ++ v)) true levels) all out := by
  have hentered := henters.upTo.settled
  rw [← List.append_assoc] at h
  refine .of_fetch (stands_lasts _ _ _ _) (fun {s handed} _ hs hhands => ?_) (fun t ht => ?_)
    (.colon hname hlength hgap hfirst hentered h)
  · obtain @⟨g, start, queue, taken, bound, f, leading, key, hg, hover, hfresh, hkey, hbound⟩ := hs
    have hlength' : (name ++ ':' :: (gap ++ v)).length < bound := by
      rw [List.length_append] at hbound
      omega
    have hfetch : Scan.fetch (outside (g ++ (name ++ ':' :: (gap ++ v))) start queue taken f key
        levels leading bound) = _ :=
      Scan.fetch_outside hg hover (hname.headD_append (':' :: (gap ++ v)))
        (fun h => .inl (hkey h).1) (hname.noMark (x := ':' :: (gap ++ v)) ⟨by simp, by simp⟩)
        henters.upTo.indent_le hbound
    rw [Scan.fetchByStart_line hname rfl, henters.closings_eq, hfresh] at hfetch
    have hplain : Scan.fetchPlain (outside (name ++ ':' :: (gap ++ v)) m
        (queue ++ List.replicate count ⟨Span.empty m, .blockEnd⟩) taken true (key.aged m)
        (Level.upTo m.column levels) (leading || g.contains '\n') bound) = _ :=
      Scan.fetchPlain_key hname (Token.isSpaceOrEnd_headD_append hfirst v) hentered.indent_le
        hlength'
    have hnumber : ∀ l : List (Located Token), taken + (queue ++ l).length = (all ++ l).length := by
      intro l
      have htaken : taken = handed.length := hhands.taken
      rw [← hhands.tokens, htaken]
      simp [outside]
    rw [if_pos rfl, hnumber] at hplain
    refine ⟨_, hfetch.trans hplain, .mk ?_ ?_, ⟨?_, hhands.taken⟩, ?_⟩
    · have htaken : taken = handed.length := hhands.taken
      rw [← hhands.tokens, htaken]
      simp [outside]
    · rw [List.length_append] at hlength'
      omega
    · rw [← hhands.tokens]
      simp [outside]
    · have hpos := List.length_pos_iff.mpr hname.ne_nil
      have hlevels := henters.length_settled_le
      simp only [need, outside, Level.length_outer, List.length_append, List.length_replicate,
        List.length_singleton]
      omega
  · rcases List.mem_append.mp ht with ht | ht
    · exact (List.mem_append.mp ht).imp_right (Located.isOrdinary_blockEnd m count t)
    · obtain rfl := List.mem_singleton.mp ht
      exact .inr ⟨by simp, rfl⟩

/-- The head of an entry. -/
theorem Goes.head {levels : List Level} {count : Nat} {head : Head} (hhead : head.Fits m.column)
    (henters : Level.Enters inside m.column base levels count)
    (hv : Token.isSpaceOrEnd (v.headD '\x00') = false ∧ v.headD '\x00' ≠ '#' ∧
      Token.isFlow (v.headD '\x00') = false)
    (h : Goes (Stands (m.across head.text) v (!head.isKey || head.gap.contains '\n')
        (head.levels m.column base))
      (all ++ (List.replicate count ⟨Span.empty m, .blockEnd⟩ ++
        ((if inside then [] else [head.opening m]) ++ head.tokens m))) out) :
    Goes (Stands m (head.text ++ v) true levels) all out := by
  cases head with
  | dash gap =>
      exact .dash hhead.margin hhead.first (hhead.item rfl) henters ⟨hv.1, hv.2.1⟩ hv.2.2 h
  | key name gap =>
      obtain ⟨hname, hlength⟩ := hhead.name
      have htext : (Head.key name gap).text = name ++ ':' :: gap := by
        simp [Head.text, Head.mark, Head.gap]
      rw [htext, List.append_assoc]
      rw [htext] at h
      exact .key hname hlength hhead.margin hhead.first henters h

/-- What stands behind the head of an entry enters a column of its own. -/
theorem Head.Fits.enters {head : Head} (h : head.Fits m.column) (base : List Level) :
    Level.Enters false (m.across head.text).column (⟨m.column, true⟩ :: base)
      (head.levels m.column base) 0 := by
  have hdeeper := h.deeper
  rw [← Mark.column_across] at hdeeper
  unfold Head.levels
  split
  · exact .provisional (Int.ofNat_lt.mpr hdeeper) (by simp) hdeeper
  · exact .opens (Int.ofNat_lt.mpr hdeeper) (by simp)

end Key

/-! ## The tokens of a sheet -/

namespace Sheet

/-- The columns that are open at the end of a sheet, innermost first. -/
def opened : Nat → Sheet → List Level
  | _, word _ _ => []
  | column, last head node =>
    opened (Text.columnBehind column head.text) node ++ [⟨column, true⟩]
  | column, more _ _ rest => opened column rest

/-- The number of collections that are open at the end of a sheet. -/
def depth : Sheet → Nat
  | word _ _ => 0
  | last _ node => node.depth + 1
  | more _ _ rest => rest.depth

/-- The tokens of a sheet at a mark, up to the last scalar. The flag says that these are entries of
a collection that is open. -/
def tokens : (inside : Bool) → Mark → Sheet → List (Located Token)
  | _, m, word w _ => [⟨⟨m, m.across w⟩, .scalar .plain w⟩]
  | inside, m, last head node =>
    (if inside then [] else [head.opening m]) ++ head.tokens m ++
      tokens false (m.across head.text) node
  | inside, m, more head node rest =>
    let next := m.across (head.text ++ node.text)
    (if inside then [] else [head.opening m]) ++ head.tokens m ++
      tokens false (m.across head.text) node ++
      List.replicate node.depth ⟨Span.empty next, .blockEnd⟩ ++ tokens true next rest

theorem length_opened : ∀ (column : Nat) (t : Sheet), (t.opened column).length = t.depth
  | _, word _ _ => rfl
  | column, last head node => by
      rw [opened, depth, List.length_append, length_opened]
      rfl
  | column, more _ _ rest => by rw [opened, depth, length_opened]

/-- The columns that are open at the end are no further left than the sheet. -/
theorem Fits.mem_opened {column : Nat} {t : Sheet} (h : t.Fits column) :
    ∀ l ∈ t.opened column, l.isOpen = true ∧ column ≤ l.column := by
  induction h with
  | word _ _ => exact nofun
  | last hhead _ _ ih =>
      intro l hl
      rcases List.mem_append.mp hl with hl | hl
      · have := ih l hl
        have := hhead.deeper
        exact ⟨(ih l hl).1, by omega⟩
      · obtain rfl := List.mem_singleton.mp hl
        exact ⟨rfl, Nat.le_refl _⟩
  | more _ _ _ _ _ _ _ ih => exact ih

end Sheet

/-- A collection behind a head starts where a key may start. -/
theorem Sheet.Follows.fresh {head : Head} {node : Sheet} (h : Follows head node)
    (hnode : node.isWord = false) : (!head.isKey || head.gap.contains '\n') = true := by
  cases hkey : head.isKey with
  | false => rfl
  | true =>
      by_cases hfeed : '\n' ∈ head.gap
      · simp [hfeed]
      · rw [h hkey hfeed] at hnode
        cases hnode

/-- What stands no further right than an entry is left of what is in the entry. -/
theorem Head.Fits.left_of_node {m : Mark} {head : Head} (h : head.Fits m.column) {node : Sheet}
    {base : List Level} {c : Int} (hc : c ≤ m.column) :
    c ≤ if node.isWord then Level.indent (⟨m.column, true⟩ :: base)
      else (m.across head.text).column := by
  have := h.deeper
  rw [← Mark.column_across] at this
  split
  · exact hc
  · omega

open Scanner in
/-- **The tokens of a sheet**, in front of what stands further left. -/
theorem Goes.sheet {t : Sheet} {m : Mark} {inside : Bool} {count : Nat} {base levels : List Level}
    {fresh : Bool} {all : List (Located Token)} {v : Text} {out : TokenStream}
    (hfits : t.Fits m.column) (henters : Level.Enters inside m.column base levels count)
    (hinside : t.isWord = true → inside = false) (hfresh : t.isWord = false → fresh = true)
    (hv : Token.isSpaceOrBreak (v.headD '\x00') = false)
    (hleft : v = [] ∨ ((m.across t.text).column : Int) ≤
      if t.isWord then Level.indent base else m.column)
    (h : Goes (Stands (m.across t.text) v true (t.opened m.column ++ base))
      (all ++ (List.replicate count ⟨Span.empty m, .blockEnd⟩ ++ t.tokens inside m)) out) :
    Goes (Stands m (t.text ++ v) fresh levels) all out := by
  generalize hcolumn : m.column = column at hfits
  induction hfits generalizing m inside count base levels fresh all v with
  | word hw hmargin =>
      obtain rfl := hinside rfl
      obtain rfl := henters.count_eq
      rw [Sheet.text, List.append_assoc]
      exact .word hw hmargin henters hv hleft h
  | @last column head node hhead hfollows hnode ih =>
      subst hcolumn
      obtain rfl := hfresh rfl
      rw [Sheet.text, List.append_assoc]
      refine .head hhead henters (hnode.headD_text v) (ih (hhead.enters base) (fun _ => rfl)
        (hfollows.fresh) hv ?_ ?_ (Mark.column_across m head.text))
      · refine hleft.imp_right fun hle => ?_
        rw [← Mark.across_append]
        exact hhead.left_of_node hle
      · rw [← Mark.across_append, Mark.column_across]
        simpa [Sheet.opened, Sheet.tokens, Sheet.text] using h
  | @more column head node rest hhead hfollows hnode haligned hkind hrest ihnode ihrest =>
      subst hcolumn
      obtain rfl := hfresh rfl
      have hnext : (m.across (head.text ++ node.text)).column = m.column := by
        rw [Mark.column_across, Text.columnBehind_append, hnode.columnBehind_text, haligned]
      have hword : rest.isWord = false := by
        cases rest with
        | word _ _ => cases hkind
        | last _ _ | more _ _ _ => rfl
      have hv' := hrest.headD_text v
      rw [Sheet.text, List.append_assoc, List.append_assoc]
      refine .head hhead henters (hnode.headD_text _) (ihnode (hhead.enters base) (fun _ => rfl)
        (hfollows.fresh) (Token.not_isSpaceOrBreak_of hv'.1) (.inr ?_) ?_
        (Mark.column_across m head.text))
      · rw [← Mark.across_append]
        exact hhead.left_of_node (Int.ofNat_le.mpr (Nat.le_of_eq hnext))
      · rw [← Mark.across_append]
        have hup : ∀ l ∈ node.opened (m.across head.text).column, l.isOpen = true ∧
            m.column < l.column := by
          intro l hl
          rw [Mark.column_across] at hl
          obtain ⟨hopen, hle⟩ := hnode.mem_opened l hl
          have := hhead.deeper
          exact ⟨hopen, by omega⟩
        have henters' : Level.Enters true (m.across (head.text ++ node.text)).column base
            (node.opened (m.across head.text).column ++ ⟨m.column, true⟩ :: base)
            (node.opened (m.across head.text).column).length := by
          rw [hnext]
          exact .goesOn hup
        refine ihrest henters' (fun hw => ?_) (fun _ => rfl) hv (hleft.imp_right fun hle => ?_) ?_
          hnext
        · rw [hword] at hw
          cases hw
        · rw [if_neg (ne_true_of_eq_false hword), hnext, ← Mark.across_append]
          exact hle
        · rw [Sheet.length_opened]
          simpa [Sheet.opened, Sheet.tokens, Sheet.text, hnext, ← Mark.across_append] using h

/-! ## The end of the text -/

theorem Level.closings_of_open {levels : List Level} (h : ∀ l ∈ levels, l.isOpen = true) (m : Mark)
    (column : Nat) : closings m column levels ++ closings m (-1) (upTo column levels) =
      List.replicate levels.length ⟨Span.empty m, .blockEnd⟩ := by
  have hall : (upTo column levels).takeWhile (fun l => (-1 : Int) < l.column) =
      upTo column levels := by
    rw [List.takeWhile_eq_self_iff]
    intro l _
    simp only [decide_eq_true_eq]
    omega
  rw [closings, closings, hall, ← List.map_append, ← List.filter_append, upTo,
    List.takeWhile_append_dropWhile, List.filter_eq_self.mpr h, List.map_const']

open Scanner in
/-- The end closes what is open. -/
theorem Goes.end {m : Mark} {fresh : Bool} {levels : List Level} {all : List (Located Token)}
    (hcolumn : m.column = 0) (hopen : ∀ l ∈ levels, l.isOpen = true) :
    Goes (Stands m [] fresh levels) all
      ⟨all ++ (List.replicate levels.length ⟨Span.empty m, .blockEnd⟩ ++
        [⟨Span.empty m, .streamEnd⟩]), none⟩ := by
  refine .of_round (stands_lasts _ _ _ _) fun {s handed fuel} hall hs hhands hfuel => ?_
  obtain @⟨g, start, queue, taken, bound, f, leading, key, hg, hover, -, hkey, hbound⟩ := hs
  rw [List.append_nil] at hbound hfuel hhands ⊢
  refine ⟨_, Scan.fetch_end_outside hg hover hcolumn (fun h => (hkey h).1) hbound, ?_⟩
  have hclosings := Level.closings_of_open hopen m m.column
  rw [Token.scanFrom_drain (queue ++ (Level.closings m m.column levels ++
      Level.closings m (-1) (Level.upTo m.column levels)))
      (show _ = _ ++ [⟨Span.empty m, .streamEnd⟩] by simp [outside]) rfl ?_ (by simp [outside]) ?_]
  · rw [hclosings, ← hhands.tokens]
    simp [outside]
  · rw [hclosings]
    intro t ht
    rcases List.mem_append.mp ht with ht | ht
    · exact (hall t (hhands.tokens ▸ List.mem_append_right _ ht)).1
    · rw [List.eq_of_mem_replicate ht]
      simp
  · rw [hclosings, List.length_append, List.length_replicate]
    simp only [need, outside, Level.length_outer] at hfuel
    omega

namespace Sheet

/-- The tokens of a sheet with those that close what is open at its end, which is at `e`. -/
def closedTokens (inside : Bool) (m e : Mark) (t : Sheet) : List (Located Token) :=
  t.tokens inside m ++ List.replicate t.depth ⟨Span.empty e, .blockEnd⟩

end Sheet

open Scanner in
/-- **The tokens of a text that is a sheet behind a margin.** -/
theorem Token.scan_sheet {g : Text} {t : Sheet} (hg : Token.Margin g)
    (hfits : t.Fits (Text.columnBehind 0 g)) (hend : Text.columnBehind 0 t.tail = 0) :
    Token.scan (g ++ t.text) =
      ⟨⟨Span.empty Mark.origin, .streamStart⟩ ::
        (t.closedTokens false (Mark.origin.across g) (Mark.origin.across (g ++ t.text)) ++
          [⟨Span.empty (Mark.origin.across (g ++ t.text)), .streamEnd⟩]), none⟩ := by
  have hcolumn : (Mark.origin.across g).column = Text.columnBehind 0 g := Mark.column_across _ g
  have hlast : ((Mark.origin.across g).across t.text).column = 0 := by
    rw [Mark.column_across, hfits.columnBehind_text, hend]
  have hopen : ∀ l ∈ t.opened (Mark.origin.across g).column ++ [], l.isOpen = true := by
    intro l hl
    rw [hcolumn, List.append_nil] at hl
    exact (hfits.mem_opened l hl).1
  have houtermost : Level.indent [] < (Mark.origin.across g).column :=
    Int.lt_of_lt_of_le (by decide : (-1 : Int) < 0) (Int.natCast_nonneg _)
  have hgoes : Goes (Stands (Mark.origin.across g) (t.text ++ []) true [])
      [⟨Span.empty Mark.origin, .streamStart⟩] _ :=
    .sheet (v := []) (by rwa [hcolumn]) (.opens houtermost (by simp)) (fun _ => rfl) (fun _ => rfl)
      (by decide) (.inl rfl) (.end hlast hopen)
  have hscan : Token.scanFrom (10 * (g ++ t.text).length + 10)
      (outside (g ++ (t.text ++ [])) Mark.origin [⟨Span.empty Mark.origin, .streamStart⟩]
        0 true .none [] true ((g ++ t.text).length + 1)) [] = _ :=
    hgoes (by simp [Located.IsOrdinary, Scan.isProperty])
      (.mk hg rfl (Bool.true_or _) nofun (by simp)) ⟨rfl, rfl⟩
      (by simp [need, outside, Level.outer]; omega)
  unfold Token.scan
  rw [List.append_nil] at hscan
  refine Eq.trans hscan ?_
  simp [Sheet.closedTokens, ← Mark.across_append, Sheet.length_opened]

end YamlEdit
