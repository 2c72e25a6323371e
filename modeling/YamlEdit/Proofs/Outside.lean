import YamlEdit.Proofs.Margins

/-!
# The scanner outside of brackets

Outside of brackets the state of the scanner is what is left of the text, a stack of columns
(`Level`) and one pending key: `Scanner.outside`. What a single step does to such a state is told
here for the tokens of which block style is made: a plain scalar on one line, a `-`, a `:` behind a
key, and the end of the text.

Main statements: `Scan.fetch_outside`, `Scan.fetchPlain_margin`, `Scan.fetchBlockEntry_outside`,
`Scan.fetchValue_outside` and `Scan.fetch_end_outside`.
-/

namespace YamlEdit

/-! ## Columns that are open -/

/-- A column that the scanner is in, and whether a token closes it. -/
structure Level where
  column : Nat
  isOpen : Bool
  deriving DecidableEq, Repr

namespace Level

/-- The innermost column; outside of all there is none. -/
def indent : List Level → Int
  | [] => -1
  | l :: _ => l.column

/-- The columns as the scanner keeps them. -/
def outer : List Level → List OuterIndent
  | [] => []
  | l :: levels => ⟨indent levels, l.isOpen⟩ :: outer levels

/-- The tokens that close the columns beyond `column`. -/
def closings (m : Mark) (column : Int) (levels : List Level) : List (Located Token) :=
  ((levels.takeWhile (column < ·.column)).filter (·.isOpen)).map fun _ =>
    ⟨Span.empty m, .blockEnd⟩

/-- The columns that are left. -/
def upTo (column : Int) (levels : List Level) : List Level := levels.dropWhile (column < ·.column)

/-- The columns without the provisional ones on top. -/
def settled (levels : List Level) : List Level := levels.dropWhile (!·.isOpen)

theorem length_outer (levels : List Level) : (outer levels).length = levels.length := by
  induction levels with
  | nil => rfl
  | cons l levels ih => exact congrArg (· + 1) ih

/-- How a collection at a column is entered: its column is deeper than those of `base`, on which
there may be a provisional one, or it is there already, below `count` deeper ones. -/
inductive Enters : (inside : Bool) → (column : Nat) → (base levels : List Level) → (count : Nat) →
    Prop where
  | opens {column : Nat} {base : List Level} (hbase : indent base < column)
      (htop : ∀ l ∈ base.head?, l.isOpen = true) : Enters false column base base 0
  | provisional {column k : Nat} {base : List Level} (hbase : indent base < column)
      (htop : ∀ l ∈ base.head?, l.isOpen = true) (hk : k ≤ column) :
      Enters false column base (⟨k, false⟩ :: base) 0
  | goesOn {column : Nat} {base up : List Level}
      (hup : ∀ l ∈ up, l.isOpen = true ∧ column < l.column) :
      Enters true column base (up ++ ⟨column, true⟩ :: base) up.length

namespace Enters

variable {inside : Bool} {column count : Nat} {base levels : List Level}

/-- The deeper columns are closed first. -/
theorem closings_eq (h : Enters inside column base levels count) (m : Mark) :
    closings m column levels = List.replicate count ⟨Span.empty m, .blockEnd⟩ := by
  cases h with
  | opens hbase _ =>
      cases base with
      | nil => rfl
      | cons l base =>
          have hl : ¬ column < l.column := by
            rw [indent] at hbase
            omega
          simp [closings, hl]
  | provisional _ _ hk => simp [closings, hk]
  | @goesOn _ _ up hup =>
      have htake : (up ++ ⟨column, true⟩ :: base).takeWhile (fun l => (column : Int) < l.column) =
          up := Scan.takeWhile_append_stop (by simpa using fun l hl => (hup l hl).2) (by simp)
      have hopen : up.filter (·.isOpen) = up := List.filter_eq_self.mpr fun l hl => (hup l hl).1
      rw [closings, htake, hopen, List.map_const']

theorem upTo (h : Enters inside column base levels count) :
    Enters inside column base (Level.upTo column levels) 0 := by
  cases h with
  | opens hbase htop =>
      have : Level.upTo column base = base := by
        cases base with
        | nil => rfl
        | cons l base =>
            have hl : ¬ column < l.column := by
              rw [indent] at hbase
              omega
            simp [Level.upTo, hl]
      rw [this]
      exact .opens hbase htop
  | @provisional _ k _ hbase htop hk =>
      have : Level.upTo column (⟨k, false⟩ :: base) = ⟨k, false⟩ :: base := by
        simp [Level.upTo, hk]
      rw [this]
      exact .provisional hbase htop hk
  | @goesOn _ _ up hup =>
      have : Level.upTo column (up ++ ⟨column, true⟩ :: base) = [] ++ ⟨column, true⟩ :: base := by
        rw [Level.upTo, List.dropWhile_append_of_pos (by simpa using fun l hl => (hup l hl).2)]
        simp
      rw [this]
      exact .goesOn nofun

theorem settled_eq (h : Enters false column base levels count) : Level.settled levels = base := by
  have hbase : ∀ {base : List Level}, (∀ l ∈ base.head?, l.isOpen = true) →
      Level.settled base = base := by
    intro base htop
    cases base with
    | nil => rfl
    | cons l base => simp [Level.settled, htop l rfl]
  cases h with
  | opens _ htop => exact hbase htop
  | provisional _ htop _ => exact hbase htop

theorem settled (h : Enters inside column base levels 0) :
    Enters inside column base (Level.settled levels) 0 := by
  cases inside with
  | false =>
      rw [h.settled_eq]
      cases h with
      | opens hbase htop => exact .opens hbase htop
      | provisional hbase htop _ => exact .opens hbase htop
  | true =>
      generalize hn : 0 = n at h
      cases h with
      | @goesOn _ _ up hup =>
          obtain rfl := List.length_eq_zero_iff.mp hn.symm
          exact @goesOn _ _ [] nofun

theorem indent_lt (h : Enters false column base levels count) : indent base < column := by
  cases h with
  | opens hbase _ => exact hbase
  | provisional hbase _ _ => exact hbase

theorem count_eq (h : Enters false column base levels count) : count = 0 := by
  cases h <;> rfl

theorem length_le (h : Enters inside column base levels count) :
    base.length + count ≤ levels.length := by
  cases h with
  | opens _ _ => exact Nat.le_refl _
  | provisional _ _ _ => exact Nat.le_succ _
  | @goesOn _ _ up _ =>
      rw [List.length_append, List.length_cons]
      omega

theorem length_settled_le (h : Enters inside column base levels count) :
    (Level.settled (Level.upTo column levels)).length + count ≤ levels.length := by
  have hle : ∀ levels : List Level, (Level.settled (Level.upTo column levels)).length ≤
      levels.length := fun levels =>
    Nat.le_trans (List.dropWhile_suffix _).length_le (List.dropWhile_suffix _).length_le
  cases h with
  | opens _ _ => exact hle _
  | provisional _ _ _ => exact hle _
  | @goesOn _ _ up hup =>
      have hinner := hle (⟨column, true⟩ :: base)
      have : Level.upTo column (up ++ ⟨column, true⟩ :: base) =
          Level.upTo column (⟨column, true⟩ :: base) :=
        List.dropWhile_append_of_pos (by simpa using fun l hl => (hup l hl).2)
      rw [this, List.length_append]
      omega

theorem indent_le (h : Enters inside column base levels 0) : indent levels ≤ column := by
  generalize hn : 0 = n at h
  cases h with
  | opens hbase _ => exact Int.le_of_lt hbase
  | provisional _ _ hk => exact Int.ofNat_le.mpr hk
  | @goesOn _ _ up _ =>
      obtain rfl := List.length_eq_zero_iff.mp hn.symm
      exact Int.le_refl _

end Enters

end Level

namespace PendingKey

/-- Whether nothing at a mark can end a pending key any more: that is on an earlier line, or too far
off. -/
def isOld (key : PendingKey) (m : Mark) : Bool :=
  key.possible && (key.mark.line < m.line || key.mark.index + 1024 < m.index)

/-- A pending key at a mark, which may be given up there. -/
def aged (key : PendingKey) (m : Mark) : PendingKey :=
  if key.isOld m then { key with possible := false } else key

end PendingKey

namespace Scanner

/-- The scanner outside of brackets. -/
def outside (rest : Text) (m : Mark) (queue : List (Located Token)) (taken : Nat) (fresh : Bool)
    (key : PendingKey) (levels : List Level) (leading : Bool) (bound : Nat) : Scanner where
  rest := rest
  mark := m
  queue := queue
  taken := taken
  keyAllowed := fresh
  keys := [key]
  indent := Level.indent levels
  outer := Level.outer levels
  flowLevel := 0
  adjacentValueAt := 0
  leading := leading
  flowMappingStarted := false
  pairs := []
  bound := bound

end Scanner

namespace Scan

open Token

section Indentation

variable {rest : Text} {m : Mark} {queue : List (Located Token)} {taken bound : Nat}
  {fresh leading : Bool} {key : PendingKey} {levels : List Level}

theorem closeBeyond_outside (column : Int) :
    unrollIndent.closeBeyond column (Level.outer levels)
        (.outside rest m queue taken fresh key levels leading bound) =
      .outside rest m (queue ++ Level.closings m column levels) taken fresh key
        (Level.upTo column levels) leading bound := by
  induction levels generalizing queue with
  | nil =>
      rw [Level.outer, unrollIndent.closeBeyond]
      simp [Level.closings, Level.upTo]
  | cons l levels ih =>
      rw [Level.outer, unrollIndent.closeBeyond]
      by_cases hl : column < l.column
      · have hinner := @ih (if l.isOpen then queue ++ [⟨Span.empty m, .blockEnd⟩] else queue)
        refine (if_pos hl).trans (hinner.trans ?_)
        cases hopen : l.isOpen <;> simp [Level.closings, Level.upTo, hl, hopen]
      · refine (if_neg hl).trans ?_
        simp [Level.closings, Level.upTo, hl]

theorem unrollIndent_outside (column : Int) :
    unrollIndent column (.outside rest m queue taken fresh key levels leading bound) =
      .ok ((), .outside rest m (queue ++ Level.closings m column levels) taken fresh key
        (Level.upTo column levels) leading bound) :=
  congrArg (fun s => Except.ok ((), s)) (closeBeyond_outside column)

theorem unrollProvisional_outside :
    unrollProvisional (.outside rest m queue taken fresh key levels leading bound) =
      .ok ((), .outside rest m queue taken fresh key (Level.settled levels) leading bound) := by
  refine congrArg (fun s => Except.ok ((), s)) ?_
  show unrollProvisional.forget (Level.outer levels) _ = _
  induction levels with
  | nil => rfl
  | cons l levels ih =>
      rw [Level.outer, unrollProvisional.forget]
      cases hopen : l.isOpen with
      | true => simp [Level.settled, hopen]
      | false =>
          refine ih.trans ?_
          simp [Level.settled, hopen]

theorem rollProvisional_outside {column : Nat} :
    rollProvisional (.outside rest m queue taken fresh key (⟨column, true⟩ :: levels) leading
      bound) =
      .ok ((), .outside rest m queue taken fresh key
        (⟨column + 1, false⟩ :: ⟨column, true⟩ :: levels)
        leading bound) := rfl

/-- The queue with the token that opens a collection, which is missing where the collection is
open. -/
def opened (inside : Bool) (queue : List (Located Token)) (taken : Nat) (number : Option Nat)
    (t : Located Token) : List (Located Token) :=
  if inside then queue
  else match number with
    | some n => queue.take (n - taken) ++ t :: queue.drop (n - taken)
    | none => queue ++ [t]

/-- Opens a column if it is deeper than the current one. -/
def deepen (column : Nat) (number : Option Nat) (token : Token) (mark : Mark) : Scan Unit := do
  if (← get).indent < column then
    modify fun s => { s with outer := ⟨s.indent, true⟩ :: s.outer, indent := column }
    match number with
    | some n => insertAt n mark token
    | none => push (Span.empty mark) token

/-- A column is entered. -/
theorem rollIndent_outside {inside : Bool} {column : Nat} {base : List Level} (token : Token)
    (mark : Mark) (number : Option Nat) (h : Level.Enters inside column base levels 0) :
    rollIndent column number token mark
        (.outside rest m queue taken fresh key levels leading bound) =
      .ok ((), .outside rest m (opened inside queue taken number ⟨Span.empty mark, token⟩) taken
        fresh key (⟨column, true⟩ :: base) leading bound) := by
  have hdeeper : ∀ {base : List Level}, Level.indent base < column →
      deepen column number token mark
        (.outside rest m queue taken fresh key base leading bound) =
      .ok ((), .outside rest m (opened false queue taken number ⟨Span.empty mark, token⟩) taken
        fresh key (⟨column, true⟩ :: base) leading bound) := by
    intro base hbase
    unfold deepen
    rw [get_bind, if_pos (by exact hbase)]
    cases number <;> rfl
  have hopen : ∀ {base : List Level}, (∀ l ∈ base.head?, l.isOpen = true) →
      rollIndent column number token mark
        (.outside rest m queue taken fresh key base leading bound) =
      deepen column number token mark
        (.outside rest m queue taken fresh key base leading bound) := by
    intro base htop
    cases base with
    | nil => rfl
    | cons l base =>
        unfold rollIndent deepen
        rw [get_bind, if_pos (by rfl), modify_bind]
        refine congrArg _ ?_
        show (if _ then _ else _) = _
        rw [if_neg]
        simp [htop l rfl]
  generalize hn : 0 = n at h
  cases h with
  | opens hbase htop => exact (hopen htop).trans (hdeeper hbase)
  | @provisional _ k _ hbase htop hk =>
      refine Eq.trans ?_ (hdeeper hbase)
      unfold rollIndent deepen
      rw [get_bind, if_pos (by rfl), modify_bind]
      refine congrArg _ ?_
      show (if _ then _ else _) = _
      rw [if_pos ⟨Int.ofNat_le.mpr hk, rfl⟩]
      rfl
  | @goesOn _ _ up _ =>
      obtain rfl := List.length_eq_zero_iff.mp hn.symm
      refine (hopen (by simp)).trans ?_
      unfold deepen
      rw [get_bind, if_neg (by simp [Scanner.outside, Level.indent])]
      rfl

end Indentation

/-! ## One token more -/

section Fetch

variable {g v : Text} {m start : Mark} {queue : List (Located Token)} {taken bound : Nat}
  {fresh leading : Bool} {key : PendingKey} {levels : List Level}

theorem isStale_outside :
    isStale (.outside v m queue taken fresh key levels leading bound) key = key.isOld m := by
  rw [isStale, PendingKey.isOld]
  exact congrArg (· && _) (Bool.and_true key.possible)

theorem dropStaleKeys_outside
    (hkey : key.possible = true → key.required = false ∨ key.isOld m = false) :
    dropStaleKeys (.outside v m queue taken fresh key levels leading bound) =
      .ok ((), .outside v m queue taken fresh (key.aged m) levels leading bound) := by
  have hfault : (key.isOld m && key.required) = false := by
    cases hold : key.isOld m with
    | false => rfl
    | true =>
        rcases hkey (Bool.and_eq_true_iff.mp hold).1 with h | h
        · rw [h]
          rfl
        · rw [hold] at h
          cases h
  unfold dropStaleKeys
  rw [get_bind, if_neg]
  · show Except.ok ((), { Scanner.outside v m queue taken fresh key levels leading bound with
      keys := [if isStale (.outside v m queue taken fresh key levels leading bound) key then
        { key with possible := false } else key] }) = _
    rw [isStale_outside]
    rfl
  · show ¬ (isStale (.outside v m queue taken fresh key levels leading bound) key && key.required ||
      false) = true
    rw [isStale_outside, hfault]
    decide

theorem skipToToken_outside (hg : Margin g) (hblank : isSpaceOrBreak (v.headD '\x00') = false)
    (hhash : v.headD '\x00' ≠ '#') (hbound : (g ++ v).length < bound) :
    skipToToken bound (.outside (g ++ v) start queue taken fresh key levels leading bound) =
      .ok ((), .outside v (start.across g) queue taken (fresh || g.contains '\n') key levels
        (leading || g.contains '\n') bound) := by
  rw [List.length_append] at hbound
  exact skipToToken_margin hg hblank hhash rfl (by omega)

/-- What comes next is no end and no mark of a document. -/
theorem fetch_of_start {s s₁ s₂ s₃ : Scanner} (hskip : skipToToken s.bound s = .ok ((), s₁))
    (hdrop : dropStaleKeys s₁ = .ok ((), s₂))
    (hunroll : unrollIndent s₂.mark.column s₂ = .ok ((), s₃))
    (hend : isEnd (s₃.rest.headD '\x00') = false)
    (hline : s₃.rest.headD '\x00' ≠ '%' ∧ isDocumentMarker '-' s₃.rest = false ∧
      isDocumentMarker '.' s₃.rest = false) (hindent : s₃.indent ≤ s₃.mark.column) :
    fetch s = fetchByStart (s₃.rest.headD '\x00') (s₃.rest.getD 1 '\x00') s₃ := by
  obtain ⟨hpercent, hdash, hdot⟩ := hline
  unfold fetch
  rw [fuel_bind, bind_of_ok hskip, bind_of_ok hdrop, mark_bind, bind_of_ok hunroll, peek_bind,
    mark_bind]
  rw [if_neg (ne_true_of_eq_false hend), beq_eq_false_iff_ne.mpr hpercent, Bool.and_false,
    if_neg (by decide)]
  show (if _ then _ else _ : Scan Unit) s₃ = _
  rw [if_neg (by simp [hdash])]
  show (if _ then _ else _ : Scan Unit) s₃ = _
  rw [if_neg (by simp [hdot]), mark_bind, get_bind, if_neg (by omega)]
  rfl

/-- A token is met behind a margin. -/
theorem fetch_outside (hg : Margin g) (hover : start.across g = m)
    (hhead : isSpaceOrEnd (v.headD '\x00') = false ∧ v.headD '\x00' ≠ '#')
    (hkey : key.possible = true → key.required = false ∨ key.isOld m = false)
    (hline : v.headD '\x00' ≠ '%' ∧ isDocumentMarker '-' v = false ∧
      isDocumentMarker '.' v = false)
    (hindent : Level.indent (Level.upTo m.column levels) ≤ m.column)
    (hbound : (g ++ v).length < bound) :
    fetch (.outside (g ++ v) start queue taken fresh key levels leading bound) =
      fetchByStart (v.headD '\x00') (v.getD 1 '\x00')
        (.outside v m (queue ++ Level.closings m m.column levels) taken
          (fresh || g.contains '\n') (key.aged m) (Level.upTo m.column levels)
          (leading || g.contains '\n') bound) := by
  subst hover
  have hend : isEnd (v.headD '\x00') = false := by
    have := hhead.1
    rw [isSpaceOrEnd_eq, Bool.or_eq_false_iff] at this
    exact this.2
  exact fetch_of_start
    (skipToToken_outside hg (not_isSpaceOrBreak_of hhead.1) hhead.2 hbound)
    (dropStaleKeys_outside hkey) (unrollIndent_outside _) hend hline hindent

/-- The key that may start at a mark. -/
def pendingAt (m : Mark) (levels : List Level) (number : Nat) : PendingKey :=
  ⟨true, Level.indent levels == m.column && (Level.outer levels).head?.any (·.isOpen), number, m⟩

theorem startsKey_outside :
    startsKey (.outside v m queue taken fresh key levels leading bound) =
      .ok ((), .outside v m queue taken false
        (if fresh then pendingAt m levels (taken + queue.length) else key) levels leading
          bound) := by
  cases fresh <;> rfl

/-- The words of a plain line, up to its end. -/
theorem plainWords_outside {w x : Text} {base : List Level} (column : Int) (hw : PlainLine w)
    (hx : isPlainChar false (x.headD '\x00') ((x.drop 1).headD '\x00') = false)
    (hfirst : ¬ x.headD '\x00' = '-' ∧ ¬ x.headD '\x00' = '.')
    (hcolumn : column ≤ m.column + 1) (hbound : (w ++ x).length < bound) :
    ∃ fuel, 0 < fuel ∧ plainWords m column bound Gap.none [] m
        (.outside (w ++ x) m queue taken fresh key base leading bound) =
      plainTail m column fuel false Gap.none w.reverse (m.across w)
        (.outside x (m.across w) queue taken fresh key base false bound) := by
  rw [List.length_append] at hbound
  obtain ⟨fuel, hle, hrun⟩ := plainWords_line bound (x := x)
    (s := .outside (w ++ x) m queue taken fresh key base leading bound) hw.words
    (fun _ => ⟨isDocumentMarker_append hw.marker.1 hfirst.1,
      isDocumentMarker_append hw.marker.2 hfirst.2⟩)
    hx rfl rfl hcolumn (by show w.length < bound; omega) (by omega)
  refine ⟨fuel, by omega, hrun.trans ?_⟩
  have hbehind : (Scanner.outside (w ++ x) m queue taken fresh key base leading bound).behind
      w.length = .outside x (m.across w) queue taken fresh key base false bound := by
    simp [Scanner.behind, Scanner.outside, Mark.across_of_not_mem (not_mem_of_staysPlain hw.stays)]
  rw [hbehind]
  simp [Gap.fold, Gap.none, Scanner.outside]

/-- Where a new column is entered, what starts at it need not be a key. -/
theorem not_required {base : List Level} (h : Level.Enters false m.column base levels 0)
    (number : Nat) : (pendingAt m levels number).required = false := by
  cases h with
  | opens hbase _ => simp [pendingAt, Int.ne_of_lt hbase]
  | provisional _ _ _ => simp [pendingAt, Level.outer]

/-- A plain line that a `:` follows. -/
theorem fetchPlain_key {w x : Text} (hw : PlainLine w) (hx : isSpaceOrEnd (x.headD '\x00') = true)
    (hindent : Level.indent (Level.settled levels) ≤ m.column)
    (hbound : (w ++ ':' :: x).length < bound) :
    fetchPlain (.outside (w ++ ':' :: x) m queue taken fresh key levels leading bound) =
      .ok ((), .outside (':' :: x) (m.across w)
        (queue ++ [⟨⟨m, m.across w⟩, .scalar .plain w⟩]) taken false
        (if fresh then pendingAt m levels (taken + queue.length) else key)
        (Level.settled levels) false bound) := by
  obtain ⟨fuel, -, hwords⟩ := plainWords_outside (m := m) (x := ':' :: x)
    (Level.indent (Level.settled levels) + 1) hw
    (by
      have : isPlainChar false ':' (x.headD '\x00') = false := by
        rw [isPlainChar, if_neg (by decide), if_pos ⟨rfl, .inl hx⟩]
      exact this)
    ⟨by simp, by simp⟩ (by omega) hbound
  rw [plainTail_end (by rfl)] at hwords
  have hscan := scanPlain_of_words unrollProvisional_outside (by rfl)
    (hwords.trans (by rw [List.reverse_reverse])) hw.ne_nil
  rw [fetchPlain, bind_of_ok startsKey_outside, bind_of_ok hscan]
  rfl

/-- A plain line with a margin behind it, in front of what stands further left. -/
theorem fetchPlain_margin {w g : Text} (hw : PlainLine w) (hg : IsBreak g)
    (hindent : Level.indent (Level.settled levels) ≤ m.column)
    (hblank : isSpaceOrBreak (v.headD '\x00') = false)
    (hleft : v = [] ∨ ((m.across (w ++ g)).column : Int) ≤ Level.indent (Level.settled levels))
    (hbound : (w ++ (g ++ v)).length < bound) :
    ∃ p q, g = p ++ q ∧ Margin q ∧
      fetchPlain (.outside (w ++ (g ++ v)) m queue taken fresh key levels leading bound) =
      .ok ((), .outside (q ++ v) ((m.across w).across p)
        (queue ++ [⟨⟨m, m.across w⟩, .scalar .plain w⟩]) taken (p.contains '\n')
        (if fresh then pendingAt m levels (taken + queue.length) else key)
        (Level.settled levels) (p.contains '\n') bound) := by
  obtain ⟨c, g, rfl⟩ := List.exists_cons_of_ne_nil
    (show g ≠ [] from fun h => absurd hg.feed (by simp [h]))
  have hc : isSpaceOrBreak c = true := hg.first
  have hend : isSpaceOrEnd c = true := by rw [isSpaceOrEnd_eq, hc, Bool.true_or]
  obtain ⟨fuel, hfuel, hwords⟩ := plainWords_outside (m := m) (x := c :: (g ++ v))
    (Level.indent (Level.settled levels) + 1) hw
    (by
      have : isPlainChar false c ((g ++ v).headD '\x00') = false := by
        rw [isPlainChar, if_pos hend]
      exact this)
    ⟨fun (h : c = '-') => by simp [h, isSpaceOrBreak, isSpace, isBreak] at hc,
      fun (h : c = '.') => by simp [h, isSpaceOrBreak, isSpace, isBreak] at hc⟩ (by omega) hbound
  obtain ⟨p, q, hpq, hq, htail⟩ := plainTail_margin (v := v)
    (s := .outside (c :: (g ++ v)) (m.across w) queue taken false
      (if fresh then pendingAt m levels (taken + queue.length) else key) (Level.settled levels)
      false bound) hg.margin hg.first hblank
    (by
      refine hleft.imp_right fun h => ?_
      rw [Mark.across_append] at h
      exact Int.lt_add_one_of_le h) rfl
    (by
      rw [List.length_append] at hbound
      have : (c :: (g ++ v)).length = (c :: g).length + v.length := by
        rw [← List.cons_append, List.length_append]
      show (c :: g).length < bound
      have : (c :: g ++ v).length = (c :: g).length + v.length := List.length_append
      omega) hfuel rfl
  refine ⟨p, q, hpq, hq, ?_⟩
  have hscan := scanPlain_of_words unrollProvisional_outside (by rfl)
    (hwords.trans (htail.trans (by rw [List.reverse_reverse]))) hw.ne_nil
  rw [fetchPlain, bind_of_ok startsKey_outside]
  refine (bind_of_ok hscan _).trans ?_
  rfl

/-- A plain line is taken for a scalar. -/
theorem fetchByStart_line {w x : Text} (hw : PlainLine w) {s : Scanner} (hflow : s.flowLevel = 0) :
    fetchByStart ((w ++ x).headD '\x00') ((w ++ x).getD 1 '\x00') s = fetchPlain s := by
  obtain ⟨hreserved, hindicator, hliteral, hfolded⟩ := hw.starts_append x
  exact fetchByStart_plain hflow hreserved hindicator hliteral hfolded

/-- Spaces in front of what is neither white space on the line nor a comment. -/
theorem skipToLineEnd_outside {x : Text} (k : Nat) (tabs : Bool)
    (hspace : isSpace (x.headD '\x00') = false) (hhash : x.headD '\x00' ≠ '#') :
    ∃ space, skipToLineEnd tabs
        (.outside (Text.spaces k ++ x) m queue taken fresh key levels leading bound) =
      .ok (⟨false, space⟩, .outside x (m.across (Text.spaces k)) queue taken fresh key
        levels leading
        bound) := by
  have hhead : ∀ c ∈ x.head?, (c == ' ' || (tabs && c == '\t')) = false := by
    intro c hc
    cases x with
    | nil => cases hc
    | cons d x =>
        obtain rfl : d = c := Option.some.inj hc
        have hspace : isSpace d = false := hspace
        rw [isSpace, Bool.or_eq_false_iff] at hspace
        rw [hspace.1, hspace.2, Bool.and_false, Bool.or_false]
  have htake : (Text.spaces k ++ x).takeWhile (fun c => c == ' ' || (tabs && c == '\t')) =
      Text.spaces k := takeWhile_append_stop (by simp [Text.spaces]) hhead
  have hline := takeLine_eq
    (s := .outside (Text.spaces k ++ x) m queue taken fresh key levels leading bound) rfl htake
    (by simp [Text.spaces])
  unfold skipToLineEnd
  rw [bind_of_ok hline]
  dsimp only
  rw [peek_bind, if_neg hhash]
  exact ⟨_, congrArg (fun tab => Except.ok (Skipped.mk tab _, _)) (by simp [Text.spaces])⟩

/-- Where an item may start, its dash is read. -/
theorem fetchBlockEntry_eq_dash {s : Scanner} (hflow : s.flowLevel = 0)
    (hallowed : s.keyAllowed = true) (hqueue : ∀ t ∈ s.queue, isProperty t.item = false) :
    fetchBlockEntry s = dash s.mark s := by
  unfold fetchBlockEntry
  rw [get_bind, if_neg (by simp [hflow]), if_neg (by simp [hallowed])]
  cases hlast : s.queue.getLast? with
  | none => rfl
  | some t =>
      have hitem := hqueue t (List.mem_of_getLast? hlast)
      dsimp only
      rw [if_neg (by simp [hitem])]
      rfl

/-- The dash of an item, with the spaces behind it. -/
theorem fetchBlockEntry_outside {inside : Bool} {base : List Level} {x : Text} (k : Nat)
    (henters : Level.Enters inside m.column base levels 0)
    (hspace : isSpace (x.headD '\x00') = false) (hhash : x.headD '\x00' ≠ '#')
    (hqueue : ∀ t ∈ queue, isProperty t.item = false) (hkey : key.possible = false) :
    fetchBlockEntry
        (.outside ('-' :: (Text.spaces k ++ x)) m queue taken true key levels leading bound) =
      .ok ((), .outside x (m.across ('-' :: Text.spaces k))
        (opened inside queue taken none ⟨Span.empty m, .blockSequenceStart⟩ ++
          [⟨Span.empty (m.across ('-' :: Text.spaces k)), .blockEntry⟩]) taken true key
        (if isBreak (x.headD '\x00') ∨ isFlow (x.headD '\x00') then
          ⟨m.column + 1, false⟩ :: ⟨m.column, true⟩ :: base else ⟨m.column, true⟩ :: base)
        false bound) := by
  obtain ⟨space, hline⟩ := skipToLineEnd_outside (m := m.past '-') k true hspace hhash
  obtain ⟨space', hagain⟩ :=
    skipToLineEnd_outside (m := (m.past '-').across (Text.spaces k)) 0 false hspace hhash
  have hskip : skipContent 1
      (.outside ('-' :: (Text.spaces k ++ x)) m queue taken true key levels leading bound) =
      .ok ((), .outside (Text.spaces k ++ x) (m.past '-') queue taken true key levels false
        bound) :=
    rfl
  have hroll : rollIndent m.column none .blockSequenceStart m
      (.outside (Text.spaces k ++ x) (m.past '-') queue taken true key levels false bound) = _ :=
    rollIndent_outside .blockSequenceStart m none henters
  rw [fetchBlockEntry_eq_dash rfl rfl hqueue]
  refine (bind_of_ok hskip _).trans ((bind_of_ok hroll _).trans ((bind_of_ok hline _).trans ?_))
  rw [peek_bind, peekAt_bind]
  refine Eq.trans (congrFun (if_neg fun h => Bool.noConfusion h.1) _) ?_
  refine (bind_of_ok hagain _).trans ?_
  rw [peek_bind, peek_bind]
  have hdrop : ∀ levels, dropPendingKey (.outside x ((m.past '-').across (Text.spaces k))
      (opened inside queue taken none ⟨Span.empty m, .blockSequenceStart⟩) taken true key levels
        false bound) = .ok ((), .outside x ((m.past '-').across (Text.spaces k))
      (opened inside queue taken none ⟨Span.empty m, .blockSequenceStart⟩) taken true key levels
        false bound) := by
    intro levels
    obtain ⟨possible, required, number, mark⟩ := key
    obtain rfl : possible = false := hkey
    rfl
  by_cases hroll : isBreak (x.headD '\x00') = true ∨ isFlow (x.headD '\x00') = true
  · refine Eq.trans (congrFun (if_pos hroll) _) ?_
    refine (bind_of_ok rollProvisional_outside _).trans ((bind_of_ok (hdrop _) _).trans ?_)
    rw [if_pos hroll]
    rfl
  · refine Eq.trans (congrFun (if_neg hroll) _) ?_
    refine (bind_of_ok (hdrop _) _).trans ?_
    rw [if_neg hroll]
    rfl

/-- A `:` that ends a pending key. -/
theorem fetchValue_outside {inside : Bool} {base : List Level} {x : Text}
    (hpossible : key.possible = true) (htab : x.headD '\x00' ≠ '\t')
    (henters : Level.Enters inside key.mark.column base levels 0) :
    fetchValue (.outside (':' :: x) m queue taken fresh key levels leading bound) =
      .ok ((), .outside x (m.past ':')
        (opened inside (opened false queue taken (some key.token) ⟨Span.empty key.mark, .key⟩) taken
          (some key.token) ⟨Span.empty key.mark, .blockMappingStart⟩ ++ [⟨Span.empty m, .value⟩])
        taken false { key with possible := false }
        (⟨key.mark.column + 1, false⟩ :: ⟨key.mark.column, true⟩ :: base) false bound) := by
  have hskip : skipContent 1
      (.outside (':' :: x) m queue taken fresh key levels leading bound) =
      .ok ((), .outside x (m.past ':') queue taken fresh key levels false bound) := rfl
  have hkey : insertAt key.token key.mark .key
      (.outside x (m.past ':') queue taken fresh key levels false bound) =
      .ok ((), .outside x (m.past ':')
        (opened false queue taken (some key.token) ⟨Span.empty key.mark, .key⟩) taken
          fresh key levels
        false bound) := rfl
  have hroll : rollIndent key.mark.column (some key.token) .blockMappingStart key.mark
      (.outside x (m.past ':')
        (opened false queue taken (some key.token) ⟨Span.empty key.mark, .key⟩) taken
          fresh key levels
        false bound) = _ :=
    rollIndent_outside .blockMappingStart key.mark (some key.token) henters
  unfold fetchValue
  rw [get_bind]
  refine (bind_of_ok hskip _).trans ?_
  rw [peek_bind]
  refine Eq.trans (congrFun (if_neg htab) _) ?_
  refine Eq.trans (congrFun (if_pos hpossible) _) ?_
  refine (bind_of_ok hkey _).trans ((bind_of_ok hroll _).trans ?_)
  refine (bind_of_ok rollProvisional_outside _).trans ?_
  rfl

/-- The end of the text closes what is open. -/
theorem fetch_end_outside (hg : Margin g) (hover : start.across g = m) (hcolumn : m.column = 0)
    (hkey : key.possible = true → key.required = false) (hbound : g.length < bound) :
    fetch (.outside g start queue taken fresh key levels leading bound) =
      .ok ((), .outside [] m
        (queue ++ Level.closings m m.column levels ++
          Level.closings m (-1) (Level.upTo m.column levels) ++ [⟨Span.empty m, .streamEnd⟩])
        taken false { key.aged m with possible := false }
        (Level.upTo (-1) (Level.upTo m.column levels)) (leading || g.contains '\n') bound) := by
  subst hover
  have hskip : skipToToken bound
      (.outside (g ++ []) start queue taken fresh key levels leading bound) = _ :=
    skipToToken_outside hg (by decide) (by decide) (by rwa [List.append_nil])
  rw [List.append_nil] at hskip
  generalize start.across g = m at *
  have hage : ((key.aged m).required && (key.aged m).possible) = false := by
    cases hpossible : key.possible with
    | false => simp [PendingKey.aged, PendingKey.isOld, hpossible]
    | true =>
        have := hkey hpossible
        rw [PendingKey.aged]
        split <;> simp [this]
  have hgone : (modify fun s => { s with
        keys := s.keys.map fun key => { key with possible := false } } : Scan Unit)
      (.outside [] m (queue ++ Level.closings m m.column levels) taken (fresh || g.contains '\n')
        (key.aged m) (Level.upTo m.column levels) (leading || g.contains '\n') bound) =
      .ok ((), .outside [] m (queue ++ Level.closings m m.column levels) taken
        (fresh || g.contains '\n') { key.aged m with possible := false }
        (Level.upTo m.column levels) (leading || g.contains '\n') bound) := rfl
  have hstay : ∀ s : Scanner, s.mark.column = 0 → (if s.mark.column = 0 then s
      else { s with mark := { s.mark with line := s.mark.line + 1, column := 0 } }) = s :=
    fun s hs => if_pos hs
  unfold fetch
  rw [fuel_bind]
  refine (bind_of_ok hskip _).trans ?_
  refine (bind_of_ok (dropStaleKeys_outside fun h => .inl (hkey h)) _).trans ?_
  rw [mark_bind]
  refine (bind_of_ok (unrollIndent_outside _) _).trans ?_
  rw [peek_bind, mark_bind]
  refine Eq.trans (congrFun (if_pos rfl) _) ?_
  unfold fetchStreamEnd
  rw [modify_bind, hstay _ hcolumn, get_bind]
  refine Eq.trans (congrFun (if_neg (ne_true_of_eq_false ?_)) _) ?_
  · show (_ && _ || false) = false
    rw [hage]
    rfl
  refine (bind_of_ok hgone _).trans ((bind_of_ok (unrollIndent_outside _) _).trans ?_)
  rfl

end Fetch

end Scan

end YamlEdit
