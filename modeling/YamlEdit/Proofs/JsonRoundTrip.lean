import YamlEdit.Json.Read
import YamlEdit.Proofs.Inversion
import YamlEdit.Proofs.Numerals

/-!
# JSON that is written is read back

Readers are put together from small ones, and so is what is known of them. `Takes` says what a
reader takes off a text, wherever the text starts; `Gives` says what can be known of all that it
gives. Reading what has been written is a matter of the first kind (`Json.readsBack`): for each kind
of value the reader takes just what is written for it. What is read nests no deeper than is allowed,
and its integers have 64 bits (`Json.gives_readValue`); so it is read again from what it is written
as, but for doubles, whose decimals are not looked at here.
-/

namespace YamlEdit

namespace Json

/-! ## Readers -/

section Readers

variable {ε α β : Type}

/-- A reader that takes what is in front of `rest` off a text and gives `a`, wherever the text
starts. -/
def Takes (r : StateT Cursor (Except ε) α) (t rest : Text) (a : α) : Prop :=
  ∀ place, ∃ place', r ⟨t, place⟩ = .ok (a, ⟨rest, place'⟩)

/-- A reader that gives only what is `P`. -/
def Gives (P : α → Prop) (r : StateT Cursor (Except ε) α) : Prop :=
  ∀ c a c', r c = .ok (a, c') → P a

variable {r : StateT Cursor (Except ε) α} {f : α → StateT Cursor (Except ε) β}
  {t u rest : Text} {a : α} {b : β} {P : α → Prop} {Q : β → Prop}

theorem takes_pure : Takes (ε := ε) (pure a) t t a := fun place => ⟨place, rfl⟩

/-- One reader behind another one takes what the other one leaves. -/
theorem Takes.bind (h : Takes r t u a) (hf : Takes (f a) u rest b) :
    Takes (r >>= f) t rest b := by
  intro place
  obtain ⟨place', hr⟩ := h place
  obtain ⟨place'', hb⟩ := hf place'
  exact ⟨place'', stateful_bind_eq_ok.mpr ⟨a, _, hr, hb⟩⟩

theorem Takes.map {g : α → β} (h : Takes r t rest a) : Takes (g <$> r) t rest (g a) := by
  intro place
  obtain ⟨place', hr⟩ := h place
  refine ⟨place', ?_⟩
  show (fun p : α × Cursor => (g p.1, p.2)) <$> r ⟨t, place⟩ = _
  rw [hr]
  rfl

theorem gives_pure (h : P a) : Gives (ε := ε) P (pure a) := by
  intro c a' c' heq
  cases heq
  exact h

/-- What two readers give is what the second one gives. -/
theorem Gives.bind (h : Gives P r) (hf : ∀ a, P a → Gives Q (f a)) : Gives Q (r >>= f) := by
  intro c b c' hb
  obtain ⟨a, c₁, ha, hb⟩ := stateful_bind_eq_ok.mp hb
  exact hf a (h c a c₁ ha) c₁ b c' hb

theorem gives_any (r : StateT Cursor (Except ε) α) : Gives (fun _ => True) r :=
  fun _ _ _ _ => trivial

/-- What the first reader gives may not matter. -/
theorem Gives.of_bind (hf : ∀ a, Gives Q (f a)) : Gives Q (r >>= f) :=
  (gives_any r).bind fun a _ => hf a

theorem gives_ite {c : Prop} [Decidable c] {r r' : StateT Cursor (Except ε) α} (h : c → Gives P r)
    (h' : ¬ c → Gives P r') : Gives P (if c then r else r') := by
  split
  · exact h ‹_›
  · exact h' ‹_›

theorem Gives.map {g : α → β} (h : Gives P r) (hg : ∀ a, P a → Q (g a)) : Gives Q (g <$> r) := by
  intro c b c' hb
  obtain ⟨⟨a, c₁⟩, ha, heq⟩ := map_eq_ok.mp
    (show (fun p : α × Cursor => (g p.1, p.2)) <$> r c = _ from hb)
  cases heq
  exact hg a (h c a _ ha)

end Readers

section Characters

variable {t : Text} {c : Char} {p : Char → Bool} {fault atEnd : Fault} {α : Type} {P : α → Prop}

theorem gives_fail : Gives P (Reader.fail fault) := by
  intro c a c' h
  cases h

theorem gives_failAhead : Gives P (Reader.failAhead fault) := by
  intro c a c' h
  cases h

theorem takes_peek? : Takes Reader.peek? t t t.head? := fun place => ⟨place, rfl⟩

theorem takes_skip : Takes Reader.skip (c :: t) t () := fun _ => ⟨_, rfl⟩

theorem takes_next : Takes (Reader.next fault) (c :: t) t c := fun _ => ⟨_, rfl⟩

theorem takes_nextThat (h : p c = true) : Takes (Reader.nextThat p atEnd fault) (c :: t) t c := by
  intro place
  refine ⟨place.next c, ?_⟩
  show (if p c then _ else _) = _
  rw [if_pos h]
  rfl

theorem takes_remaining : Takes Reader.remaining t t t.length := fun place => ⟨place, rfl⟩

/-- Where no blank stands none is skipped. -/
theorem takes_peekToken? (h : ∀ c ∈ t.head?, isSpace c = false) : Takes peekToken? t t t.head? := by
  intro place
  refine ⟨place, ?_⟩
  cases t with
  | nil => rfl
  | cons c t =>
      have hstays : Cursor.skipSpace (c :: t) place = ⟨c :: t, place⟩ := by
        rw [Cursor.skipSpace, if_neg (by rw [h c rfl]; nofun)]
      show Except.ok ((Cursor.skipSpace (c :: t) place).rest.head?, _) = _
      rw [hstays]
      exact congrArg (fun d => Except.ok (some c, d)) hstays

theorem takes_word (w : Text) : Takes (word w) (w ++ t) t () := by
  induction w with
  | nil => exact takes_pure
  | cons d w ih => exact (takes_nextThat (by simp)).bind ih

end Characters

/-! ## Numbers -/

/-- What stands behind a value: the end of the text, or what closes or goes on with the collection
that the value is in. -/
def EndsValue (t : Text) : Prop := ∀ c ∈ t.head?, c = ',' ∨ c = ']' ∨ c = '\x7d'

section Numbers

variable {t ds : Text} {n limit fuel count : Nat} {positive : Bool}

theorem EndsValue.not_isDigit (h : EndsValue t) : ∀ c ∈ t.head?, Text.isDigit c = false := by
  intro c hc
  rcases h c hc with rfl | rfl | rfl <;> rfl

theorem ne_of_isDigit {c d : Char} (hc : Text.isDigit c = true) (hd : Text.isDigit d = false) :
    c ≠ d := by
  rintro rfl
  cases hc.symm.trans hd

theorem isSpace_of_isDigit {c : Char} (hc : Text.isDigit c = true) : isSpace c = false := by
  simp [isSpace, ne_of_isDigit hc (d := ' ') rfl, ne_of_isDigit hc (d := '\n') rfl,
    ne_of_isDigit hc (d := '\t') rfl, ne_of_isDigit hc (d := '\r') rfl]

/-- All digits are taken, as long as the number does not exceed the limit. -/
theorem takes_digits (hds : ∀ c ∈ ds, Text.isDigit c = true) (hfuel : ds.length ≤ fuel)
    (hlimit : Nat.ofDigitChars 10 ds n ≤ limit) (ht : ∀ c ∈ t.head?, Text.isDigit c = false) :
    Takes (digits fuel limit n count) (ds ++ t) t
      (Nat.ofDigitChars 10 ds n, count + ds.length, false) := by
  induction ds generalizing fuel n count with
  | nil =>
      cases fuel with
      | zero => exact takes_pure
      | succ fuel =>
          rw [digits]
          refine takes_peek?.bind ?_
          cases t with
          | nil => exact takes_pure
          | cons c t =>
              show Takes (if Text.isDigit c then _ else _) _ _ _
              rw [if_neg (by rw [ht c rfl]; nofun)]
              exact takes_pure
  | cons c ds ih =>
      obtain ⟨hc, hds⟩ := List.forall_mem_cons.mp hds
      rw [Nat.ofDigitChars_cons] at hlimit ⊢
      cases fuel with
      | zero => exact absurd hfuel (Nat.not_succ_le_zero _)
      | succ fuel =>
          have hlonger : 10 * n + Text.digitValue c ≤ limit :=
            Nat.le_trans (Text.le_ofDigitChars ds _) hlimit
          rw [digits, List.length_cons, Nat.add_comm ds.length, ← Nat.add_assoc]
          refine takes_peek?.bind ?_
          show Takes (if Text.isDigit c then _ else _) _ _ _
          rw [if_pos hc]
          dsimp only
          rw [if_pos hlonger]
          exact takes_skip.bind (ih hds (Nat.le_of_succ_le_succ hfuel) hlimit)

/-- **An integer of 64 bits is read** off its digits. -/
theorem takes_readNumber (positive : Bool) (hn : n < UInt64.size)
    (hnegative : positive = false → 0 < n ∧ n ≤ Nat.pow 2 63) (ht : EndsValue t) :
    Takes (readNumber positive) (Text.ofNat n ++ t) t (.integer (if positive then n else -n)) := by
  obtain ⟨c, cs, hcons⟩ := List.exists_cons_of_ne_nil (Text.ofNat_ne_nil n)
  have hdigits : ∀ d ∈ c :: cs, Text.isDigit d = true := fun d hd =>
    Text.isDigit_of_mem_ofNat (n := n) (hcons ▸ hd)
  have hvalue : Nat.ofDigitChars 10 cs (Text.digitValue c) = n := by
    have h := Text.ofDigitChars_ofNat n
    rwa [hcons, Nat.ofDigitChars_cons, Nat.mul_zero, Nat.zero_add] at h
  rw [hcons, readNumber]
  refine (takes_nextThat (hdigits c List.mem_cons_self)).bind ?_
  extract_lets close
  have hclose : Takes (close (n, false)) t t (.integer (if positive then n else -n)) := by
    refine takes_peek?.bind ?_
    split
    · next hdot => rcases ht _ hdot with h | h | h <;> cases h
    · next he => rcases ht _ he with h | h | h <;> cases h
    · next he => rcases ht _ he with h | h | h <;> cases h
    · split
      · exact takes_pure
      · next hpositive =>
          obtain ⟨hpos, hsmall⟩ := hnegative (by simpa using hpositive)
          rw [if_neg (by omega)]
          exact takes_pure
  by_cases hzero : c = '0'
  · -- a number that starts with a zero is the zero, and has no more digits
    have hn0 : n = 0 := (Nat.eq_zero_or_pos n).resolve_right fun hpos =>
      Text.ne_zero_of_head_ofNat hpos c (by rw [hcons]; rfl) hzero
    subst hn0 hzero
    cases hcons
    rw [if_pos rfl]
    refine takes_peek?.bind ?_
    cases t with
    | nil => exact hclose
    | cons d t =>
        show Takes (if Text.isDigit d then _ else _) _ _ _
        rw [if_neg (by rw [ht.not_isDigit d rfl]; nofun)]
        exact hclose
  · rw [if_neg hzero]
    refine takes_remaining.bind ?_
    have hread : Takes (digits (cs ++ t).length maxUnsigned (Text.digitValue c) 1) (cs ++ t) t
        (n, 1 + cs.length, false) := by
      rw [← hvalue]
      exact takes_digits (fun d hd => hdigits d (List.mem_cons_of_mem c hd)) (by simp)
        (by rw [hvalue]; exact Nat.le_sub_one_of_lt hn) ht.not_isDigit
    exact hread.bind hclose

end Numbers

/-! ## Strings -/

/-- What is written part by part is no shorter than there are parts. -/
theorem length_le_flatMap {α : Type} {f : α → Text} (h : ∀ a, 1 ≤ (f a).length) (l : List α) :
    l.length ≤ (l.flatMap f).length := by
  induction l with
  | nil => exact Nat.le_refl 0
  | cons a l ih =>
      have := h a
      rw [List.flatMap_cons, List.length_append, List.length_cons]
      omega

section Strings

variable {t rest : Text} {c d : Char} {fuel : Nat}

/-- A letter behind a backslash stands for one character. -/
theorem takes_escape (h : simpleEscape? d = some c) : Takes escape (d :: t) t c := by
  refine (takes_nextThat (by simp [h])).bind ?_
  rw [h]
  exact takes_pure

/-- The four hexadecimal digits of a control character. -/
theorem takes_hexEscape {n : Nat} (hn : n < 0x20) :
    Takes hexEscape (Text.ofNatHex 4 n ++ t) t n := by
  have hdigits : ∀ n < 0x20, Text.ofNatHex 4 n =
      ['0', '0', Nat.digitChar (n / 16), Nat.digitChar (n % 16)] := by decide +kernel
  have hvalue : ∀ d < 16, Text.hexValue? (Nat.digitChar d) = some d := by decide +kernel
  have hzero : Text.hexValue? '0' = some 0 := rfl
  intro place
  rw [hdigits n hn]
  refine ⟨(((place.next '0').next '0').next (Nat.digitChar (n / 16))).next
    (Nat.digitChar (n % 16)), ?_⟩
  unfold hexEscape
  dsimp only [List.cons_append, List.nil_append, List.take_succ_cons, List.take_zero]
  rw [if_neg]
  · simp only [List.mapM_cons, List.mapM_nil, hzero, hvalue (n / 16) (by omega),
      hvalue (n % 16) (by omega), Option.pure_def, Option.bind_eq_bind, Option.bind_some]
    rw [show ((0 * 16 + 0) * 16 + n / 16) * 16 + n % 16 = n by omega]
    rfl
  · simp only [Text.size_cons]
    have := Char.utf8Size_pos '0'
    have := Char.utf8Size_pos (Nat.digitChar (n / 16))
    have := Char.utf8Size_pos (Nat.digitChar (n % 16))
    omega

theorem takes_unicodeEscape (h : c.toNat < 0x20) :
    Takes unicodeEscape (Text.ofNatHex 4 c.toNat ++ t) t c := by
  refine (takes_hexEscape h).bind ?_
  rw [if_neg (by omega), if_pos (by omega), Char.ofNat_toNat]
  exact takes_pure

/-- One character is read off what it is written as. -/
theorem takes_stringRest_cons {read a : Text}
    (h : Takes (stringRest fuel (c :: read)) t rest a) :
    Takes (stringRest (fuel + 1) read) (escapeChar c ++ t) rest a := by
  have hescaped : ∀ {u : Text}, Takes escape u t c →
      Takes (stringRest (fuel + 1) read) ('\\' :: u) rest a := fun hu =>
    takes_next.bind (hu.bind h)
  have hletter : ∀ {d : Char}, simpleEscape? d = some c →
      Takes (stringRest (fuel + 1) read) ('\\' :: d :: t) rest a := fun hd =>
    hescaped (takes_escape hd)
  unfold escapeChar
  split
  · next hc => exact hletter (by rw [hc]; rfl)
  split
  · next hc => exact hletter (by rw [hc]; rfl)
  split
  · next hc => exact hletter (by rw [hc]; rfl)
  split
  · next hc => exact hletter (by rw [hc]; rfl)
  split
  · next hc => exact hletter (by rw [hc]; rfl)
  split
  · next hc => exact hletter (by rw [hc]; rfl)
  split
  · next hc => exact hletter (by rw [hc]; rfl)
  split
  · next hcontrol => exact hescaped ((takes_nextThat rfl).bind (takes_unicodeEscape hcontrol))
  · next hquote hslash _ _ _ _ _ hplain =>
      refine takes_next.bind ?_
      rw [if_neg hquote, if_neg hslash, if_neg hplain]
      exact h

theorem length_le_flatMap_escapeChar (s : Text) : s.length ≤ (s.flatMap escapeChar).length := by
  refine length_le_flatMap (fun c => ?_) s
  unfold escapeChar
  repeat' split
  all_goals exact Nat.le_add_left 1 _

/-- **A string is read** up to its closing quote. -/
theorem takes_readString (s : Text) : Takes readString (renderString s ++ t) t s := by
  have hrest : ∀ {fuel : Nat} {s read : Text}, s.length < fuel →
      Takes (stringRest fuel read) (s.flatMap escapeChar ++ '"' :: t) t (read.reverse ++ s) := by
    intro fuel s read hfuel
    induction s generalizing fuel read with
    | nil =>
        obtain ⟨fuel, rfl⟩ := Nat.exists_eq_add_one_of_ne_zero (Nat.ne_of_gt hfuel)
        rw [List.append_nil]
        exact takes_next.bind takes_pure
    | cons c s ih =>
        obtain ⟨fuel, rfl⟩ := Nat.exists_eq_add_one_of_ne_zero (Nat.ne_zero_of_lt hfuel)
        have hs : Takes (stringRest fuel (c :: read)) _ _ _ := ih (Nat.lt_of_succ_lt_succ hfuel)
        rw [List.reverse_cons, List.append_assoc] at hs
        rw [List.flatMap_cons, List.append_assoc]
        exact takes_stringRest_cons hs
  have htext : renderString s ++ t = '"' :: (s.flatMap escapeChar ++ '"' :: t) := by
    simp [renderString]
  rw [htext]
  refine takes_skip.bind (takes_remaining.bind (hrest ?_))
  have := length_le_flatMap_escapeChar s
  rw [List.length_append]
  omega

end Strings

/-! ## Values -/

/-- A value that nests no deeper than `depth` and holds integers of 64 bits only, signed or
unsigned; and no doubles, unless `floats` allows them. -/
inductive Fits (floats : Prop) : Nat → Json → Prop where
  | null {depth : Nat} : Fits floats depth null
  | bool {depth : Nat} {value : Bool} : Fits floats depth (bool value)
  | integer {depth : Nat} {n : Int} (least : -(Nat.pow 2 63 : Int) ≤ n)
      (greatest : n < UInt64.size) : Fits floats depth (integer n)
  | float {depth : Nat} {x : Float} (allowed : floats) : Fits floats depth (float x)
  | string {depth : Nat} {text : Text} : Fits floats depth (string text)
  | array {depth : Nat} {items : List Json} (room : 1 < depth)
      (inner : ∀ item ∈ items, Fits floats (depth - 1) item) : Fits floats depth (array items)
  | object {depth : Nat} {members : List (Text × Json)} (room : 1 < depth)
      (inner : ∀ member ∈ members, Fits floats (depth - 1) member.2) :
      Fits floats depth (object members)

/-- What stands in front of an item or a member: a comma, but not in front of the first one. -/
def separator (first : Bool) : Text := if first then [] else [',']

/-- The items of a list that are left to be read, as they are written. -/
def itemsLeft (first : Bool) (items : List Json) : Text :=
  if first then renderItems items else items.flatMap fun item => ',' :: item.render

/-- One member of an object, as it is written. -/
def renderMember (member : Text × Json) : Text := renderString member.1 ++ ':' :: member.2.render

/-- The members of an object that are left to be read, as they are written. -/
def membersLeft (first : Bool) (members : List (Text × Json)) : Text :=
  if first then renderMembers members else members.flatMap fun member => ',' :: renderMember member

theorem itemsLeft_nil (first : Bool) : itemsLeft first [] = [] := by
  cases first <;> rfl

theorem itemsLeft_cons (first : Bool) (item : Json) (items : List Json) :
    itemsLeft first (item :: items) =
      separator first ++ (item.render ++ itemsLeft false items) := by
  cases first with
  | false => rfl
  | true =>
      show renderItems (item :: items) = item.render ++ itemsLeft false items
      induction items generalizing item with
      | nil => rw [renderItems, itemsLeft_nil, List.append_nil]
      | cons next items ih =>
          rw [renderItems, ih]
          · rfl
          · nofun

theorem membersLeft_nil (first : Bool) : membersLeft first [] = [] := by
  cases first <;> rfl

theorem membersLeft_cons (first : Bool) (member : Text × Json) (members : List (Text × Json)) :
    membersLeft first (member :: members) =
      separator first ++ (renderMember member ++ membersLeft false members) := by
  cases first with
  | false => rfl
  | true =>
      show renderMembers (member :: members) = renderMember member ++ membersLeft false members
      induction members generalizing member with
      | nil => rw [renderMembers, membersLeft_nil, List.append_nil, renderMember]
      | cons next members ih =>
          rw [renderMembers, ih]
          · simp [membersLeft, renderMember]
          · nofun

theorem length_le_itemsLeft (items : List Json) :
    items.length ≤ (itemsLeft false items).length :=
  length_le_flatMap (fun _ => Nat.le_add_left 1 _) items

theorem length_le_membersLeft (members : List (Text × Json)) :
    members.length ≤ (membersLeft false members).length :=
  length_le_flatMap (fun _ => Nat.le_add_left 1 _) members

section Values

variable {t : Text} {c : Char} {j : Json} {fuel depth : Nat} {floats : Prop}

/-- What a written value starts with is no blank and no end of a list. -/
theorem render_eq_cons (h : Fits False depth j) :
    ∃ c u, j.render = c :: u ∧ isSpace c = false ∧ c ≠ ']' := by
  cases h with
  | null => exact ⟨'n', _, by rw [render]; rfl, rfl, by decide⟩
  | @bool _ value =>
      cases value with
      | true => exact ⟨'t', _, by rw [render]; rfl, rfl, by decide⟩
      | false => exact ⟨'f', _, by rw [render]; rfl, rfl, by decide⟩
  | @integer _ n =>
      cases n with
      | ofNat n =>
          obtain ⟨c, u, hcons⟩ := List.exists_cons_of_ne_nil (Text.ofNat_ne_nil n)
          have hdigit : Text.isDigit c = true :=
            Text.isDigit_of_mem_ofNat (n := n) (hcons ▸ List.mem_cons_self)
          exact ⟨c, u, by rw [render]; exact hcons, isSpace_of_isDigit hdigit,
            ne_of_isDigit hdigit rfl⟩
      | negSucc n => exact ⟨'-', _, by rw [render]; rfl, rfl, by decide⟩
  | float hfloat => exact hfloat.elim
  | string => exact ⟨'"', _, by rw [render]; rfl, rfl, by decide⟩
  | array => exact ⟨'[', _, by rw [render]; rfl, rfl, by decide⟩
  | object => exact ⟨'\x7b', _, by rw [render]; rfl, rfl, by decide⟩

theorem takes_readScalar_integer {n : Int} (hleast : -(Nat.pow 2 63 : Int) ≤ n)
    (hgreatest : n < UInt64.size) (ht : EndsValue t) :
    ∃ c u, Text.ofInt n ++ t = c :: u ∧ isSpace c = false ∧ c ≠ '[' ∧
      c ≠ '\x7b' ∧ Takes (readScalar c) (c :: u) t (.integer n) := by
  cases n with
  | ofNat n =>
      obtain ⟨c, u, hcons⟩ := List.exists_cons_of_ne_nil (Text.ofNat_ne_nil n)
      have hdigit : Text.isDigit c = true :=
        Text.isDigit_of_mem_ofNat (n := n) (hcons ▸ List.mem_cons_self)
      have hread := takes_readNumber true (Int.ofNat_lt.mp hgreatest) nofun ht
      have htext : Text.ofInt (.ofNat n) ++ t = c :: (u ++ t) := by
        rw [← List.cons_append, ← hcons]
        rfl
      refine ⟨c, u ++ t, htext, isSpace_of_isDigit hdigit, ne_of_isDigit hdigit rfl,
        ne_of_isDigit hdigit rfl, ?_⟩
      rw [readScalar, if_neg (ne_of_isDigit hdigit rfl), if_neg (ne_of_isDigit hdigit rfl),
        if_neg (ne_of_isDigit hdigit rfl), if_neg (ne_of_isDigit hdigit rfl), if_pos hdigit,
        ← htext]
      exact hread
  | negSucc n =>
      refine ⟨'-', Text.ofNat (n + 1) ++ t, rfl, rfl, by decide, by decide, takes_skip.bind ?_⟩
      have hn : n + 1 ≤ Nat.pow 2 63 := by omega
      exact takes_readNumber false (Nat.lt_of_le_of_lt hn (by decide))
        (fun _ => ⟨Nat.succ_pos n, hn⟩) ht

/-- A value that is no list and no object is left to the reader of those. -/
theorem takes_readValue_scalar {u : Text} (hspace : isSpace c = false) (hlist : c ≠ '[')
    (hobject : c ≠ '\x7b') (h : Takes (readScalar c) (c :: u) t j) :
    Takes (readValue (fuel + 1) depth) (c :: u) t j := by
  rw [readValue]
  refine (takes_peekToken? (by rintro _ ⟨⟩; exact hspace)).bind ?_
  show Takes (if c = '[' then _ else _) _ _ _
  rw [if_neg hlist, if_neg hobject]
  exact h

/-- A value is read off what it is written as, with a step for each of its characters. -/
def ReadsBack (depth : Nat) (j : Json) : Prop :=
  ∀ fuel t, j.render.length ≤ fuel → EndsValue t →
    Takes (readValue fuel depth) (j.render ++ t) t j

theorem takes_endList : Takes endList (']' :: t) t () :=
  (takes_peekToken? (by rintro _ ⟨⟩; rfl)).bind takes_skip

theorem takes_endObject : Takes endObject ('\x7d' :: t) t () :=
  (takes_peekToken? (by rintro _ ⟨⟩; rfl)).bind takes_skip

theorem takes_colon : Takes colon (':' :: t) t () :=
  (takes_peekToken? (by rintro _ ⟨⟩; rfl)).bind takes_skip

/-- An item is left where none of them is the end of the list. -/
theorem takes_hasItem {first : Bool} {u : Text} (hspace : isSpace c = false) (hnoEnd : c ≠ ']') :
    Takes (hasItem first) (separator first ++ c :: u) (c :: u) true := by
  cases first with
  | true =>
      refine (takes_peekToken? (by rintro _ ⟨⟩; exact hspace)).bind ?_
      show Takes (if c = ']' then _ else _) _ _ _
      rw [if_neg hnoEnd]
      exact takes_pure
  | false =>
      refine (takes_peekToken? (by rintro _ ⟨⟩; rfl)).bind (takes_skip.bind ?_)
      refine (takes_peekToken? (by rintro _ ⟨⟩; exact hspace)).bind ?_
      split
      · next h => exact absurd (Option.some.inj h) hnoEnd
      · exact takes_pure
      · next h => cases h

theorem takes_hasItem_end {first : Bool} : Takes (hasItem first) (']' :: t) (']' :: t) false :=
  (takes_peekToken? (by rintro _ ⟨⟩; rfl)).bind takes_pure

/-- A member is left where a name starts. -/
theorem takes_hasMember {first : Bool} {u : Text} :
    Takes (hasMember first) (separator first ++ '"' :: u) ('"' :: u) true := by
  cases first with
  | true => exact (takes_peekToken? (by rintro _ ⟨⟩; rfl)).bind takes_pure
  | false =>
      exact (takes_peekToken? (by rintro _ ⟨⟩; rfl)).bind
        (takes_skip.bind ((takes_peekToken? (by rintro _ ⟨⟩; rfl)).bind takes_pure))

theorem takes_hasMember_end {first : Bool} :
    Takes (hasMember first) ('\x7d' :: t) ('\x7d' :: t) false :=
  (takes_peekToken? (by rintro _ ⟨⟩; rfl)).bind takes_pure

theorem endsValue_itemsLeft {items : List Json} :
    EndsValue (itemsLeft false items ++ ']' :: t) := by
  cases items with
  | nil => rintro _ ⟨⟩; exact .inr (.inl rfl)
  | cons => rintro _ ⟨⟩; exact .inl rfl

theorem endsValue_membersLeft {members : List (Text × Json)} :
    EndsValue (membersLeft false members ++ '\x7d' :: t) := by
  cases members with
  | nil => rintro _ ⟨⟩; exact .inr (.inr rfl)
  | cons => rintro _ ⟨⟩; exact .inl rfl

/-- **The items of a list are read** one by one. -/
theorem takes_readItems {first : Bool} {items read : List Json}
    (hfits : ∀ item ∈ items, Fits False depth item) (hback : ∀ item ∈ items, ReadsBack depth item)
    (hfuel : (itemsLeft first items).length < fuel) :
    Takes (readItems fuel depth first read) (itemsLeft first items ++ ']' :: t) (']' :: t)
      (read.reverse ++ items) := by
  induction items generalizing first fuel read with
  | nil =>
      obtain ⟨fuel, rfl⟩ := Nat.exists_eq_add_one_of_ne_zero (Nat.ne_zero_of_lt hfuel)
      rw [List.append_nil, itemsLeft_nil, readItems]
      exact takes_hasItem_end.bind takes_pure
  | cons item items ih =>
      obtain ⟨fuel, rfl⟩ := Nat.exists_eq_add_one_of_ne_zero (Nat.ne_zero_of_lt hfuel)
      obtain ⟨hitem, hfits⟩ := List.forall_mem_cons.mp hfits
      obtain ⟨hread, hback⟩ := List.forall_mem_cons.mp hback
      obtain ⟨c, u, hcons, hspace, hnoEnd⟩ := render_eq_cons hitem
      -- the item is not empty, so the others can be read with a step less
      have hone : 1 ≤ item.render.length := by rw [hcons]; exact Nat.le_add_left 1 _
      rw [itemsLeft_cons, List.length_append, List.length_append] at hfuel
      rw [itemsLeft_cons, List.append_assoc, List.append_assoc, readItems]
      refine Takes.bind (a := true) (u := item.render ++ (itemsLeft false items ++ ']' :: t)) ?_ ?_
      · rw [hcons]
        exact takes_hasItem hspace hnoEnd
      · refine (hread fuel _ (by omega) endsValue_itemsLeft).bind ?_
        have hrest : Takes (readItems fuel depth false (item :: read)) _ _ _ :=
          ih hfits hback (by omega)
        rwa [List.reverse_cons, List.append_assoc] at hrest

/-- **A list is read** if its items are. -/
theorem readsBack_array {items : List Json} (hroom : 1 < depth)
    (hfits : ∀ item ∈ items, Fits False (depth - 1) item)
    (hback : ∀ item ∈ items, ReadsBack (depth - 1) item) : ReadsBack depth (array items) := by
  intro fuel t hfuel _
  have htext : (array items).render ++ t = '[' :: (itemsLeft true items ++ ']' :: t) := by
    simp [render, itemsLeft]
  have hlength : (array items).render.length = (itemsLeft true items).length + 2 := by
    simp [render, itemsLeft]
  rw [htext]
  obtain ⟨fuel, rfl⟩ := Nat.exists_eq_add_one_of_ne_zero (show fuel ≠ 0 by omega)
  rw [readValue]
  refine (takes_peekToken? (by rintro _ ⟨⟩; rfl)).bind ?_
  show Takes (if '[' = '[' then if depth ≤ 1 then _ else _ else _) _ _ _
  rw [if_pos rfl, if_neg (Nat.not_le.mpr hroom)]
  refine takes_skip.bind ?_
  have hitems : Takes (readItems fuel (depth - 1) true []) (itemsLeft true items ++ ']' :: t)
      (']' :: t) items :=
    takes_readItems hfits hback (by omega)
  exact hitems.bind (takes_endList.bind takes_pure)

/-- **The members of an object are read** one by one. -/
theorem takes_readMembers {first : Bool} {members read : List (Text × Json)}
    (hback : ∀ member ∈ members, ReadsBack depth member.2)
    (hfuel : (membersLeft first members).length < fuel) :
    Takes (readMembers fuel depth first read) (membersLeft first members ++ '\x7d' :: t)
      ('\x7d' :: t) (read.reverse ++ members) := by
  induction members generalizing first fuel read with
  | nil =>
      obtain ⟨fuel, rfl⟩ := Nat.exists_eq_add_one_of_ne_zero (Nat.ne_zero_of_lt hfuel)
      rw [List.append_nil, membersLeft_nil, readMembers]
      exact takes_hasMember_end.bind takes_pure
  | cons member members ih =>
      obtain ⟨fuel, rfl⟩ := Nat.exists_eq_add_one_of_ne_zero (Nat.ne_zero_of_lt hfuel)
      obtain ⟨hread, hback⟩ := List.forall_mem_cons.mp hback
      have htext : membersLeft first (member :: members) ++ '\x7d' :: t =
          separator first ++ (renderString member.1 ++
            ':' :: (member.2.render ++ (membersLeft false members ++ '\x7d' :: t))) := by
        simp [membersLeft_cons, renderMember]
      have hlength : member.2.render.length + (membersLeft false members).length <
          (membersLeft first (member :: members)).length := by
        simp [membersLeft_cons, renderMember]
        omega
      rw [readMembers, htext]
      refine takes_hasMember.bind ((takes_readString member.1).bind (takes_colon.bind ?_))
      refine (hread fuel _ (by omega) endsValue_membersLeft).bind ?_
      have hrest : Takes (readMembers fuel depth false (member :: read)) _ _ _ :=
        ih hback (by omega)
      rwa [List.reverse_cons, List.append_assoc] at hrest

/-- **An object is read** if the values of its members are. -/
theorem readsBack_object {members : List (Text × Json)} (hroom : 1 < depth)
    (hback : ∀ member ∈ members, ReadsBack (depth - 1) member.2) :
    ReadsBack depth (object members) := by
  intro fuel t hfuel _
  have htext : (object members).render ++ t =
      '\x7b' :: (membersLeft true members ++ '\x7d' :: t) := by
    simp [render, membersLeft]
  have hlength : (object members).render.length = (membersLeft true members).length + 2 := by
    simp [render, membersLeft]
  rw [htext]
  obtain ⟨fuel, rfl⟩ := Nat.exists_eq_add_one_of_ne_zero (show fuel ≠ 0 by omega)
  rw [readValue]
  refine (takes_peekToken? (by rintro _ ⟨⟩; rfl)).bind ?_
  show Takes (if '\x7b' = '[' then _ else if '\x7b' = '\x7b' then if depth ≤ 1 then _ else _ else _)
    _ _ _
  rw [if_neg (by decide), if_pos rfl, if_neg (Nat.not_le.mpr hroom)]
  refine takes_skip.bind ?_
  have hmembers : Takes (readMembers fuel (depth - 1) true [])
      (membersLeft true members ++ '\x7d' :: t) ('\x7d' :: t) members :=
    takes_readMembers hback (by omega)
  exact hmembers.bind (takes_endObject.bind takes_pure)

/-- **What is written is read back**, but for doubles. -/
theorem readsBack (h : Fits False depth j) : ReadsBack depth j := by
  have hpos : ∀ {fuel : Nat} {j : Json}, Fits False 0 j → j.render.length ≤ fuel →
      ∃ n, fuel = n + 1 := by
    intro fuel j hfits hfuel
    obtain ⟨c, u, hcons, -, -⟩ := render_eq_cons hfits
    rw [hcons] at hfuel
    exact Nat.exists_eq_add_one_of_ne_zero (Nat.ne_zero_of_lt hfuel)
  induction h with
  | null =>
      intro fuel t hfuel ht
      obtain ⟨fuel, rfl⟩ := hpos .null hfuel
      exact takes_readValue_scalar rfl (by decide) (by decide)
        (takes_skip.bind ((takes_word "ull".toList).bind takes_pure))
  | @bool _ value =>
      intro fuel t hfuel ht
      obtain ⟨fuel, rfl⟩ := hpos .bool hfuel
      cases value with
      | true =>
          exact takes_readValue_scalar rfl (by decide) (by decide)
            (takes_skip.bind ((takes_word "rue".toList).bind takes_pure))
      | false =>
          exact takes_readValue_scalar rfl (by decide) (by decide)
            (takes_skip.bind ((takes_word "alse".toList).bind takes_pure))
  | @integer _ n hleast hgreatest =>
      intro fuel t hfuel ht
      obtain ⟨fuel, rfl⟩ := hpos (.integer hleast hgreatest) hfuel
      obtain ⟨c, u, htext, hspace, hlist, hobject, hread⟩ :=
        takes_readScalar_integer hleast hgreatest ht
      rw [render, htext]
      exact takes_readValue_scalar hspace hlist hobject hread
  | float hfloat => exact hfloat.elim
  | @string _ text =>
      intro fuel t hfuel ht
      obtain ⟨fuel, rfl⟩ := hpos .string hfuel
      rw [render]
      exact takes_readValue_scalar rfl (by decide) (by decide) (takes_readString text).map
  | array hroom hinner ih => exact readsBack_array hroom hinner ih
  | object hroom _ ih => exact readsBack_object hroom ih

end Values

/-! ## What is read -/

section Read

variable {fuel depth limit n count : Nat} {positive : Bool} {exponent : Int}

/-- Digits are left where they would make the number too large. -/
theorem gives_digits (h : n ≤ limit) :
    Gives (fun r => r.1 ≤ limit) (digits fuel limit n count) := by
  induction fuel generalizing n count with
  | zero => exact gives_pure h
  | succ fuel ih =>
      rw [digits]
      refine .of_bind fun c => ?_
      split
      · split
        · dsimp only
          split
          · next hlonger => exact .of_bind fun _ => ih hlonger
          · exact gives_pure h
        · exact gives_pure h
      · exact gives_pure h

theorem gives_floatOf : Gives (Fits True depth) (floatOf positive n exponent) := by
  unfold floatOf
  split
  · exact gives_fail
  · exact gives_pure (.float trivial)

theorem gives_exponentPart : Gives (Fits True depth) (exponentPart positive n exponent) := by
  unfold exponentPart
  refine .of_bind fun _ => .of_bind fun next => ?_
  extract_lets close
  have hclose : ∀ up, Gives (Fits True depth) (close up) := by
    intro up
    refine .of_bind fun first => .of_bind fun fuel => .of_bind fun r => gives_ite ?_ ?_
    · refine fun _ => .of_bind fun _ => gives_ite (fun _ => gives_fail) fun _ => ?_
      exact .of_bind fun _ => .of_bind fun _ => gives_pure (.float trivial)
    · exact fun _ => gives_floatOf
  split
  · exact .of_bind fun _ => hclose true
  · exact .of_bind fun _ => hclose false
  · exact hclose true

theorem gives_exponentOrEnd : Gives (Fits True depth) (exponentOrEnd positive n exponent) := by
  unfold exponentOrEnd
  refine .of_bind fun next => ?_
  split
  · exact gives_exponentPart
  · exact gives_exponentPart
  · exact gives_floatOf

theorem gives_fractionPart : Gives (Fits True depth) (fractionPart positive n exponent) := by
  unfold fractionPart
  refine .of_bind fun _ => .of_bind fun _ => .of_bind fun r => gives_ite (fun _ => ?_) fun _ => ?_
  · exact .of_bind fun _ => .of_bind fun _ => gives_exponentOrEnd
  · refine gives_ite (fun _ => .of_bind fun next => ?_) fun _ => gives_exponentOrEnd
    split <;> exact gives_failAhead

/-- **Numbers without point and exponent have 64 bits**, or are doubles. -/
theorem gives_readNumber : Gives (Fits True depth) (readNumber positive) := by
  unfold readNumber
  refine .of_bind fun first => ?_
  extract_lets close
  have hclose : ∀ r : Nat × Bool, r.1 ≤ maxUnsigned → Gives (Fits True depth) (close r) := by
    rintro ⟨n, overflow⟩ hn
    have hn : n < UInt64.size := Nat.lt_of_le_of_lt hn (by decide)
    refine gives_ite (fun _ => .of_bind fun _ => .of_bind fun count => .of_bind fun next => ?_)
      fun _ => .of_bind fun next => ?_
    · split
      · exact gives_fractionPart
      · exact gives_exponentOrEnd
    · split
      · exact gives_fractionPart
      · exact gives_exponentPart
      · exact gives_exponentPart
      · refine gives_ite (fun _ => gives_pure (.integer (by omega) (by omega))) fun _ => ?_
        refine gives_ite (fun _ => gives_pure (.float trivial)) fun hsmall => ?_
        exact gives_pure (.integer (by omega) (by omega))
  refine gives_ite (fun _ => .of_bind fun next => ?_) fun _ => .of_bind fun _ => ?_
  · have hzero := hclose (0, false) (Nat.zero_le _)
    split
    · exact gives_ite (fun _ => (gives_failAhead (P := fun _ => False)).bind fun _ => False.elim)
        fun _ => hzero
    · exact hzero
  · have hfirst : Text.digitValue first ≤ maxUnsigned :=
      Nat.le_trans (Nat.sub_le _ _) (Nat.le_trans (Nat.le_of_lt first.val.toNat_lt) (by decide))
    exact (gives_digits hfirst).bind fun r hr => hclose (r.1, r.2.2) hr

theorem gives_readScalar {c : Char} : Gives (Fits True depth) (readScalar c) := by
  unfold readScalar
  refine gives_ite (fun _ => .of_bind fun _ => .of_bind fun _ => gives_pure .null) fun _ => ?_
  refine gives_ite (fun _ => .of_bind fun _ => .of_bind fun _ => gives_pure .bool) fun _ => ?_
  refine gives_ite (fun _ => .of_bind fun _ => .of_bind fun _ => gives_pure .bool) fun _ => ?_
  refine gives_ite (fun _ => .of_bind fun _ => gives_readNumber) fun _ => ?_
  refine gives_ite (fun _ => gives_readNumber) fun _ => ?_
  exact gives_ite (fun _ => (gives_any readString).map fun _ _ => .string) fun _ => gives_failAhead

/-- The readers of values, items and members call each other with less fuel. -/
theorem gives_nested (fuel depth : Nat) :
    Gives (Fits True depth) (readValue fuel depth) ∧
      (∀ first read, (∀ item ∈ read, Fits True depth item) →
        Gives (fun items => ∀ item ∈ items, Fits True depth item)
          (readItems fuel depth first read)) ∧
      ∀ first read, (∀ member ∈ read, Fits True depth member.2) →
        Gives (fun members => ∀ member ∈ members, Fits True depth member.2)
          (readMembers fuel depth first read) := by
  induction fuel generalizing depth with
  | zero =>
      refine ⟨?_, fun first read _ => ?_, fun first read _ => ?_⟩
      · rw [readValue]
        exact gives_fail
      · rw [readItems]
        exact gives_fail
      · rw [readMembers]
        exact gives_fail
  | succ fuel ih =>
      refine ⟨?_, fun first read hread => ?_, fun first read hread => ?_⟩
      · obtain ⟨-, hitems, hmembers⟩ := ih (depth - 1)
        rw [readValue]
        refine .of_bind fun next => ?_
        split
        · exact gives_failAhead
        · refine gives_ite (fun _ => ?_) fun _ => gives_ite (fun _ => ?_) fun _ => gives_readScalar
          · refine gives_ite (fun _ => gives_failAhead) fun hroom => .of_bind fun _ => ?_
            exact (hitems true [] nofun).bind fun items hinner =>
              .of_bind fun _ => gives_pure (.array (Nat.not_le.mp hroom) hinner)
          · refine gives_ite (fun _ => gives_failAhead) fun hroom => .of_bind fun _ => ?_
            exact (hmembers true [] nofun).bind fun members hinner =>
              .of_bind fun _ => gives_pure (.object (Nat.not_le.mp hroom) hinner)
      · obtain ⟨hvalue, hitems, -⟩ := ih depth
        rw [readItems]
        refine .of_bind fun _ => gives_ite (fun _ => ?_) fun _ => ?_
        · exact hvalue.bind fun item hitem =>
            hitems false (item :: read) (List.forall_mem_cons.mpr ⟨hitem, hread⟩)
        · exact gives_pure fun item hitem => hread item (List.mem_reverse.mp hitem)
      · obtain ⟨hvalue, -, hmembers⟩ := ih depth
        rw [readMembers]
        refine .of_bind fun _ => gives_ite (fun _ => .of_bind fun name => .of_bind fun _ => ?_)
          fun _ => ?_
        · exact hvalue.bind fun item hitem =>
            hmembers false ((name, item) :: read) (List.forall_mem_cons.mpr ⟨hitem, hread⟩)
        · exact gives_pure fun member hmember => hread member (List.mem_reverse.mp hmember)

/-- **What is read fits**: it nests no deeper than is allowed. -/
theorem gives_readValue : Gives (Fits True depth) (readValue fuel depth) :=
  (gives_nested fuel depth).1

theorem gives_readItems {first : Bool} {read : List Json}
    (h : ∀ item ∈ read, Fits True depth item) :
    Gives (fun items => ∀ item ∈ items, Fits True depth item) (readItems fuel depth first read) :=
  (gives_nested fuel depth).2.1 first read h

end Read

end Json

end YamlEdit
