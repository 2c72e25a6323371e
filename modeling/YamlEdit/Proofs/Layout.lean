import YamlEdit.Node.Extent
import YamlEdit.Proofs.Filler
import YamlEdit.Proofs.TokenOrder

/-!
# Where tokens stand

Every token of a document has characters of its own, which may be none: they are those that the
scanner reads for it (`Lexeme`). The characters of tokens stand one behind the other, and between
them there is only filler. A key without a mark is announced by tokens that are put into the queue
when its `:` is met; they stand at the first character of the key, so the scanner has to know of
every possible key where the token with its number starts (`Scanner.Laid`).

Main statement: `Token.scan_laid`, for the tokens of a document.
-/

namespace YamlEdit

/-- A token with the characters that are read for it, the filler included that is stepped over
before the token is put into the queue: from number `first` on, up to number `stop`. -/
structure Lexeme where
  token : Located Token
  first : Nat
  stop : Nat

/-- The part of the scanner that reads a scalar. -/
def Scan.scanScalar : ScalarStyle → Scan (Located Token)
  | .plain => scanPlain
  | .singleQuoted => scanQuoted true
  | .doubleQuoted => scanQuoted false
  | .literal => scanBlock false
  | .folded => scanBlock true

/-- The characters that never start a plain scalar. -/
def Token.isReserved (c : Char) : Bool :=
  isFlow c || c == '*' || c == '&' || c == '!' || c == '\'' || c == '"' || c == '%' || c == '@' ||
    c.toNat == 0x60

/-- What a scalar starts with. The three marks of block style start a plain scalar if no blank
follows. -/
def Token.StartsScalar (t : Text) : ScalarStyle → Prop
  | .plain => isSpaceOrBreak (t.headD '\x00') = false ∧ isReserved (t.headD '\x00') = false ∧
      (Extent.isIndicator (t.headD '\x00') = true → isSpaceOrEnd (t.getD 1 '\x00') = false)
  | .singleQuoted => t.headD '\x00' = '\''
  | .doubleQuoted => t.headD '\x00' = '"'
  | .literal => t.headD '\x00' = '|'
  | .folded => t.headD '\x00' = '>'

namespace Lexeme

/-- Characters that stand in front of others, with nothing but filler between them. -/
structure Before (doc : Text) (l next : Lexeme) : Prop where
  le : l.stop ≤ next.first
  filler : Token.Filler (doc.between l.stop next.first)

/-- One character, and filler behind it. -/
structure Indicates (doc : Text) (c : Char) (l : Lexeme) : Prop where
  wide : l.first < l.stop
  char : doc[l.first]? = some c
  filler : Token.Filler (doc.between (l.first + 1) l.stop)

/-- A scalar, which has been read from its first character on. -/
structure Scanned (doc : Text) (style : ScalarStyle) (l : Lexeme) : Prop where
  starts : Token.StartsScalar (doc.drop l.first) style
  run : ∃ s s', s.rest = doc.drop l.first ∧ s.mark.index = l.first ∧ s.rest.length < s.bound ∧
    Scan.scanScalar style s = .ok (l.token, s') ∧ s'.mark.index ≤ l.stop

/-- What a token has to do with its characters. The mark of an item stands behind its dash, that of
a block scalar somewhere in its text, and any other one at the first character. -/
def Written (doc : Text) (l : Lexeme) : Prop :=
  match l.token.item with
  | .blockEntry => l.Indicates doc '-' ∧ l.token.span.start.index = l.stop
  | .value => l.Indicates doc ':' ∧ l.token.span.start.index = l.first
  | .key => (l.first = l.stop ∨ l.Indicates doc '?') ∧ l.token.span.start.index = l.first
  | .scalar style _ => l.Scanned doc style
  | _ => l.token.span.start.index = l.first

/-- A token with its own characters. -/
structure Fits (doc : Text) (l : Lexeme) : Prop where
  le : l.first ≤ l.stop
  written : l.Written doc

/-- Tokens with their own characters, one behind the other. -/
structure Row (doc : Text) (tokens : List (Located Token)) (ls : List Lexeme) : Prop where
  tokens : ls.map Lexeme.token = tokens
  chain : ls.IsChain (Lexeme.Before doc)
  fits : ∀ l ∈ ls, l.Fits doc

end Lexeme

namespace Scanner

/-- The tokens so far with their characters, those in `front` having been handed out. They reach up
to number `n`, but for filler. A possible key starts with the token that has its number, or at `n`
if that is still to come; the innermost one has the greatest number. -/
structure Laid (doc : Text) (front : List (Located Token)) (ls : List Lexeme) (n : Nat)
    (s : Scanner) : Prop where
  tokens : ls.map Lexeme.token = front ++ s.queue
  taken : s.taken = front.length
  chain : ls.IsChain (Lexeme.Before doc)
  fits : ∀ l ∈ ls, l.Fits doc
  reach : ∀ l ∈ ls.getLast?, l.stop ≤ n ∧ Token.Filler (doc.between l.stop n)
  place : s.rest = doc.drop s.mark.index
  bound : s.rest.length < s.bound
  keys : ∀ key ∈ s.possibleKeys, s.taken ≤ key.token ∧
    (ls.map Lexeme.first ++ [n])[key.token]? = some key.mark.index
  order : s.possibleKeys.Pairwise fun key outer => outer.token < key.token

/-- The tokens reach up to the given number. -/
def LaidTo (doc : Text) (front : List (Located Token)) (n : Nat) (s : Scanner) : Prop :=
  ∃ ls, s.Laid doc front ls n

/-- The tokens reach up to the place of the scanner, and all possible keys have started. -/
def LaidOut (doc : Text) (front : List (Located Token)) (s : Scanner) : Prop :=
  ∃ ls, s.Laid doc front ls s.mark.index ∧ ∀ key ∈ s.possibleKeys, key.token < ls.length

/-- The scanner is at the given place, up to which the tokens reach. -/
def At (doc : Text) (front : List (Located Token)) (n : Nat) (s : Scanner) : Prop :=
  s.LaidOut doc front ∧ s.mark.index = n

/-- The scanner is at the given place, where a key may start. -/
def Waiting (doc : Text) (front : List (Located Token)) (n : Nat) (s : Scanner) : Prop :=
  s.LaidTo doc front n ∧ s.mark.index = n

/-- The scanner has read on from the place up to which the tokens reach. -/
def Passed (doc : Text) (front : List (Located Token)) (n : Nat) (s : Scanner) : Prop :=
  s.LaidTo doc front n ∧ n ≤ s.mark.index

/-- The scanner has read one character from that place on, and filler behind it. -/
def Behind (doc : Text) (front : List (Located Token)) (n : Nat) (s : Scanner) : Prop :=
  s.LaidTo doc front n ∧ n < s.mark.index ∧ Token.Filler (doc.between (n + 1) s.mark.index)

/-- The tokens reach up to the first character of a token that has been read. -/
def Holds (doc : Text) (front : List (Located Token)) (n : Nat) (t : Located Token)
    (s : Scanner) : Prop :=
  s.LaidTo doc front n ∧ n ≤ s.mark.index ∧
    ∀ stop, s.mark.index ≤ stop → Lexeme.Fits doc ⟨t, n, stop⟩

/-- A `:` has been read, and the token that starts its key is among those so far. -/
def Opens (doc : Text) (front : List (Located Token)) (n : Nat) (pending : PendingKey)
    (s : Scanner) : Prop :=
  (∃ ls, s.Laid doc front ls n ∧ s.taken ≤ pending.token ∧
    (ls.map Lexeme.first)[pending.token]? = some pending.mark.index ∧
    ∀ key ∈ s.possibleKeys, key.token ≤ pending.token) ∧
  n < s.mark.index ∧ Token.Filler (doc.between (n + 1) s.mark.index)

section Laid

variable {doc : Text} {front : List (Located Token)} {ls : List Lexeme} {l : Lexeme} {n k : Nat}
  {s s' : Scanner} {t : Located Token}

theorem Laid.along (h : s.Laid doc front ls n) (hs : s.Forgets s') : s'.Laid doc front ls n where
  tokens := by rw [hs.queue]; exact h.tokens
  taken := hs.taken.trans h.taken
  chain := h.chain
  fits := h.fits
  reach := h.reach
  place := by
    obtain ⟨k, hrest, hindex⟩ := hs.place
    rw [hrest, hindex, h.place, List.drop_drop]
  bound := by
    have := hs.length_le
    have := h.bound
    rw [hs.bound]
    omega
  keys key hkey := by
    rw [hs.taken]
    exact h.keys key (hs.keys.subset hkey)
  order := h.order.sublist hs.keys

/-- What starts in a list still starts there when the list gets longer. -/
theorem getElem?_append_of_some {α : Type} {u v : List α} {i : Nat} {a : α} (h : u[i]? = some a) :
    (u ++ v)[i]? = some a := by
  obtain ⟨hi, -⟩ := List.getElem?_eq_some_iff.mp h
  rw [List.getElem?_append_left hi]
  exact h

/-- A number is put in front of an equal one, and nothing changes up to there. -/
theorem getElem?_insert_of_le {α : Type} {u : List α} {i k : Nat} {a b : α} (hi : i ≤ k)
    (hk : u[k]? = some a) (h : u[i]? = some b) : (u.take k ++ a :: u.drop k)[i]? = some b := by
  obtain ⟨hlt, -⟩ := List.getElem?_eq_some_iff.mp hk
  have hlength : (u.take k).length = k := List.length_take_of_le (Nat.le_of_lt hlt)
  rcases Nat.lt_or_eq_of_le hi with hi | rfl
  · rw [List.getElem?_append_left (by omega), List.getElem?_take_of_lt hi]
    exact h
  · rw [List.getElem?_append_right (by omega), hlength, Nat.sub_self]
    exact hk.symm.trans h

/-- A token is put behind the others, at the place up to which they reach. -/
theorem Laid.push (h : s.Laid doc front ls n) (hfirst : l.first = n) (hfits : l.Fits doc) :
    (s.pushed l.token).Laid doc front (ls ++ [l]) l.stop where
  tokens := by
    show _ = front ++ (s.queue ++ [l.token])
    rw [List.map_append, h.tokens, List.append_assoc]
    rfl
  taken := h.taken
  chain := by
    refine h.chain.append (List.isChain_singleton l) fun x hx y hy => ?_
    obtain rfl : l = y := by simpa using hy
    obtain ⟨hle, hfiller⟩ := h.reach x hx
    exact ⟨hfirst ▸ hle, hfirst ▸ hfiller⟩
  fits x hx := by
    rcases List.mem_append.mp hx with hx | hx
    · exact h.fits x hx
    · rw [List.mem_singleton.mp hx]
      exact hfits
  reach x hx := by
    rw [List.getLast?_concat] at hx
    obtain rfl : l = x := by simpa using hx
    rw [Text.between_self]
    exact ⟨Nat.le_refl _, .nil⟩
  place := h.place
  bound := h.bound
  keys key hkey := by
    obtain ⟨htaken, hstart⟩ := h.keys key hkey
    refine ⟨htaken, ?_⟩
    rw [List.map_append, List.map_singleton, hfirst]
    exact getElem?_append_of_some hstart
  order := h.order

/-- Filler is stepped over when all possible keys have started. -/
theorem Laid.move (h : s.Laid doc front ls n) (hk : n ≤ k)
    (hfiller : Token.Filler (doc.between n k))
    (hstarted : ∀ key ∈ s.possibleKeys, key.token < ls.length) : s.Laid doc front ls k where
  tokens := h.tokens
  taken := h.taken
  chain := h.chain
  fits := h.fits
  reach x hx := by
    obtain ⟨hle, hfront⟩ := h.reach x hx
    refine ⟨hle.trans hk, ?_⟩
    rw [← Text.between_append doc hle hk]
    exact hfront.append hfiller
  place := h.place
  bound := h.bound
  keys key hkey := by
    obtain ⟨htaken, hstart⟩ := h.keys key hkey
    have hlt : key.token < (ls.map Lexeme.first).length := by
      rw [List.length_map]
      exact hstarted key hkey
    rw [List.getElem?_append_left hlt] at hstart
    exact ⟨htaken, getElem?_append_of_some hstart⟩
  order := h.order

theorem lt_length_of_first (h : (ls.map Lexeme.first)[k]? = some n) : k < ls.length := by
  obtain ⟨hlt, -⟩ := List.getElem?_eq_some_iff.mp h
  rwa [List.length_map] at hlt

/-- A token without characters is put in front of token number `k`, at the place where that one
starts. It takes its number, which is not smaller than that of any possible key. -/
theorem Laid.insert (h : s.Laid doc front ls n) (htaken : s.taken ≤ k)
    (hfirst : (ls.map Lexeme.first)[k]? = some l.first) (hempty : l.stop = l.first)
    (hfits : l.Fits doc) (hkeys : ∀ key ∈ s.possibleKeys, key.token ≤ k) :
    (s.inserted k l.token).Laid doc front (ls.take k ++ l :: ls.drop k) n where
  tokens := by
    have hle : front.length ≤ k := h.taken ▸ htaken
    show _ = front ++ (s.queue.take (k - s.taken) ++ l.token :: s.queue.drop (k - s.taken))
    rw [List.map_append, List.map_cons, List.map_take, List.map_drop, h.tokens, h.taken,
      List.take_append, List.drop_append, List.take_of_length_le hle, List.drop_of_length_le hle,
      List.nil_append, List.append_assoc]
  taken := h.taken
  chain := by
    have hchain := h.chain
    rw [← List.take_append_drop k ls] at hchain
    obtain ⟨hleft, hright, hjoin⟩ := List.isChain_append.mp hchain
    have hk := lt_length_of_first hfirst
    rw [List.getElem?_map] at hfirst
    have hnext : ∀ x ∈ (ls.drop k).head?, x.first = l.first := by
      intro x hx
      rw [List.head?_drop] at hx
      rw [hx] at hfirst
      exact Option.some.inj hfirst
    obtain ⟨next, hhead⟩ : ∃ x, (ls.drop k).head? = some x := by
      rw [List.head?_drop]
      exact ⟨ls[k], List.getElem?_eq_getElem hk⟩
    refine hleft.append (hright.cons fun x hx => ?_) fun x hx y hy => ?_
    · refine ⟨by rw [hempty, hnext x hx], ?_⟩
      rw [hempty, hnext x hx, Text.between_self]
      exact .nil
    · obtain rfl : l = y := by simpa using hy
      obtain ⟨hle, hfiller⟩ := hjoin x hx next hhead
      rw [hnext next hhead] at hle hfiller
      exact ⟨hle, hfiller⟩
  fits x hx := by
    rw [List.mem_append, List.mem_cons] at hx
    rcases hx with hx | rfl | hx
    · exact h.fits x (List.mem_of_mem_take hx)
    · exact hfits
    · exact h.fits x (List.mem_of_mem_drop hx)
  reach x hx := by
    have hk := lt_length_of_first hfirst
    have hdrop : ls.drop k ≠ [] := fun h => absurd (List.drop_eq_nil_iff.mp h) (by omega)
    refine h.reach x ?_
    rw [← List.take_append_drop k ls, List.getLast?_append_of_ne_nil _ hdrop]
    rwa [List.getLast?_append_of_ne_nil _ (List.cons_ne_nil _ _),
      List.getLast?_cons_of_ne_nil hdrop]
      at hx
  place := h.place
  bound := h.bound
  keys key hkey := by
    obtain ⟨hfront, hstart⟩ := h.keys key hkey
    refine ⟨hfront, getElem?_append_of_some ?_⟩
    have hle := hkeys key hkey
    have hk := lt_length_of_first hfirst
    rw [List.getElem?_append_left (by rw [List.length_map]; omega)] at hstart
    rw [List.map_append, List.map_cons, List.map_take, List.map_drop]
    exact getElem?_insert_of_le hle hfirst hstart
  order := h.order

/-! ### What stays as it is -/

/-- Filler that is stepped over stands in the text. -/
theorem Trails.between (h : s.Trails s') (hplace : s.rest = doc.drop s.mark.index) :
    s.mark.index ≤ s'.mark.index ∧ Token.Filler (doc.between s.mark.index s'.mark.index) := by
  obtain ⟨u, hu, hindex, hfiller⟩ := h.filler
  rw [hindex, Text.between_of_drop (hplace.symm.trans hu)]
  exact ⟨Nat.le_add_right _ _, hfiller⟩

theorem Forgets.index_le (h : s.Forgets s') : s.mark.index ≤ s'.mark.index := by
  obtain ⟨n, -, hindex⟩ := h.place
  omega

theorem LaidTo.along (h : s.LaidTo doc front n) (hs : s.Forgets s') : s'.LaidTo doc front n := by
  obtain ⟨ls, hls⟩ := h
  exact ⟨ls, hls.along hs⟩

theorem LaidTo.place (h : s.LaidTo doc front n) : s.rest = doc.drop s.mark.index := by
  obtain ⟨ls, hls⟩ := h
  exact hls.place

theorem LaidOut.along (h : s.LaidOut doc front) (hs : s.Trails s') : s'.LaidOut doc front := by
  obtain ⟨ls, hls, hstarted⟩ := h
  obtain ⟨hle, hfiller⟩ := hs.between hls.place
  have hstarted' : ∀ key ∈ s'.possibleKeys, key.token < ls.length :=
    fun key hkey => hstarted key (hs.keys.subset hkey)
  exact ⟨ls, (hls.along hs.forgets).move hle hfiller hstarted', hstarted'⟩

theorem LaidOut.laidTo (h : s.LaidOut doc front) : s.LaidTo doc front s.mark.index := by
  obtain ⟨ls, hls, -⟩ := h
  exact ⟨ls, hls⟩

theorem At.along (h : s.At doc front n) (hs : s.Stays s') : s'.At doc front n :=
  ⟨h.1.along hs.trails, hs.index.trans h.2⟩

theorem At.waiting (h : s.At doc front n) : s.Waiting doc front n := by
  obtain ⟨hlaid, rfl⟩ := h
  exact ⟨hlaid.laidTo, rfl⟩

theorem At.place (h : s.At doc front n) : s.rest = doc.drop n := by
  rw [← h.2]
  exact h.1.laidTo.place

theorem Waiting.along (h : s.Waiting doc front n) (hs : s.Stays s') : s'.Waiting doc front n :=
  ⟨h.1.along hs.trails.forgets, hs.index.trans h.2⟩

theorem Passed.along (h : s.Passed doc front n) (hs : s.Forgets s') : s'.Passed doc front n :=
  ⟨h.1.along hs, h.2.trans hs.index_le⟩

/-- Filler goes on behind a character. -/
theorem Trails.behind (hs : s.Trails s') (hplace : s.rest = doc.drop s.mark.index)
    (hlt : n < s.mark.index) (hfiller : Token.Filler (doc.between (n + 1) s.mark.index)) :
    n < s'.mark.index ∧ Token.Filler (doc.between (n + 1) s'.mark.index) := by
  obtain ⟨hle, hmore⟩ := hs.between hplace
  rw [← Text.between_append doc hlt hle]
  exact ⟨Nat.lt_of_lt_of_le hlt hle, hfiller.append hmore⟩

theorem Behind.along (h : s.Behind doc front n) (hs : s.Trails s') : s'.Behind doc front n :=
  ⟨h.1.along hs.forgets, hs.behind h.1.place h.2.1 h.2.2⟩

theorem Holds.along (h : s.Holds doc front n t) (hs : s.Forgets s') : s'.Holds doc front n t :=
  ⟨h.1.along hs, h.2.1.trans hs.index_le, fun stop hstop => h.2.2 stop (hs.index_le.trans hstop)⟩

theorem Opens.along {pending : PendingKey} (h : s.Opens doc front n pending) (hs : s.Trails s') :
    s'.Opens doc front n pending := by
  obtain ⟨⟨ls, hls, htaken, hstart, hkeys⟩, hlt, hfiller⟩ := h
  refine ⟨⟨ls, hls.along hs.forgets, ?_, hstart, fun key hkey => ?_⟩,
    hs.behind hls.place hlt hfiller⟩
  · rw [hs.taken]
    exact htaken
  · exact hkeys key (hs.keys.subset hkey)

/-! ### New tokens -/

/-- A token is put behind those that reach up to its first character. -/
theorem LaidTo.push (h : s.LaidTo doc front n) (hfits : Lexeme.Fits doc ⟨t, n, s.mark.index⟩) :
    (s.pushed t).LaidOut doc front := by
  obtain ⟨ls, hls⟩ := h
  refine ⟨_, hls.push (l := ⟨t, n, s.mark.index⟩) rfl hfits, fun key hkey => ?_⟩
  obtain ⟨hlt, -⟩ := List.getElem?_eq_some_iff.mp (hls.keys key hkey).2
  simpa using hlt

/-- A token without characters may be put behind the others wherever the scanner has got to. -/
theorem LaidTo.push_empty (h : s.LaidTo doc front n) (hfits : Lexeme.Fits doc ⟨t, n, n⟩) :
    (s.pushed t).LaidTo doc front n := by
  obtain ⟨ls, hls⟩ := h
  exact ⟨_, hls.push (l := ⟨t, n, n⟩) rfl hfits⟩

theorem At.push_empty (h : s.At doc front n) (hfits : Lexeme.Fits doc ⟨t, n, n⟩) :
    (s.pushed t).At doc front n := by
  obtain ⟨hlaid, rfl⟩ := h
  exact ⟨hlaid.laidTo.push hfits, rfl⟩

/-- What announces a key is put in front of the token that starts it. -/
theorem Opens.insert {pending : PendingKey} (h : s.Opens doc front n pending)
    (hfits : Lexeme.Fits doc ⟨t, pending.mark.index, pending.mark.index⟩) :
    (s.inserted pending.token t).Opens doc front n pending := by
  obtain ⟨⟨ls, hls, htaken, hstart, hkeys⟩, hfiller⟩ := h
  refine ⟨⟨_, hls.insert (l := ⟨t, _, _⟩) htaken hstart rfl hfits hkeys, htaken, ?_, hkeys⟩,
    hfiller⟩
  rw [List.map_append, List.map_cons, List.map_take, List.map_drop]
  exact getElem?_insert_of_le (Nat.le_refl _) hstart hstart

end Laid

end Scanner

namespace Scan

open Token

-- an instance is as large as the function that it is about
set_option synthInstance.maxSize 1000

section Layout

variable {α : Type} {doc : Text} {front : List (Located Token)} {n : Nat} {t : Located Token}

instance (doc : Text) (front : List (Located Token)) :
    Stable Scanner.Trails (Scanner.LaidOut doc front) :=
  ⟨Scanner.LaidOut.along⟩

instance (doc : Text) (front : List (Located Token)) (n : Nat) :
    Stable Scanner.Stays (Scanner.At doc front n) :=
  ⟨Scanner.At.along⟩

instance (doc : Text) (front : List (Located Token)) (n : Nat) :
    Stable Scanner.Stays (Scanner.Waiting doc front n) :=
  ⟨Scanner.Waiting.along⟩

instance (doc : Text) (front : List (Located Token)) (n : Nat) :
    Stable Scanner.Forgets (Scanner.Passed doc front n) :=
  ⟨Scanner.Passed.along⟩

instance (doc : Text) (front : List (Located Token)) (n : Nat) :
    Stable Scanner.Trails (Scanner.Behind doc front n) :=
  ⟨Scanner.Behind.along⟩

instance (doc : Text) (front : List (Located Token)) (n : Nat) (t : Located Token) :
    Stable Scanner.Forgets (Scanner.Holds doc front n t) :=
  ⟨Scanner.Holds.along⟩

instance (doc : Text) (front : List (Located Token)) (n : Nat) (pending : PendingKey) :
    Stable Scanner.Trails (Scanner.Opens doc front n pending) :=
  ⟨Scanner.Opens.along⟩

/-! ## Tokens at their marks -/

/-- Whether a token is marked at its first character, whatever that is. -/
def isMarked : Token → Bool
  | .blockEntry | .key | .value | .scalar _ _ => false
  | _ => true

theorem fits_of_isMarked {stop : Nat} (hle : n ≤ stop) (hitem : isMarked t.item = true)
    (hstart : t.span.start.index = n) : Lexeme.Fits doc ⟨t, n, stop⟩ := by
  obtain ⟨span, item⟩ := t
  refine ⟨hle, ?_⟩
  cases item with
  | blockEntry | key | value | scalar => cases hitem
  | _ => exact hstart

/-- A key that is announced has no characters, as they are those of the token behind it. -/
theorem fits_key (mark : Mark) :
    Lexeme.Fits doc ⟨⟨Span.empty mark, .key⟩, mark.index, mark.index⟩ :=
  ⟨Nat.le_refl _, .inl rfl, rfl⟩

/-- An indicator that has been read with the filler behind it. -/
theorem indicates {c : Char} {s : Scanner} (hc : doc[n]? = some c) (hs : s.Behind doc front n)
    (t : Located Token) : Lexeme.Indicates doc c ⟨t, n, s.mark.index⟩ :=
  ⟨hs.2.1, hc, hs.2.2⟩

theorem push_passed_keeps {span : Span} {token : Token} (hitem : isMarked token = true)
    (hstart : span.start.index = n) :
    Keeps (Scanner.Passed doc front n) (Scanner.LaidOut doc front) (push span token) := by
  rintro s a s' ⟨hlaid, hle⟩ h
  cases h
  exact hlaid.push (fits_of_isMarked hle hitem hstart)

theorem push_empty_keeps {mark : Mark} {token : Token} (hitem : isMarked token = true)
    (hstart : mark.index = n) :
    Keeps (Scanner.Behind doc front n) (Scanner.Behind doc front n)
      (push (Span.empty mark) token) := by
  rintro s a s' ⟨hlaid, hfiller⟩ h
  cases h
  exact ⟨hlaid.push_empty (fits_of_isMarked (Nat.le_refl n) hitem hstart), hfiller⟩

theorem push_empty_keeps_at {mark : Mark} {token : Token} (hitem : isMarked token = true)
    (hstart : mark.index = n) :
    Keeps (Scanner.At doc front n) (Scanner.At doc front n) (push (Span.empty mark) token) := by
  intro s a s' hs h
  cases h
  exact hs.push_empty (fits_of_isMarked (Nat.le_refl n) hitem hstart)

theorem enqueue_keeps_holds :
    Keeps (Scanner.Holds doc front n t) (Scanner.LaidOut doc front) (enqueue t) := by
  rintro s a s' ⟨hlaid, -, hfits⟩ h
  cases h
  exact hlaid.push (hfits _ (Nat.le_refl _))

theorem unrollIndent_keeps_at (column : Int) :
    Keeps (Scanner.At doc front n) (Scanner.At doc front n) (unrollIndent column) :=
  unrollIndent_keeps_of (fun _ _ h => h.along ⟨⟨rfl, rfl, .refl _, rfl⟩, rfl, rfl⟩)
    (fun h => h.push_empty (fits_of_isMarked (Nat.le_refl n) rfl h.2)) column

theorem endPair_keeps_at : Keeps (Scanner.At doc front n) (Scanner.At doc front n) endPair :=
  endPair_keeps_of (fun _ _ h => h.along ⟨⟨rfl, rfl, .refl _, rfl⟩, rfl, rfl⟩)
    fun h => h.push_empty (fits_of_isMarked (Nat.le_refl n) rfl h.2)

/-- A block is announced at the place up to which the tokens reach. -/
theorem rollIndent_keeps_at {column : Nat} {token : Token} {mark : Mark}
    (hitem : isMarked token = true) (hstart : mark.index = n) :
    Keeps (Scanner.At doc front n) (Scanner.At doc front n) (rollIndent column none token mark) :=
  rollIndent_keeps_of (fun _ _ h => h.along ⟨⟨rfl, rfl, .refl _, rfl⟩, rfl, rfl⟩) nofun
    fun _ => push_empty_keeps_at hitem hstart

theorem rollIndent_keeps_behind {column : Nat} {token : Token} {mark : Mark}
    (hitem : isMarked token = true) (hstart : mark.index = n) :
    Keeps (Scanner.Behind doc front n) (Scanner.Behind doc front n)
      (rollIndent column none token mark) :=
  rollIndent_keeps_of
    (fun _ _ h => h.along (Scanner.Stays.trails ⟨⟨rfl, rfl, .refl _, rfl⟩, rfl, rfl⟩)) nofun
    fun _ => push_empty_keeps hitem hstart

/-! ## Reading on -/

theorem skipContent_keeps_behind :
    Keeps (Scanner.Waiting doc front n) (Scanner.Behind doc front n) (skipContent 1) := by
  rintro s a s' ⟨hlaid, rfl⟩ h
  have hlaid' := hlaid.along (PassesOver.passes h).forgets
  cases h
  refine ⟨hlaid', Nat.lt_succ_self _, ?_⟩
  show Filler (doc.between (s.mark.index + 1) (s.mark.index + 1))
  rw [Text.between_self]
  exact .nil

/-- The token that comes next may start a key. -/
theorem savePendingKey_lays :
    Keeps (Scanner.At doc front n) (Scanner.Waiting doc front n) savePendingKey := by
  rintro s a s' hs h
  cases h
  dsimp only
  split
  · obtain ⟨⟨ls, hls, hstarted⟩, rfl⟩ := hs
    have hnumber : s.taken + s.queue.length = ls.length := by
      rw [hls.taken, ← List.length_append, ← hls.tokens, List.length_map]
    have hsub : ((s.keys.drop 1).filter (·.possible)).Sublist s.possibleKeys :=
      (List.drop_sublist 1 s.keys).filter _
    refine ⟨⟨ls, hls.tokens, hls.taken, hls.chain, hls.fits, hls.reach, hls.place, hls.bound, ?_,
      ?_⟩,
      rfl⟩
    · intro key hkey
      rcases List.mem_cons.mp (show key ∈ _ :: (s.keys.drop 1).filter (·.possible) from hkey)
        with rfl | hkey
      · refine ⟨Nat.le_add_right _ _, ?_⟩
        show (ls.map Lexeme.first ++ [s.mark.index])[s.taken + s.queue.length]? = _
        rw [hnumber, List.getElem?_append_right (by simp), List.length_map, Nat.sub_self]
        rfl
      · exact hls.keys key (hsub.subset hkey)
    · refine List.pairwise_cons.mpr ⟨fun key hkey => ?_, hls.order.sublist hsub⟩
      show key.token < s.taken + s.queue.length
      rw [hnumber]
      exact hstarted key (hsub.subset hkey)
  · exact hs.waiting

theorem startsKey_lays :
    Keeps (Scanner.At doc front n) (Scanner.Waiting doc front n) startsKey :=
  savePendingKey_lays.bind fun _ => keeps_of_takes inferInstance

/-- A token is scanned from the place on up to which the tokens reach. -/
theorem keeps_scan {x : Scan (Located Token)} [hx : Forgets x] {β : Type} {J : Scanner → Prop}
    {f : Located Token → Scan β}
    (hfits : ∀ {s t s'}, s.rest = doc.drop n → s.mark.index = n → s.rest.length < s.bound →
      x s = .ok (t, s') → ∀ stop, s'.mark.index ≤ stop → Lexeme.Fits doc ⟨t, n, stop⟩)
    (hf : ∀ t, Keeps (Scanner.Holds doc front n t) J (f t)) :
    Keeps (Scanner.Waiting doc front n) J (x >>= f) := by
  rintro s b s' ⟨hlaid, hindex⟩ h
  obtain ⟨t, s₁, hscan, h⟩ := stateful_bind_eq_ok.mp h
  have hcourse := hx.course hscan
  refine hf t ⟨hlaid.along hcourse, hindex ▸ hcourse.index_le, ?_⟩ h
  obtain ⟨ls, hls⟩ := hlaid
  exact hfits (hindex ▸ hls.place) hindex hls.bound hscan

/-! ## One token after the other -/

theorem fetchStreamEnd_lays :
    Keeps (Scanner.At doc front n) (Scanner.LaidOut doc front) fetchStreamEnd := by
  have hline : Stays (modify fun s =>
      if s.mark.column = 0 then s
      else { s with mark := { s.mark with line := s.mark.line + 1, column := 0 } } :
      Scan Unit) := by
    refine stays_note ?_ ?_ ?_ ?_ ?_ ?_
    all_goals
      intro s
      split <;> rfl
  have hkeys : Stays (modify fun s =>
      { s with keys := s.keys.map fun key => { key with possible := false } } : Scan Unit) :=
    takes_modify fun s => stays_of_keys (filter_map_sublist (p := fun _ => true) s.keys)
  refine keeps_then fun _ => keeps_then fun _ => keeps_check keeps_fail fun _ => keeps_then fun _ =>
    .bind (unrollIndent_keeps_at _) fun _ => keeps_then fun _ => keeps_mark fun s hs => ?_
  intro s₁ a s' hs₁ h
  exact (push_empty_keeps_at rfl hs.2 hs₁ h).1

theorem fetchDirective_lays :
    Keeps (Scanner.At doc front n) (Scanner.LaidOut doc front) fetchDirective := by
  refine .bind (unrollIndent_keeps_at _) fun _ => keeps_then fun _ => keeps_then fun _ =>
    (keeps_scan (fun {s t s'} _ hindex _ hscan stop hstop => ?_)
      fun _ => enqueue_keeps_holds).weaken
      Scanner.At.waiting
  obtain ⟨hstart, hitem⟩ := scanDirective_eq hscan
  have hle : n ≤ stop := (hindex ▸ (PassesOver.passes hscan).forgets.index_le).trans hstop
  refine fits_of_isMarked hle ?_ (by rw [hstart, hindex])
  cases ht : t.item <;> rw [ht] at hitem <;> first | rfl | cases hitem

theorem fetchDocumentMarker_lays {token : Token} (hitem : isMarked token = true) :
    Keeps (Scanner.At doc front n) (Scanner.LaidOut doc front) (fetchDocumentMarker token) := by
  refine .bind (unrollIndent_keeps_at _) fun _ => keeps_then fun _ => keeps_then fun _ =>
    keeps_mark fun s hs => .weaken (J := Scanner.Passed doc front n) ?_ fun h =>
      ⟨h.waiting.1, Nat.le_of_eq h.2.symm⟩
  exact keeps_then fun _ => keeps_then fun _ => push_passed_keeps hitem hs.2

/-- An opening bracket may be a key. -/
theorem fetchFlowStart_lays (isMapping : Bool) :
    Keeps (Scanner.At doc front n) (Scanner.LaidOut doc front) (fetchFlowStart isMapping) := by
  have hstart : Stays (modify fun s =>
      if isMapping then { s with flowMappingStarted := true }
      else { s with pairs := false :: s.pairs } : Scan Unit) := by
    refine stays_note ?_ ?_ ?_ ?_ ?_ ?_
    all_goals
      intro s
      cases isMapping <;> rfl
  refine .bind savePendingKey_lays fun _ => keeps_mark fun s hs =>
    .weaken (J := Scanner.Passed doc front n) ?_ fun h => ⟨h.1, Nat.le_of_eq h.2.symm⟩
  refine keeps_then fun _ => keeps_then fun _ => keeps_then fun _ => keeps_then fun _ =>
    keeps_then fun _ => keeps_then fun _ => keeps_then fun _ => push_passed_keeps ?_ hs.2
  cases isMapping <;> rfl

theorem fetchFlowEnd_lays (isMapping : Bool) :
    Keeps (Scanner.At doc front n) (Scanner.LaidOut doc front) (fetchFlowEnd isMapping) := by
  have hpairs : Stays (modify fun s => { s with pairs := s.pairs.drop 1 } : Scan Unit) :=
    stays_note (fun _ => rfl) (fun _ => rfl) (fun _ => rfl) (fun _ => rfl) (fun _ => rfl)
      fun _ => rfl
  have hplace : Stays (modify fun s =>
      if 0 < s.flowLevel then { s with adjacentValueAt := s.mark.index } else s : Scan Unit) := by
    refine stays_note ?_ ?_ ?_ ?_ ?_ ?_
    all_goals
      intro s
      split <;> rfl
  have hclose : Keeps (Scanner.At doc front n) (Scanner.LaidOut doc front) (do
      let start ← mark
      skipContent 1
      let _ ← skipToLineEnd true
      modify fun s => if 0 < s.flowLevel then { s with adjacentValueAt := s.mark.index } else s
      push ⟨start, ← mark⟩ (if isMapping then .flowMappingEnd else .flowSequenceEnd)) := by
    refine keeps_mark fun s hs => .weaken (J := Scanner.Passed doc front n) ?_ fun h =>
      ⟨h.waiting.1, Nat.le_of_eq h.2.symm⟩
    refine keeps_then fun _ => keeps_then fun _ => keeps_then fun _ => keeps_then fun _ =>
      push_passed_keeps ?_ hs.2
    cases isMapping <;> rfl
  exact keeps_then fun _ => keeps_then fun _ => keeps_then fun _ => keeps_ite
    (fun _ => .bind endPair_keeps_at fun _ => keeps_then fun _ => hclose) fun _ => hclose

theorem fetchFlowEntry_lays :
    Keeps (Scanner.At doc front n) (Scanner.LaidOut doc front) fetchFlowEntry := by
  refine keeps_then fun _ => keeps_then fun _ => .bind endPair_keeps_at fun _ =>
    keeps_mark fun s hs => .weaken (J := Scanner.Passed doc front n) ?_ fun h =>
      ⟨h.waiting.1, Nat.le_of_eq h.2.symm⟩
  exact keeps_then fun _ => keeps_then fun _ => keeps_then fun _ => push_passed_keeps rfl hs.2

/-- The token of an item is marked behind the filler that follows its dash. -/
theorem dash_lays {start : Mark} (hc : doc[n]? = some '-') (hstart : start.index = n) :
    Keeps (Scanner.At doc front n) (Scanner.LaidOut doc front) (dash start) := by
  refine .bind (skipContent_keeps_behind.weaken Scanner.At.waiting) fun _ =>
    .bind (rollIndent_keeps_behind rfl hstart) fun _ => keeps_then fun _ => keeps_then fun _ =>
    keeps_then fun _ => keeps_check keeps_fail fun _ => keeps_then fun _ => keeps_then fun _ =>
    keeps_then fun _ => keeps_check (keeps_of_takes inferInstance) fun _ => keeps_then fun _ =>
    keeps_then fun _ s₁ a s' hs₁ h => ?_
  cases h
  exact hs₁.1.push ⟨Nat.le_of_lt hs₁.2.1, indicates hc hs₁ _, rfl⟩

theorem fetchBlockEntry_lays (hc : doc[n]? = some '-') :
    Keeps (Scanner.At doc front n) (Scanner.LaidOut doc front) fetchBlockEntry := by
  refine keeps_get fun s hs => keeps_check keeps_fail fun _ => keeps_check keeps_fail fun _ => ?_
  split
  · exact keeps_check keeps_failAt fun _ => dash_lays hc hs.2
  · exact dash_lays hc hs.2

/-- The mark of a key comes with the filler behind it. -/
theorem keyMark_lays {start : Mark} (hc : doc[n]? = some '?') (hstart : start.index = n) :
    Keeps (Scanner.At doc front n) (Scanner.LaidOut doc front) (keyMark start) := by
  refine .bind (skipContent_keeps_behind.weaken Scanner.At.waiting) fun _ => keeps_then fun _ =>
    keeps_then fun _ => keeps_then fun _ => keeps_check keeps_fail fun _ =>
    keeps_then fun _ s₁ a s' hs₁ h => ?_
  cases h
  exact hs₁.1.push ⟨Nat.le_of_lt hs₁.2.1, .inr (indicates hc hs₁ _), hstart⟩

theorem fetchKey_lays (hc : doc[n]? = some '?') :
    Keeps (Scanner.At doc front n) (Scanner.LaidOut doc front) fetchKey := by
  have hmark : Stays (modify fun s => { s with flowMappingStarted := true } : Scan Unit) :=
    stays_note (fun _ => rfl) (fun _ => rfl) (fun _ => rfl) (fun _ => rfl) (fun _ => rfl)
      fun _ => rfl
  refine keeps_mark fun s hs => keeps_then fun _ => keeps_ite (fun _ => ?_) fun _ => ?_
  · refine keeps_then fun _ => keeps_then fun _ => ?_
    exact keeps_ite (fun _ => keeps_then fun _ => keyMark_lays hc hs.2)
      fun _ => keeps_then fun _ => keyMark_lays hc hs.2
  · refine keeps_then fun _ => keeps_check keeps_fail fun _ =>
      .bind (rollIndent_keeps_at rfl hs.2) fun _ => keeps_then fun _ => ?_
    exact keeps_ite (fun _ => keeps_then fun _ => keyMark_lays hc hs.2)
      fun _ => keeps_then fun _ => keyMark_lays hc hs.2

theorem push_value_keeps {start : Mark} (hc : doc[n]? = some ':') (hstart : start.index = n) :
    Keeps (Scanner.Behind doc front n) (Scanner.LaidOut doc front)
      (push (Span.empty start) .value) := by
  intro s a s' hs h
  cases h
  exact hs.1.push ⟨Nat.le_of_lt hs.2.1, indicates hc hs _, hstart⟩

theorem insertAt_keeps_opens {pending : PendingKey} {token : Token}
    (hfits : Lexeme.Fits doc
      ⟨⟨Span.empty pending.mark, token⟩, pending.mark.index, pending.mark.index⟩) :
    Keeps (Scanner.Opens doc front n pending) (Scanner.Opens doc front n pending)
      (insertAt pending.token pending.mark token) := by
  intro s a s' hs h
  cases h
  exact hs.insert hfits

/-- The tokens that announce a key are put in front of the token that starts it. -/
theorem valueOfPending_lays {isPair : Bool} {pending : PendingKey} {start : Mark}
    (hc : doc[n]? = some ':') (hstart : start.index = n) :
    Keeps (Scanner.Opens doc front n pending) (Scanner.LaidOut doc front)
      (valueOfPending isPair pending start) := by
  have hkeys : Stays (modify fun s =>
      { s with keys := { pending with possible := false } :: s.keys.drop 1 } : Scan Unit) :=
    takes_modify fun s => stays_of_keys (by
      rw [List.filter_cons_of_neg (by simp)]
      exact (List.drop_sublist 1 s.keys).filter _)
  have hempty : ∀ {token : Token}, isMarked token = true → Lexeme.Fits doc
      ⟨⟨Span.empty pending.mark, token⟩, pending.mark.index, pending.mark.index⟩ :=
    fun h => fits_of_isMarked (Nat.le_refl _) h rfl
  have hroll : Keeps (Scanner.Opens doc front n pending) (Scanner.LaidOut doc front) (do
      rollIndent pending.mark.column (some pending.token) .blockMappingStart pending.mark
      rollProvisional
      modify fun s => { s with keys := { pending with possible := false } :: s.keys.drop 1 }
      forbidKey
      push (Span.empty start) .value) := by
    refine .bind (rollIndent_keeps_of
      (fun _ _ h => h.along (Scanner.Stays.trails ⟨⟨rfl, rfl, .refl _, rfl⟩, rfl, rfl⟩))
      (fun _ h => Option.some.inj h ▸ insertAt_keeps_opens (hempty rfl)) nofun) fun _ =>
      keeps_then fun _ => keeps_then fun _ =>
      keeps_then fun _ => (push_value_keeps hc hstart).weaken fun h => ?_
    obtain ⟨⟨ls, hls, -⟩, hfiller⟩ := h
    exact ⟨⟨ls, hls⟩, hfiller⟩
  refine .bind (insertAt_keeps_opens (fits_key pending.mark)) fun _ => keeps_ite (fun _ => ?_)
    fun _ => hroll
  exact keeps_check keeps_failAt fun _ => .bind (insertAt_keeps_opens (hempty rfl)) fun _ => hroll

/-- A `:` without a key stands alone. -/
theorem valueOfNone_lays {isPair : Bool} {s : Scanner} (hc : doc[n]? = some ':')
    (hs : s.mark.index = n) :
    Keeps (Scanner.Behind doc front n) (Scanner.LaidOut doc front) (valueOfNone isPair s) := by
  have hvalue : Keeps (Scanner.Behind doc front n) (Scanner.LaidOut doc front) (do
      rollProvisional
      if s.flowLevel = 0 then allowKey else forbidKey
      push (Span.empty s.mark) .value) :=
    keeps_then fun _ => keeps_ite (fun _ => keeps_then fun _ => push_value_keeps hc hs)
      fun _ => keeps_then fun _ => push_value_keeps hc hs
  refine keeps_check (push_empty_keeps rfl hs) fun _ => keeps_ite (fun _ => ?_) fun _ => hvalue
  exact keeps_check keeps_failAt fun _ => .bind (rollIndent_keeps_behind rfl hs) fun _ => hvalue

/-- A possible key has started, and with it the innermost one that the `:` in front of the scanner
can end. -/
theorem opens_of_at {s s' : Scanner} (hs : s.At doc front n)
    (hpossible : (s.keys.headD PendingKey.none).possible = true) (hcourse : s.Forgets s')
    (hlt : n < s'.mark.index) (hfiller : Filler (doc.between (n + 1) s'.mark.index)) :
    s'.Opens doc front n (s.keys.headD PendingKey.none) := by
  obtain ⟨⟨ls, hls, hstarted⟩, rfl⟩ := hs
  cases hkeys : s.keys with
  | nil =>
      rw [hkeys] at hpossible
      cases hpossible
  | cons pending outer =>
      rw [hkeys] at hpossible
      have hpending : s.possibleKeys = pending :: outer.filter (·.possible) := by
        rw [Scanner.possibleKeys, hkeys, List.filter_cons_of_pos (by exact hpossible)]
      have hmem : pending ∈ s.possibleKeys := hpending ▸ List.mem_cons_self
      obtain ⟨htaken, hstart⟩ := hls.keys pending hmem
      rw [List.getElem?_append_left
        (by rw [List.length_map]; exact hstarted pending hmem)] at hstart
      refine ⟨⟨ls, hls.along hcourse, hcourse.taken ▸ htaken, hstart, fun key hkey => ?_⟩, hlt,
        hfiller⟩
      have hkey := hcourse.keys.subset hkey
      have horder := hls.order
      rw [hpending] at hkey horder
      rcases List.mem_cons.mp hkey with rfl | hkey
      · exact Nat.le_refl _
      · exact Nat.le_of_lt ((List.pairwise_cons.mp horder).1 key hkey)

/-- The scanner has read one character and filler since it was in the given state. -/
def Since (doc : Text) (front : List (Located Token)) (n : Nat) (s s' : Scanner) : Prop :=
  s.Forgets s' ∧ s'.Behind doc front n

instance (doc : Text) (front : List (Located Token)) (n : Nat) (s : Scanner) :
    Stable Scanner.Trails (Since doc front n s) :=
  ⟨fun h hs => ⟨h.1.trans hs.forgets, h.2.along hs⟩⟩

theorem fetchValue_lays (hc : doc[n]? = some ':') :
    Keeps (Scanner.At doc front n) (Scanner.LaidOut doc front) fetchValue := by
  intro s a s' hs h
  obtain ⟨_, _, hget, h⟩ := stateful_bind_eq_ok.mp h
  cases hget
  have hvalue : ∀ isPair : Bool, Keeps (Since doc front n s) (Scanner.LaidOut doc front)
      (value isPair s) := fun isPair =>
    keeps_ite
      (fun hpossible => (valueOfPending_lays hc hs.2).weaken fun h =>
        opens_of_at hs hpossible h.1 h.2.2.1 h.2.2.2)
      fun _ => (valueOfNone_lays hc hs.2).weaken And.right
  have hpair : Stays (modify fun s => { s with pairs := true :: s.pairs.drop 1 } : Scan Unit) :=
    stays_note (fun _ => rfl) (fun _ => rfl) (fun _ => rfl) (fun _ => rfl) (fun _ => rfl)
      fun _ => rfl
  have hskip : Keeps (fun s' => s.Forgets s' ∧ s'.Waiting doc front n) (Since doc front n s)
      (skipContent 1) := fun s₁ a s' hs₁ h =>
    ⟨hs₁.1.trans (PassesOver.passes h).forgets, skipContent_keeps_behind hs₁.2 h⟩
  refine keeps_check (I := fun s' => s.Forgets s' ∧ s'.Waiting doc front n)
    (fun s₁ a s' hs₁ h => ?_) (fun _ => hskip.bind fun _ => keeps_then fun c => ?_)
    ⟨.refl s, hs.waiting⟩ h
  · have hcourse := hpair.course h
    exact ⟨hs₁.1.trans hcourse.trails.forgets, hs₁.2.along hcourse⟩
  · refine keeps_ite (fun _ => ?_) fun _ => hvalue _
    exact keeps_then fun _ => keeps_then fun _ => keeps_check keeps_fail fun _ => hvalue _

theorem fetchFlowValue_lays (hc : doc[n]? = some ':') :
    Keeps (Scanner.At doc front n) (Scanner.LaidOut doc front) fetchFlowValue :=
  keeps_get fun _ _ => keeps_then fun _ => keeps_check keeps_fail fun _ => fetchValue_lays hc

/-! ### What is scanned at one go -/

instance (style : ScalarStyle) : PassesOver (scanScalar style) := by
  cases style <;> (unfold scanScalar; infer_instance)

theorem scanScalar_gives (style : ScalarStyle) : Gives (IsScalar style) (scanScalar style) := by
  cases style
  · exact scanPlain_gives
  · exact scanQuoted_gives true
  · exact scanQuoted_gives false
  · exact scanBlock_gives false
  · exact scanBlock_gives true

/-- A scalar is read from its first character on. -/
theorem keeps_scanScalar {style : ScalarStyle} {β : Type} {J : Scanner → Prop}
    {f : Located Token → Scan β} (hstarts : StartsScalar (doc.drop n) style)
    (hf : ∀ t, Keeps (Scanner.Holds doc front n t) J (f t)) :
    Keeps (Scanner.Waiting doc front n) J (scanScalar style >>= f) := by
  refine keeps_scan (fun {s t s'} hrest hindex hbound hscan stop hstop => ?_) hf
  obtain ⟨text, hitem⟩ := (scanScalar_gives style).gives hscan
  refine ⟨(hindex ▸ (PassesOver.passes hscan).forgets.index_le).trans hstop, ?_⟩
  rw [Lexeme.Written, hitem]
  exact ⟨hstarts, s, s', hrest, hindex, hbound, hscan, hstop⟩

theorem fetchPlain_lays (hstarts : StartsScalar (doc.drop n) .plain) :
    Keeps (Scanner.At doc front n) (Scanner.LaidOut doc front) fetchPlain :=
  startsKey_lays.bind fun _ => keeps_scanScalar hstarts fun _ => enqueue_keeps_holds

theorem fetchQuoted_lays {single : Bool}
    (hstarts : StartsScalar (doc.drop n) (if single then .singleQuoted else .doubleQuoted)) :
    Keeps (Scanner.At doc front n) (Scanner.LaidOut doc front) (fetchQuoted single) := by
  have hplace : Stays (modify fun s => { s with adjacentValueAt := s.mark.index } : Scan Unit) :=
    stays_note (fun _ => rfl) (fun _ => rfl) (fun _ => rfl) (fun _ => rfl) (fun _ => rfl)
      fun _ => rfl
  have hlast : ∀ token, Keeps (Scanner.Holds doc front n token) (Scanner.LaidOut doc front) (do
      skipToToken (← fuel)
      modify fun s => { s with adjacentValueAt := s.mark.index }
      enqueue token) := fun token =>
    keeps_then fun _ => keeps_then fun _ => keeps_then fun _ => enqueue_keeps_holds
  refine startsKey_lays.bind fun _ => ?_
  cases single
  · exact keeps_scanScalar hstarts hlast
  · exact keeps_scanScalar hstarts hlast

theorem fetchBlockScalar_lays {folded : Bool}
    (hstarts : StartsScalar (doc.drop n) (if folded then .folded else .literal)) :
    Keeps (Scanner.At doc front n) (Scanner.LaidOut doc front) (fetchBlockScalar folded) := by
  refine savePendingKey_lays.bind fun _ => keeps_then fun _ => ?_
  cases folded
  · exact keeps_scanScalar hstarts fun _ => enqueue_keeps_holds
  · exact keeps_scanScalar hstarts fun _ => enqueue_keeps_holds

/-- What starts with its mark is read behind it. -/
theorem keeps_scan_marked {x : Scan (Located Token)} [hcourse : Forgets x]
    (hx : ∀ {s t s'}, x s = .ok (t, s') → t.span.start = s.mark ∧ isMarked t.item = true) :
    Keeps (Scanner.Waiting doc front n) (Scanner.LaidOut doc front) (x >>= enqueue) := by
  refine keeps_scan (fun {s t s'} _ hindex _ hscan stop hstop => ?_) fun _ => enqueue_keeps_holds
  obtain ⟨hstart, hitem⟩ := hx hscan
  exact fits_of_isMarked ((hindex ▸ (hcourse.course hscan).index_le).trans hstop) hitem
    (by rw [hstart, hindex])

theorem fetchAnchor_lays (isAlias : Bool) :
    Keeps (Scanner.At doc front n) (Scanner.LaidOut doc front) (fetchAnchor isAlias) := by
  refine startsKey_lays.bind fun _ => keeps_scan_marked fun hscan => ?_
  obtain ⟨-, hstart, hitem⟩ := scanAnchor_eq hscan
  rw [hitem]
  exact ⟨hstart, by cases isAlias <;> rfl⟩

theorem fetchTag_lays : Keeps (Scanner.At doc front n) (Scanner.LaidOut doc front) fetchTag := by
  refine startsKey_lays.bind fun _ => keeps_scan_marked fun hscan => ?_
  obtain ⟨hstart, handle, rest, hitem⟩ := scanTag_eq hscan
  rw [hitem]
  exact ⟨hstart, rfl⟩

/-! ## The loop -/

theorem fetchByStart_lays (hblank : isSpaceOrBreak ((doc.drop n).headD '\x00') = false) :
    Keeps (Scanner.At doc front n) (Scanner.LaidOut doc front)
      (fetchByStart ((doc.drop n).headD '\x00') ((doc.drop n).getD 1 '\x00')) := by
  have hchar : ∀ {d : Char}, (doc.drop n).headD '\x00' = d → d ≠ '\x00' → doc[n]? = some d := by
    intro d h hd
    rw [← List.head?_drop]
    cases hrest : doc.drop n with
    | nil =>
        rw [hrest] at h
        exact absurd h.symm hd
    | cons c rest =>
        rw [hrest] at h
        exact congrArg some h
  generalize hc : (doc.drop n).headD '\x00' = c at hblank hchar ⊢
  refine keeps_look fun s => ?_
  refine keeps_ite (fun _ => fetchFlowStart_lays false) fun h₁ => ?_
  refine keeps_ite (fun _ => fetchFlowStart_lays true) fun h₂ => ?_
  refine keeps_ite (fun _ => fetchFlowEnd_lays false) fun h₃ => ?_
  refine keeps_ite (fun _ => fetchFlowEnd_lays true) fun h₄ => ?_
  refine keeps_ite (fun _ => fetchFlowEntry_lays) fun h₅ => ?_
  refine keeps_ite (fun h => fetchBlockEntry_lays (hchar h.1 (by decide))) fun h₆ => ?_
  refine keeps_ite (fun h => fetchKey_lays (hchar h.1 (by decide))) fun h₇ => ?_
  refine keeps_ite (fun h => fetchValue_lays (hchar h.1 (by decide))) fun h₈ => ?_
  refine keeps_ite (fun h => fetchFlowValue_lays (hchar h.1 (by decide))) fun _ => ?_
  refine keeps_ite (fun _ => fetchAnchor_lays true) fun h₉ => ?_
  refine keeps_ite (fun _ => fetchAnchor_lays false) fun h₁₀ => ?_
  refine keeps_ite (fun _ => fetchTag_lays) fun h₁₁ => ?_
  refine keeps_ite (fun h => fetchBlockScalar_lays (hc.trans h.1)) fun _ => ?_
  refine keeps_ite (fun h => fetchBlockScalar_lays (hc.trans h.1)) fun _ => ?_
  refine keeps_ite (fun h => fetchQuoted_lays (hc.trans h)) fun h₁₂ => ?_
  refine keeps_ite (fun h => fetchQuoted_lays (hc.trans h)) fun h₁₃ => ?_
  refine keeps_ite (fun _ => keeps_fail) fun h₁₄ => fetchPlain_lays ?_
  have hreserved : isReserved c = false := by
    simp only [not_or] at h₁₄
    simp [isReserved, isFlow, h₁, h₂, h₃, h₄, h₅, h₉, h₁₀, h₁₁, h₁₂, h₁₃, h₁₄]
  refine ⟨by rwa [hc], by rwa [hc], fun hindicator => ?_⟩
  rw [hc] at hindicator
  simp only [not_and, Bool.not_eq_true] at h₆ h₇ h₈
  rw [Extent.isIndicator, Bool.or_eq_true, Bool.or_eq_true, beq_iff_eq, beq_iff_eq, beq_iff_eq]
    at hindicator
  rcases hindicator with (h | h) | h
  · exact h₈ h
  · exact h₆ h
  · exact h₇ h

theorem keeps_at_peek {β : Type} {J : Scanner → Prop} {f : Char → Scan β}
    (hf : Keeps (Scanner.At doc front n) J (f ((doc.drop n).headD '\x00'))) :
    Keeps (Scanner.At doc front n) J (peek >>= f) := by
  intro s b s' hs h
  obtain ⟨_, _, hpeek, h⟩ := stateful_bind_eq_ok.mp h
  cases hpeek
  rw [hs.place] at h
  exact hf hs h

theorem keeps_at_peekAt {β : Type} {J : Scanner → Prop} {f : Char → Scan β} {i : Nat}
    (hf : Keeps (Scanner.At doc front n) J (f ((doc.drop n).getD i '\x00'))) :
    Keeps (Scanner.At doc front n) J (peekAt i >>= f) := by
  intro s b s' hs h
  obtain ⟨_, _, hpeek, h⟩ := stateful_bind_eq_ok.mp h
  cases hpeek
  rw [hs.place] at h
  exact hf hs h

theorem fetch_lays : Keeps (Scanner.LaidOut doc front) (Scanner.LaidOut doc front) fetch := by
  intro s a s' hs h
  unfold fetch at h
  obtain ⟨_, _, hfuel, h⟩ := stateful_bind_eq_ok.mp h
  cases hfuel
  obtain ⟨_, s₁, hskip, h⟩ := stateful_bind_eq_ok.mp h
  have hs₁ : s₁.At doc front s₁.mark.index :=
    ⟨keeps_of_takes (inferInstance : Trails (skipToToken _)) hs hskip, rfl⟩
  have hblank : isSpaceOrBreak ((doc.drop s₁.mark.index).headD '\x00') = false := by
    obtain ⟨ls, hls, -⟩ := hs
    rw [← hs₁.place]
    exact (skipToToken_stops hls.bound hskip).1
  refine keeps_then (fun _ => keeps_mark fun s₂ _ => .bind (unrollIndent_keeps_at _) fun _ =>
    keeps_at_peek (keeps_look fun _ => ?_)) hs₁ h
  refine keeps_ite (fun _ => fetchStreamEnd_lays) fun _ => ?_
  refine keeps_ite (fun _ => fetchDirective_lays) fun _ => ?_
  refine keeps_look fun _ => keeps_ite (fun _ => fetchDocumentMarker_lays rfl) fun _ => ?_
  refine keeps_look fun _ => keeps_ite (fun _ => ?_) fun _ => ?_
  · exact (fetchDocumentMarker_lays rfl).bind fun _ => keeps_then fun _ => keeps_then fun _ =>
      keeps_ite (fun _ => keeps_fail) fun _ => keeps_pure
  · exact keeps_look fun _ => keeps_look fun _ => keeps_ite (fun _ => keeps_fail) fun _ =>
      keeps_at_peekAt (fetchByStart_lays hblank)

theorem mustFetch_stays {s s' : Scanner} {must : Bool} (h : mustFetch s = .ok (must, s')) :
    s.Stays s' := by
  have hcourse : Stays mustFetch := by unfold mustFetch; infer_instance
  exact hcourse.course h

/-- What need not wait starts no key. -/
theorem not_possible_of_mustFetch {s s' : Scanner} (h : mustFetch s = .ok (false, s')) :
    ∀ key ∈ s'.possibleKeys, key.token ≠ s'.taken := by
  unfold mustFetch at h
  obtain ⟨_, _, hget, h⟩ := stateful_bind_eq_ok.mp h
  cases hget
  split at h
  · cases h
  · obtain ⟨_, s₁, hdrop, h⟩ := stateful_bind_eq_ok.mp h
    obtain ⟨_, _, hget, h⟩ := stateful_bind_eq_ok.mp h
    cases hget
    obtain ⟨hany, hs⟩ : (s₁.keys.any fun key => key.possible && key.token == s₁.taken) = false ∧
        s₁ = s' := by
      injection h with h
      exact Prod.mk.inj h
    subst hs
    intro key hkey htoken
    obtain ⟨hmem, hpossible⟩ := List.mem_filter.mp hkey
    have := List.any_eq_false.mp hany key hmem
    simp [hpossible, htoken] at this

end Layout

end Scan

namespace Token

variable {doc : Text}

/-- The tokens that have been handed out are laid out. -/
theorem laid_handed {front : List (Located Token)} {s : Scanner} (h : s.LaidOut doc front) :
    ∃ ls, Lexeme.Row doc front ls := by
  obtain ⟨ls, hls, -⟩ := h
  refine ⟨ls.take front.length, ?_, ?_, fun l hl => hls.fits l (List.mem_of_mem_take hl)⟩
  · rw [List.map_take, hls.tokens, List.take_left]
  · have hchain := hls.chain
    rw [← List.take_append_drop front.length ls] at hchain
    exact (List.isChain_append.mp hchain).1

theorem scanFrom_laid (fuel : Nat) {s : Scanner} {handed : List (Located Token)}
    (h : s.LaidOut doc handed.reverse) :
    ∃ ls, Lexeme.Row doc (scanFrom fuel s handed).tokens ls := by
  induction fuel generalizing s handed with
  | zero => exact laid_handed h
  | succ fuel ih =>
      rw [scanFrom]
      split
      · exact laid_handed h
      · next s₁ hmust =>
          have h₁ := h.along (Scan.mustFetch_stays hmust).trails
          split
          · exact laid_handed h
          · next s₂ hfetch => exact ih (Scan.fetch_lays h₁ hfetch)
      · next s₁ hmust =>
          have h₁ := h.along (Scan.mustFetch_stays hmust).trails
          split
          · exact laid_handed h
          · next token queue hqueue =>
              -- the token moves from the queue to those that have been handed out
              obtain ⟨ls, hls, hstarted⟩ := h₁
              have hmoved : Scanner.LaidOut doc (token :: handed).reverse
                  { s₁ with queue := queue, taken := s₁.taken + 1 } := by
                refine ⟨ls, ⟨?_, ?_, hls.chain, hls.fits, hls.reach, hls.place, hls.bound, ?_,
                  hls.order⟩, hstarted⟩
                · rw [hls.tokens, hqueue, List.reverse_cons, List.append_assoc]
                  rfl
                · rw [hls.taken, List.length_reverse, List.length_reverse, List.length_cons]
                · intro key hkey
                  obtain ⟨htaken, hstart⟩ := hls.keys key hkey
                  exact ⟨Nat.lt_of_le_of_ne htaken
                    (Scan.not_possible_of_mustFetch hmust key hkey).symm, hstart⟩
              split
              · exact laid_handed hmoved
              · exact ih hmoved

/-- **Where the tokens of a document stand**: one behind the other, with nothing but filler between
them. -/
theorem scan_laid (doc : Text) : ∃ ls, Lexeme.Row doc (scan doc).tokens ls := by
  refine scanFrom_laid _ ⟨[⟨⟨Span.empty Mark.origin, .streamStart⟩, 0, 0⟩],
    ⟨rfl, rfl, List.isChain_singleton _, ?_, ?_, rfl, Nat.lt_succ_self _, nofun, .nil⟩, nofun⟩
  · intro l hl
    rw [List.mem_singleton.mp hl]
    exact ⟨Nat.le_refl _, rfl⟩
  · intro l hl
    cases hl
    exact ⟨Nat.le_refl _, (Text.between_self doc 0).symm ▸ .nil⟩

end Token

end YamlEdit
