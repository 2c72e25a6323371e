import Mathlib.Data.List.Forall2
import YamlEdit.Edit.Script
import YamlEdit.Proofs.JsonRoundTrip

/-!
# Scripts that are written are read back

The values of a script come from JSON, so they have a JSON form, which is what they were read from
(`Value.toJson?_of_ofJson`). An operation is written as an object with its name and its fields, and
the reader finds these fields again and makes the same operation of them
(`Script.Written.ofMembers`). What is read of a script can be written for that reason, unless it
holds doubles.

Main statement: `Script.read_of_write`.
-/

namespace YamlEdit

/-! ## Values without doubles -/

namespace Value

mutual

/-- Whether no double is in a value. -/
def floatFree : Value → Bool
  | float _ => false
  | sequence items => floatFreeItems items
  | mapping entries => floatFreeEntries entries
  | tagged _ v => floatFree v
  | _ => true

/-- Whether no double is in any of the items. -/
def floatFreeItems : List Value → Bool
  | [] => true
  | v :: rest => floatFree v && floatFreeItems rest

/-- Whether no double is in any of the keys and values. -/
def floatFreeEntries : List (Value × Value) → Bool
  | [] => true
  | (k, v) :: rest => floatFree k && floatFree v && floatFreeEntries rest

end

variable {j : Json} {v : Value}

theorem ofItems_cons {item : Json} {items : List Json} {vs : List Value}
    (h : ofItems (item :: items) = .ok vs) :
    ∃ w ws, ofJson item = .ok w ∧ ofItems items = .ok ws ∧ vs = w :: ws := by
  rw [ofItems] at h
  obtain ⟨w, hw, h⟩ := bind_eq_ok.mp h
  obtain ⟨ws, hws, h⟩ := bind_eq_ok.mp h
  cases h
  exact ⟨w, ws, hw, hws, rfl⟩

/-- A member that is read has a name of its own. -/
theorem ofMembers_cons {seen : List Text} {name : Text} {item : Json}
    {members : List (Text × Json)} {es : List (Value × Value)}
    (h : ofMembers seen ((name, item) :: members) = .ok es) :
    ∃ w fs, ofJson item = .ok w ∧ ofMembers (name :: seen) members = .ok fs ∧
      es = (string name, w) :: fs := by
  rw [ofMembers] at h
  split at h
  · cases h
  · obtain ⟨w, hw, h⟩ := bind_eq_ok.mp h
    obtain ⟨fs, hfs, h⟩ := bind_eq_ok.mp h
    cases h
    exact ⟨w, fs, hw, hfs, rfl⟩

mutual

/-- **A value is written as it has been read.** -/
theorem toJson?_of_ofJson : ∀ {j : Json} {v : Value}, ofJson j = .ok v → v.toJson? = some j
  | .null, _, h | .bool _, _, h | .integer _, _, h | .float _, _, h | .string _, _, h => by
      cases h
      rfl
  | .array items, v, h => by
      rw [ofJson] at h
      obtain ⟨vs, hvs, rfl⟩ := map_eq_ok.mp h
      rw [toJson?, toItems?_of_ofItems hvs]
      rfl
  | .object members, v, h => by
      rw [ofJson] at h
      obtain ⟨es, hes, rfl⟩ := map_eq_ok.mp h
      rw [toJson?, toMembers?_of_ofMembers hes]
      rfl

/-- The same for the items of a list. -/
theorem toItems?_of_ofItems : ∀ {items : List Json} {vs : List Value},
    ofItems items = .ok vs → toItems? vs = some items
  | [], _, h => by
      cases h
      rfl
  | item :: items, vs, h => by
      obtain ⟨w, ws, hw, hws, rfl⟩ := ofItems_cons h
      rw [toItems?, toJson?_of_ofJson hw, toItems?_of_ofItems hws]
      rfl

/-- The same for the members of an object. -/
theorem toMembers?_of_ofMembers : ∀ {seen : List Text} {members : List (Text × Json)}
    {es : List (Value × Value)}, ofMembers seen members = .ok es → toMembers? es = some members
  | _, [], _, h => by
      cases h
      rfl
  | seen, (name, item) :: members, es, h => by
      obtain ⟨w, fs, hw, hfs, rfl⟩ := ofMembers_cons h
      rw [toMembers?, toJson?_of_ofJson hw, toMembers?_of_ofMembers hfs]
      rfl

end

/-- The items of a list are read to values without doubles, if the list is. -/
theorem floatFree_of_ofItems {items : List Json} {vs : List Value} (h : ofItems items = .ok vs)
    (hfree : floatFreeItems vs = true) :
    ∀ item ∈ items, ∃ w, ofJson item = .ok w ∧ w.floatFree = true := by
  induction items generalizing vs with
  | nil => exact nofun
  | cons item items ih =>
      obtain ⟨w, ws, hw, hws, rfl⟩ := ofItems_cons h
      rw [floatFreeItems, Bool.and_eq_true] at hfree
      exact List.forall_mem_cons.mpr ⟨⟨w, hw, hfree.1⟩, ih hws hfree.2⟩

theorem floatFree_of_ofMembers {seen : List Text} {members : List (Text × Json)}
    {es : List (Value × Value)} (h : ofMembers seen members = .ok es)
    (hfree : floatFreeEntries es = true) :
    ∀ member ∈ members, ∃ w, ofJson member.2 = .ok w ∧ w.floatFree = true := by
  induction members generalizing seen es with
  | nil => exact nofun
  | cons member members ih =>
      obtain ⟨w, fs, hw, hfs, rfl⟩ := ofMembers_cons h
      rw [floatFreeEntries, Bool.and_eq_true, Bool.and_eq_true] at hfree
      exact List.forall_mem_cons.mpr ⟨⟨w, hw, hfree.1.2⟩, ih hfs hfree.2⟩

/-- What stands for a value without doubles has none. -/
theorem fits_of_floatFree {floats : Prop} {depth : Nat} (hfits : j.Fits floats depth)
    (h : ofJson j = .ok v) (hfree : v.floatFree = true) : j.Fits False depth := by
  induction hfits generalizing v with
  | null => exact .null
  | bool => exact .bool
  | integer hleast hgreatest => exact .integer hleast hgreatest
  | float =>
      cases h
      cases hfree
  | string => exact .string
  | array hroom _ ih =>
      rw [ofJson] at h
      obtain ⟨vs, hvs, rfl⟩ := map_eq_ok.mp h
      rw [floatFree] at hfree
      refine .array hroom fun item hitem => ?_
      obtain ⟨w, hw, hfree⟩ := floatFree_of_ofItems hvs hfree item hitem
      exact ih item hitem hw hfree
  | object hroom _ ih =>
      rw [ofJson] at h
      obtain ⟨es, hes, rfl⟩ := map_eq_ok.mp h
      rw [floatFree] at hfree
      refine .object hroom fun member hmember => ?_
      obtain ⟨w, hw, hfree⟩ := floatFree_of_ofMembers hes hfree member hmember
      exact ih member hmember hw hfree

end Value

/-! ## Operations -/

/-- Whether no double is in the value of an operation. -/
def Operation.floatFree : Operation → Bool
  | delete _ | rename _ _ => true
  | update _ v | mapAdd _ _ v | seqAdd _ v _ => v.floatFree

namespace Script

/-- The nesting that is left for the value of a field. -/
def fieldDepth : Nat := Json.maxDepth - 2

/-- A value that has been read from the field of an operation. -/
def ReadValue (v : Value) : Prop := ∃ j : Json, Value.ofJson j = .ok v ∧ j.Fits True fieldDepth

/-- An index that has been read from the field of an operation. -/
def ReadIndex (index : Option Nat) : Prop := ∀ n ∈ index, n < UInt64.size

/-- An operation that has been read. -/
def ReadOperation : Operation → Prop
  | .delete _ | .rename _ _ => True
  | .update _ v | .mapAdd _ _ v => ReadValue v
  | .seqAdd _ v index => ReadValue v ∧ ReadIndex index

/-- The members of an object, as which an operation is written. -/
def namedFields (fields : List (Field × Json)) : List (Text × Json) :=
  fields.map fun (field, item) => (field.name, item)

/-- An operation and the fields that it is written with: the reader makes the operation of them. -/
structure Written (o : Operation) (v : Verb) (fields : List (Field × Json)) : Prop where
  name : v.name = o.name
  written : writtenFields? o = some fields
  fits : ∀ member ∈ fields, member.2.Fits False fieldDepth
  read : (do operation v (← Fields.empty.ofMembers v (namedFields fields))) = .ok o

/-- A field is found by its name. -/
theorem find_name {v : Verb} {field : Field} (h : field ∈ v.fields) :
    (v.fields.find? fun other => other.name == field.name) = some field := by
  cases v <;> cases field <;> first | rfl | (exact absurd h (by decide))

/-- The member of a new field is read as the field. -/
theorem ofMembers_field {v : Verb} {f f' : Fields} {field : Field} {item : Json}
    {fields : List (Field × Json)} (hfield : field ∈ v.fields) (hnew : f.has field = false)
    (hset : f.set field item = .ok f') :
    f.ofMembers v (namedFields ((field, item) :: fields)) =
      f'.ofMembers v (namedFields fields) := by
  show Fields.ofMembers v f ((field.name, item) :: namedFields fields) = _
  rw [Fields.ofMembers, find_name hfield]
  dsimp only
  rw [hnew, hset]
  rfl

/-- A value without doubles that has been read is written, and is read from what is written. -/
theorem ReadValue.exists_json {v : Value} (h : ReadValue v) (hfree : v.floatFree = true) :
    ∃ j : Json, v.toJson? = some j ∧ j.Fits False fieldDepth ∧
      ∀ f : Fields, f.set .value j = .ok { f with value := some v } := by
  obtain ⟨j, hj, hfits⟩ := h
  refine ⟨j, Value.toJson?_of_ofJson hj, Value.fits_of_floatFree hfits hj hfree, fun f => ?_⟩
  rw [Fields.set, hj]
  rfl

/-- **An operation without doubles that has been read is read from what it is written as.** -/
theorem exists_written {o : Operation} (h : ReadOperation o) (hfree : o.floatFree = true) :
    ∃ v fields, Written o v fields := by
  have htext : ∀ {t : Text}, (Json.string t).Fits False fieldDepth := .string
  cases o with
  | delete path =>
      refine ⟨.delete, [(.path, .string path)], rfl, rfl, by simp [htext], ?_⟩
      rw [ofMembers_field (by decide) rfl rfl]
      rfl
  | update path value =>
      obtain ⟨j, hj, hfits, hset⟩ := h.exists_json hfree
      refine ⟨.update, [(.path, .string path), (.value, j)], rfl, ?_, by simp [htext, hfits], ?_⟩
      · rw [writtenFields?, hj]
        rfl
      · rw [ofMembers_field (by decide) rfl rfl, ofMembers_field (by decide) rfl (hset _)]
        rfl
  | rename path newName =>
      refine ⟨.rename, [(.path, .string path), (.newName, .string newName)], rfl, rfl,
        by simp [htext], ?_⟩
      rw [ofMembers_field (by decide) rfl rfl, ofMembers_field (by decide) rfl rfl]
      rfl
  | mapAdd path key value =>
      obtain ⟨j, hj, hfits, hset⟩ := h.exists_json hfree
      refine ⟨.mapAdd, [(.path, .string path), (.key, .string key), (.value, j)], rfl, ?_,
        by simp [htext, hfits], ?_⟩
      · rw [writtenFields?, hj]
        rfl
      · rw [ofMembers_field (by decide) rfl rfl, ofMembers_field (by decide) rfl rfl,
          ofMembers_field (by decide) rfl (hset _)]
        rfl
  | seqAdd path value index =>
      obtain ⟨j, hj, hfits, hset⟩ := h.1.exists_json hfree
      cases index with
      | none =>
          refine ⟨.seqAdd, [(.path, .string path), (.value, j)], rfl, ?_,
            by simp [htext, hfits], ?_⟩
          · rw [writtenFields?, hj]
            rfl
          · rw [ofMembers_field (by decide) rfl rfl, ofMembers_field (by decide) rfl (hset _)]
            rfl
      | some n =>
          have hn : n < UInt64.size := h.2 n rfl
          have hindex : (Json.integer n).Fits False fieldDepth := .integer (by omega) (by omega)
          refine ⟨.seqAdd, [(.path, .string path), (.value, j), (.index, .integer n)], rfl, ?_,
            by simp [htext, hfits, hindex], ?_⟩
          · rw [writtenFields?, hj]
            rfl
          · rw [ofMembers_field (by decide) rfl rfl, ofMembers_field (by decide) rfl (hset _),
              ofMembers_field (by decide) rfl rfl]
            rfl

/-! ## What fields come from -/

/-- Fields that have been read. -/
structure ReadFields (f : Fields) : Prop where
  value : ∀ v ∈ f.value, ReadValue v
  index : ∀ index ∈ f.index, ReadIndex index

theorem readIndex_fits {item : Json} {index : Option Nat} (hitem : item.Fits True fieldDepth)
    (h : readIndex item = .ok index) : ReadIndex index := by
  cases hitem with
  | null =>
      cases h
      exact nofun
  | integer _ hgreatest =>
      rw [readIndex] at h
      split at h
      · cases h
        rintro _ ⟨⟩
        omega
      · cases h
  | bool | float | string | array | object => cases h

theorem ReadFields.set {f f' : Fields} {field : Field} {item : Json} (hf : ReadFields f)
    (hitem : item.Fits True fieldDepth) (h : f.set field item = .ok f') : ReadFields f' := by
  cases field with
  | path | newName | key =>
      obtain ⟨t, -, h⟩ := bind_eq_ok.mp h
      cases h
      exact ⟨hf.value, hf.index⟩
  | value =>
      obtain ⟨v, hv, h⟩ := bind_eq_ok.mp h
      cases h
      refine ⟨?_, hf.index⟩
      rintro _ ⟨⟩
      exact ⟨item, mapError_eq_ok.mp hv, hitem⟩
  | index =>
      obtain ⟨index, hindex, h⟩ := bind_eq_ok.mp h
      cases h
      refine ⟨hf.value, ?_⟩
      rintro _ ⟨⟩
      exact readIndex_fits hitem hindex

theorem ReadFields.ofMembers {v : Verb} {f f' : Fields} {others : List (Text × Json)}
    (hf : ReadFields f) (hothers : ∀ member ∈ others, member.2.Fits True fieldDepth)
    (h : f.ofMembers v others = .ok f') : ReadFields f' := by
  induction others generalizing f with
  | nil =>
      cases h
      exact hf
  | cons member others ih =>
      obtain ⟨hmember, hothers⟩ := List.forall_mem_cons.mp hothers
      rw [Fields.ofMembers] at h
      split at h
      · exact ih hf hothers h
      · split at h
        · cases h
        · obtain ⟨g, hg, h⟩ := bind_eq_ok.mp h
          exact ih (hf.set hmember hg) hothers h

theorem ReadFields.ofItems {v : Verb} {f f' : Fields} {count : Nat} {fields : List Field}
    {items : List Json} (hf : ReadFields f) (hitems : ∀ item ∈ items, item.Fits True fieldDepth)
    (h : f.ofItems v count fields items = .ok f') : ReadFields f' := by
  fun_induction Fields.ofItems v f count fields items with
  | case1 =>
      cases h
      exact hf
  | case2 => cases h
  | case3 =>
      cases h
      exact hf
  | case4 => cases h
  | case5 f count field fields item items ih =>
      obtain ⟨hitem, hitems⟩ := List.forall_mem_cons.mp hitems
      obtain ⟨g, hg, h⟩ := bind_eq_ok.mp h
      exact ih g (hf.set hitem hg) hitems h

/-- An operation that is made of fields that have been read. -/
theorem ReadFields.operation {v : Verb} {f : Fields} {o : Operation} (hf : ReadFields f)
    (h : Script.operation v f = .ok o) : ReadOperation o := by
  have hvalue : ∀ {value : Value}, require .value f.value = .ok value → ReadValue value := by
    intro value h
    unfold require at h
    split at h
    · next hsome =>
        cases h
        exact hf.value _ hsome
    · cases h
  obtain ⟨path, -, h⟩ := bind_eq_ok.mp h
  cases v with
  | delete =>
      cases h
      trivial
  | update =>
      obtain ⟨value, hv, h⟩ := bind_eq_ok.mp h
      cases h
      exact hvalue hv
  | rename =>
      obtain ⟨newName, -, h⟩ := bind_eq_ok.mp h
      cases h
      trivial
  | mapAdd =>
      obtain ⟨key, -, h⟩ := bind_eq_ok.mp h
      obtain ⟨value, hv, h⟩ := bind_eq_ok.mp h
      cases h
      exact hvalue hv
  | seqAdd =>
      obtain ⟨value, hv, h⟩ := bind_eq_ok.mp h
      cases h
      refine ⟨hvalue hv, ?_⟩
      cases hindex : f.index with
      | none => exact nofun
      | some index => exact hf.index index hindex

/-! ## Reading what is written -/

namespace Reader

open Json (Takes Gives gives_ite gives_pure itemsLeft itemsLeft_nil itemsLeft_cons membersLeft
  membersLeft_cons separator renderMember)

section Lift

variable {α : Type} {r : Json.Reader α} {t rest : Text} {a : α} {P : α → Prop}

/-- A JSON reader takes the same as a part of the reader of scripts. -/
theorem takes_lift (h : Takes r t rest a) : Takes (liftM r : Reader α) t rest a := by
  intro place
  obtain ⟨place', hr⟩ := h place
  exact ⟨place', mapError_eq_ok.mpr hr⟩

theorem gives_lift (h : Gives P r) : Gives P (liftM r : Reader α) :=
  fun c a c' ha => h c a c' (mapError_eq_ok.mp ha)

/-- What is done may depend on the text that is left, and not on where it starts. -/
theorem takes_get {β : Type} {b : β} {f : Json.Cursor → Reader β}
    (h : ∀ place, Takes (f ⟨t, place⟩) t rest b) : Takes (get >>= f) t rest b :=
  fun place => h place place

end Lift

section Written

variable {t : Text} {c : Char} {v : Verb} {fuel depth : Nat}

theorem takes_valueStart (h : Json.isSpace c = false) : Takes valueStart (c :: t) (c :: t) c :=
  (takes_lift (Json.takes_peekToken? (by rintro _ ⟨⟩; exact h))).bind Json.takes_pure

/-- The name of an operation is read as its verb. -/
theorem takes_verb : Takes verb (Json.renderString v.name ++ t) t v := by
  have hname : Verb.ofName? v.name = some v := by cases v <;> rfl
  refine (takes_valueStart rfl).bind ?_
  refine (takes_lift (Json.takes_readString v.name)).bind ?_
  rw [hname]
  exact Json.takes_pure

/-- The members behind the name of the operation are read. -/
theorem takes_members_following {others read : List (Text × Json)}
    (hnames : ∀ member ∈ others, member.1 ≠ "op".toList)
    (hback : ∀ member ∈ others, Json.ReadsBack depth member.2) (hfuel : others.length < fuel) :
    Takes (members fuel depth false (some v) read) (membersLeft false others ++ '\x7d' :: t)
      ('\x7d' :: t) (v, read.reverse ++ others) := by
  induction others generalizing fuel read with
  | nil =>
      obtain ⟨fuel, rfl⟩ := Nat.exists_eq_add_one_of_ne_zero (Nat.ne_zero_of_lt hfuel)
      rw [List.append_nil, members]
      exact (takes_lift Json.takes_hasMember_end).bind Json.takes_pure
  | cons member others ih =>
      obtain ⟨fuel, rfl⟩ := Nat.exists_eq_add_one_of_ne_zero (Nat.ne_zero_of_lt hfuel)
      obtain ⟨hname, hnames⟩ := List.forall_mem_cons.mp hnames
      obtain ⟨hread, hback⟩ := List.forall_mem_cons.mp hback
      have htext : membersLeft false (member :: others) ++ '\x7d' :: t =
          separator false ++ (Json.renderString member.1 ++
            ':' :: (member.2.render ++ (membersLeft false others ++ '\x7d' :: t))) := by
        simp [membersLeft_cons, renderMember]
      rw [members, htext]
      refine (takes_lift Json.takes_hasMember).bind ?_
      refine (takes_lift (Json.takes_readString member.1)).bind ?_
      rw [if_neg hname]
      refine (takes_lift Json.takes_colon).bind ?_
      refine takes_get fun place => ?_
      refine (takes_lift (hread _ _ ?_ Json.endsValue_membersLeft)).bind ?_
      · rw [Json.fuelFor, List.length_append]
        omega
      · have hrest : Takes (members fuel depth false (some v) (member :: read)) _ _ _ :=
          ih hnames hback (Nat.lt_of_succ_lt_succ hfuel)
        rwa [List.reverse_cons, List.append_assoc] at hrest

theorem name_ne_op (field : Field) : field.name ≠ "op".toList := by
  cases field <;> decide

/-- An object that starts with the name of the operation is read member by member. -/
theorem takes_members {others : List (Text × Json)}
    (hnames : ∀ member ∈ others, member.1 ≠ "op".toList)
    (hback : ∀ member ∈ others, Json.ReadsBack depth member.2) (hfuel : others.length < fuel) :
    Takes (members (fuel + 1) depth true none [])
      (membersLeft true (("op".toList, .string v.name) :: others) ++ '\x7d' :: t) ('\x7d' :: t)
      (v, others) := by
  have htext : membersLeft true (("op".toList, .string v.name) :: others) ++ '\x7d' :: t =
      separator true ++ (Json.renderString "op".toList ++ (':' :: (Json.renderString v.name ++
        (membersLeft false others ++ '\x7d' :: t)))) := by
    rw [membersLeft_cons, renderMember, Json.render]
    simp
  rw [htext, members]
  refine (takes_lift Json.takes_hasMember).bind ?_
  refine (takes_lift (Json.takes_readString "op".toList)).bind ?_
  rw [if_pos rfl]
  refine (takes_lift Json.takes_colon).bind (takes_verb.bind ?_)
  exact takes_members_following hnames hback hfuel

/-- An operation that is read from the JSON value that it is written as. -/
structure WritesBack (o : Operation) (j : Json) : Prop where
  written : toJson? o = some j
  start : ∃ u, j.render = '\x7b' :: u
  read : ∀ t, Takes (item (Json.maxDepth - 1)) (j.render ++ t) t (.ok o)

/-- **An operation is read** from the object that it is written as. -/
theorem exists_writesBack {o : Operation} {fields : List (Field × Json)} (h : Written o v fields) :
    ∃ j, WritesBack o j := by
  refine ⟨.object (("op".toList, .string o.name) :: namedFields fields), ?_,
    ⟨_, by rw [Json.render]; rfl⟩, fun t => ?_⟩
  · rw [toJson?, h.written]
    rfl
  · have hnames : ∀ member ∈ namedFields fields, member.1 ≠ "op".toList := by
      intro member hmember
      obtain ⟨⟨field, item⟩, -, rfl⟩ := List.mem_map.mp hmember
      exact name_ne_op field
    have hback : ∀ member ∈ namedFields fields, Json.ReadsBack fieldDepth member.2 := by
      intro member hmember
      obtain ⟨field, hfield, rfl⟩ := List.mem_map.mp hmember
      exact Json.readsBack (h.fits field hfield)
    have htext : (Json.object (("op".toList, .string o.name) :: namedFields fields)).render ++ t =
        '\x7b' :: (membersLeft true (("op".toList, .string v.name) :: namedFields fields) ++
          '\x7d' :: t) := by
      rw [Json.render, h.name]
      simp [membersLeft]
    have hlength : (namedFields fields).length <
        (membersLeft true (("op".toList, .string v.name) :: namedFields fields) ++
          '\x7d' :: t : Text).length := by
      have hwritten := Json.length_le_membersLeft (namedFields fields)
      simp only [membersLeft_cons, List.length_append, List.length_cons]
      omega
    rw [htext, item]
    refine (takes_valueStart rfl).bind ?_
    rw [if_pos rfl]
    refine (takes_lift Json.takes_skip).bind (takes_get fun place => ?_)
    refine (takes_members hnames hback hlength).bind ?_
    refine (takes_lift Json.takes_endObject).bind ?_
    rw [h.read]
    exact Json.takes_pure

/-- **A list of operations is read** from what it is written as. -/
theorem takes_operations {first : Bool} {os read : List Operation} {js : List Json}
    (h : List.Forall₂ WritesBack os js) (hfuel : js.length < fuel) :
    Takes (operations fuel (Json.maxDepth - 1) first read) (itemsLeft first js ++ ']' :: t)
      (']' :: t) (read.reverse ++ os) := by
  induction h generalizing first fuel read with
  | nil =>
      obtain ⟨fuel, rfl⟩ := Nat.exists_eq_add_one_of_ne_zero (Nat.ne_zero_of_lt hfuel)
      rw [List.append_nil, itemsLeft_nil, operations]
      exact (takes_lift Json.takes_hasItem_end).bind Json.takes_pure
  | @cons o j os js hback _ ih =>
      obtain ⟨fuel, rfl⟩ := Nat.exists_eq_add_one_of_ne_zero (Nat.ne_zero_of_lt hfuel)
      obtain ⟨u, hstart⟩ := hback.start
      rw [itemsLeft_cons, List.append_assoc, List.append_assoc, operations]
      refine Takes.bind (a := true) (u := j.render ++ (itemsLeft false js ++ ']' :: t)) ?_ ?_
      · rw [hstart]
        exact takes_lift (Json.takes_hasItem rfl (by decide))
      · refine (hback.read _).bind ?_
        have hrest : Takes (operations fuel _ false (o :: read)) _ _ _ :=
          ih (Nat.lt_of_succ_lt_succ hfuel)
        rwa [List.reverse_cons, List.append_assoc] at hrest

theorem takes_script {os : List Operation} {js : List Json} (h : List.Forall₂ WritesBack os js) :
    Takes script (Json.array js).render [] os := by
  have htext : (Json.array js).render = '[' :: (itemsLeft true js ++ [']']) := by
    rw [Json.render]
    rfl
  have hlength : js.length < (itemsLeft true js ++ [']'] : Text).length + 1 := by
    cases js with
    | nil => exact Nat.succ_pos _
    | cons j js =>
        have hwritten := Json.length_le_itemsLeft js
        simp only [itemsLeft_cons, List.length_append, List.length_cons]
        omega
  rw [htext, script]
  refine (takes_valueStart rfl).bind ?_
  refine (takes_lift Json.takes_skip).bind (takes_get fun place => ?_)
  have hoperations : Takes (operations _ (Json.maxDepth - 1) true []) (itemsLeft true js ++ [']'])
      [']'] os := takes_operations h hlength
  refine hoperations.bind ?_
  refine (takes_lift Json.takes_endList).bind ?_
  have hend : ∀ c ∈ ([] : Text).head?, Json.isSpace c = false := fun c hc => by cases hc
  exact (takes_lift (Json.takes_peekToken? hend)).bind Json.takes_pure

end Written

/-! ## What is read -/

section Read

variable {α : Type} {P : α → Prop} {fuel depth : Nat}

theorem gives_fail {fault : Fault} : Gives P (fail fault) := by
  intro c a c' h
  cases h

theorem gives_failAfterObject {fault : Fault} : Gives P (failAfterObject fault) :=
  .of_bind fun _ => gives_fail

theorem gives_failAfterList {fault : Fault} : Gives P (failAfterList fault) := by
  unfold failAfterList
  exact .of_bind fun _ => gives_ite (fun _ => .of_bind fun _ => gives_fail) fun _ => gives_fail

theorem gives_failType {expected : Expected} {c : Char} : Gives P (failType expected c) := by
  unfold failType
  refine gives_ite (fun _ => gives_fail) fun _ => gives_ite (fun _ => gives_fail) fun _ => ?_
  exact .of_bind fun _ => gives_fail

/-- The members of an operation fit. -/
theorem gives_members {first : Bool} {verb? : Option Verb} {read : List (Text × Json)}
    (hread : ∀ member ∈ read, member.2.Fits True depth) :
    Gives (fun r => ∀ member ∈ r.2, member.2.Fits True depth)
      (members fuel depth first verb? read) := by
  induction fuel generalizing first verb? read with
  | zero =>
      unfold members
      exact gives_fail
  | succ fuel ih =>
      unfold members
      refine .of_bind fun _ => gives_ite (fun _ => .of_bind fun name => ?_) fun _ => ?_
      · refine gives_ite (fun _ => ?_) fun _ => .of_bind fun _ => .of_bind fun _ => ?_
        · extract_lets named
          have hnamed : ∀ u, Gives _ (named u) := fun _ =>
            .of_bind fun _ => .of_bind fun _ => ih hread
          exact gives_ite (fun _ => .of_bind fun _ => hnamed ()) fun _ => hnamed ()
        · exact (gives_lift Json.gives_readValue).bind fun item hitem =>
            ih (List.forall_mem_cons.mpr ⟨hitem, hread⟩)
      · split
        · exact gives_failAfterObject
        · exact gives_pure fun member hmember => hread member (List.mem_reverse.mp hmember)

/-- **An operation of a script fits.** -/
theorem gives_item :
    Gives (fun r => ∀ o, r = .ok o → ReadOperation o) (item (Json.maxDepth - 1)) := by
  have hempty : ReadFields Fields.empty := ⟨forall_none, forall_none⟩
  unfold item
  refine .of_bind fun c => gives_ite (fun _ => ?_) fun _ => gives_ite (fun _ => ?_) fun _ => ?_
  · refine .of_bind fun _ => .of_bind fun _ => ?_
    refine (gives_members (List.forall_mem_nil _)).bind fun r hr => .of_bind fun _ => ?_
    refine gives_pure fun o ho => ?_
    obtain ⟨f, hf, ho⟩ := bind_eq_ok.mp ho
    exact (hempty.ofMembers hr hf).operation ho
  · refine .of_bind fun _ => .of_bind fun _ => ?_
    extract_lets rest
    have hrest : ∀ u, Gives (fun r => ∀ o, r = .ok o → ReadOperation o) (rest u) := fun _ => by
      refine .of_bind fun v => .of_bind fun _ => ?_
      refine (gives_lift (Json.gives_readItems (List.forall_mem_nil _))).bind fun items hr => ?_
      refine .of_bind fun _ => gives_pure fun o ho => ?_
      obtain ⟨f, hf, ho⟩ := bind_eq_ok.mp ho
      exact (hempty.ofItems hr hf).operation ho
    exact gives_ite (fun _ => .of_bind fun _ => hrest ()) fun _ => hrest ()
  · exact gives_failType

theorem gives_operations {first : Bool} {read : List Operation}
    (hread : ∀ o ∈ read, ReadOperation o) :
    Gives (fun os => ∀ o ∈ os, ReadOperation o)
      (operations fuel (Json.maxDepth - 1) first read) := by
  induction fuel generalizing first read with
  | zero =>
      unfold operations
      exact gives_fail
  | succ fuel ih =>
      unfold operations
      refine .of_bind fun _ => gives_ite (fun _ => gives_item.bind fun r hr => ?_) fun _ => ?_
      · split
        · exact ih (List.forall_mem_cons.mpr ⟨hr _ rfl, hread⟩)
        · exact gives_failAfterList
      · exact gives_pure fun o ho => hread o (List.mem_reverse.mp ho)

theorem gives_script : Gives (fun os => ∀ o ∈ os, ReadOperation o) script := by
  unfold script
  refine .of_bind fun c => ?_
  extract_lets rest
  have hrest : ∀ u, Gives (fun os => ∀ o ∈ os, ReadOperation o) (rest u) := fun _ => by
    refine .of_bind fun _ => .of_bind fun _ => ?_
    refine (gives_operations (List.forall_mem_nil _)).bind fun os hos => ?_
    refine .of_bind fun _ => .of_bind fun next => ?_
    cases next with
    | none => exact gives_pure hos
    | some c => exact gives_lift Json.gives_failAhead
  exact gives_ite (fun _ => .of_bind fun _ => hrest ()) fun _ => hrest ()

end Read

end Reader

/-! ## Scripts -/

/-- What is read of a script has 64 bits for its numbers, and values that nest no deeper than a
script may. -/
theorem readOperation_of_read {t : Text} {os : List Operation} (h : read t = .ok os) :
    ∀ o ∈ os, ReadOperation o := by
  obtain ⟨⟨os, c⟩, hread, rfl⟩ := map_eq_ok.mp h
  exact Reader.gives_script _ os c hread

/-- Operations are written one by one. -/
theorem exists_writesBack_all {os : List Operation}
    (h : ∀ o ∈ os, ReadOperation o ∧ o.floatFree = true) :
    ∃ js, os.mapM toJson? = some js ∧ List.Forall₂ Reader.WritesBack os js := by
  induction os with
  | nil => exact ⟨[], rfl, .nil⟩
  | cons o os ih =>
      obtain ⟨⟨hread, hfree⟩, hos⟩ := List.forall_mem_cons.mp h
      obtain ⟨v, fields, hwritten⟩ := exists_written hread hfree
      obtain ⟨j, hj⟩ := Reader.exists_writesBack hwritten
      obtain ⟨js, hjs, hall⟩ := ih hos
      refine ⟨j :: js, ?_, .cons hj hall⟩
      rw [List.mapM_cons, hj.written, hjs]
      rfl

/-- **A script that is read and written is read again** as the same operations, if no double is in
it: the text that its operations are written as exists, and reads as these operations. -/
theorem read_of_write {t : Text} {os : List Operation} (h : read t = .ok os)
    (hfree : ∀ o ∈ os, o.floatFree = true) :
    ∃ written, write? os = some written ∧ read written = .ok os := by
  obtain ⟨js, hjs, hall⟩ := exists_writesBack_all fun o ho =>
    ⟨readOperation_of_read h o ho, hfree o ho⟩
  refine ⟨(Json.array js).render, ?_, ?_⟩
  · rw [write?, hjs]
    rfl
  · obtain ⟨place, hread⟩ := Reader.takes_script hall ⟨1, 0⟩
    exact map_eq_ok.mpr ⟨_, hread, rfl⟩

/-- Three operations, two of them lists: with the least and the greatest number, an escaped
character and a list in an object. -/
theorem read_of_write_list_and_object :
    ∃ os written,
      read ("[[\"seq_add\", \"a\", \x7b\"k\": [-9223372036854775808, null]\x7d, 0],".toList ++
        " \x7b\"value\": \"\\u0001\", \"op\": \"update\", \"path\": \"é\"\x7d,".toList ++
        " [\"update\", \"\", 18446744073709551615]]".toList) = .ok os ∧
      (os.length = 3 ∧ ∀ o ∈ os, o.floatFree = true) ∧
      write? os = some written ∧ read written = .ok os := by
  obtain ⟨os, hread, hlength, hfree⟩ := exists_ok_of_any (x := read
    ("[[\"seq_add\", \"a\", \x7b\"k\": [-9223372036854775808, null]\x7d, 0],".toList ++
      " \x7b\"value\": \"\\u0001\", \"op\": \"update\", \"path\": \"é\"\x7d,".toList ++
      " [\"update\", \"\", 18446744073709551615]]".toList))
    (P := fun os => os.length = 3 ∧ ∀ o ∈ os, o.floatFree = true) (by decide +kernel)
  obtain ⟨written, hwrite, hback⟩ := read_of_write hread hfree
  exact ⟨os, written, hread, ⟨hlength, hfree⟩, hwrite, hback⟩

end Script

end YamlEdit
