import YamlEdit.Proofs.SheetLines
import YamlEdit.Proofs.SheetValues

/-!
# The parts of the value of a sheet

The value at a path is read from the text of one node. In a sheet it is the part of the value of the
whole text that has the same address (`Editor.value_in_sheet_eq_part`).
-/

namespace YamlEdit

/-! ## Parts of values and of outlines -/

namespace Outline

mutual

/-- What has a value has the same if more nesting is allowed. -/
theorem value?_mono : ∀ {depth depth' : Nat} {o : Outline} {v : Value}, depth ≤ depth' →
    o.value? depth = some v → o.value? depth' = some v
  | _, _, scalar _, _, _, hv => by
      rw [value?] at hv ⊢
      exact hv
  | _, _, reference _, _, _, hv => by
      rw [value?] at hv
      cases hv
  | 0, _, group bracket _, _, _, hv => by
      rw [value?.eq_def] at hv
      cases bracket <;> cases hv
  | depth + 1, 0, group _ _, _, h, _ => absurd h (Nat.not_succ_le_zero depth)
  | depth + 1, depth' + 1, group bracket os, v, h, hv => by
      rw [value?.eq_def] at hv ⊢
      have h := Nat.le_of_succ_le_succ h
      cases bracket with
      | stream | document => cases hv
      | sequence =>
          obtain ⟨vs, hvs, rfl⟩ := Option.map_eq_some_iff.mp hv
          exact congrArg (Option.map _) (values?_mono h hvs)
      | mapping =>
          obtain ⟨es, hes, rfl⟩ := Option.map_eq_some_iff.mp hv
          exact congrArg (Option.map _) (entries?_mono h hes)

theorem values?_mono : ∀ {depth depth' : Nat} {os : List Outline} {vs : List Value},
    depth ≤ depth' → values? depth os = some vs → values? depth' os = some vs
  | _, _, [], _, _, hv => by
      rw [values?] at hv ⊢
      exact hv
  | depth, depth', o :: os, _, h, hv => by
      rw [values?] at hv ⊢
      obtain ⟨v, ho, hv⟩ := Option.bind_eq_some_iff.mp hv
      obtain ⟨vs, hos, rfl⟩ := Option.map_eq_some_iff.mp hv
      rw [value?_mono h ho, values?_mono h hos]
      rfl

theorem entries?_mono : ∀ {depth depth' : Nat} {os : List Outline} {read es : List (Value × Value)},
    depth ≤ depth' → entries? depth read os = some es → entries? depth' read os = some es
  | _, _, [], _, _, _, hv => by
      rw [entries?] at hv ⊢
      exact hv
  | _, _, [_], _, _, _, hv => by
      rw [entries?] at hv
      cases hv
  | depth, depth', key :: node :: os, read, es, h, hv => by
      rw [entries?] at hv ⊢
      obtain ⟨k, hkey, hv⟩ := Option.bind_eq_some_iff.mp hv
      rw [value?_mono h hkey, Option.bind_some]
      cases hdouble : Value.hasKey read k with
      | true =>
          rw [hdouble] at hv
          cases hv
      | false =>
          rw [hdouble, if_neg (by decide)] at hv
          obtain ⟨v, hnode, hv⟩ := Option.bind_eq_some_iff.mp hv
          rw [if_neg (by decide), value?_mono h hnode, Option.bind_some]
          exact entries?_mono h hv

end

variable {depth : Nat} {o part : Outline} {os : List Outline} {v : Value}

/-- The keys and the values of a mapping taking turns. -/
theorem values?_of_entries? : ∀ {os : List Outline} {read es : List (Value × Value)},
    entries? depth read os = some es → ∃ vs, values? depth os = some vs ∧
      es.flatMap (fun e => [e.1, e.2]) = read.reverse.flatMap (fun e => [e.1, e.2]) ++ vs
  | [], read, es, h => by
      rw [entries?] at h
      obtain rfl := Option.some.inj h
      exact ⟨[], by rw [values?], by simp⟩
  | [_], _, _, h => by
      rw [entries?] at h
      cases h
  | key :: node :: os, read, es, h => by
      rw [entries?] at h
      obtain ⟨k, hkey, h⟩ := Option.bind_eq_some_iff.mp h
      split at h
      · cases h
      · obtain ⟨v, hnode, h⟩ := Option.bind_eq_some_iff.mp h
        obtain ⟨vs, hvs, hparts⟩ := values?_of_entries? h
        refine ⟨k :: v :: vs, ?_, ?_⟩
        · rw [values?, hkey, values?, hnode, hvs]
          rfl
        · simpa using hparts

theorem getElem?_values? {vs : List Value} (h : values? depth os = some vs) {i : Nat}
    (hi : os[i]? = some o) : ∃ w, o.value? depth = some w ∧ vs[i]? = some w := by
  induction os generalizing vs i with
  | nil => cases hi
  | cons first os ih =>
      rw [values?] at h
      obtain ⟨w, hfirst, h⟩ := Option.bind_eq_some_iff.mp h
      obtain ⟨ws, hos, rfl⟩ := Option.map_eq_some_iff.mp h
      cases i with
      | zero =>
          obtain rfl := Option.some.inj hi
          exact ⟨w, hfirst, rfl⟩
      | succ i => exact ih hos hi

/-- The parts of the value of a collection are the values of its children. -/
theorem values?_of_group {bracket : Bracket} (h : (group bracket os).value? depth = some v) :
    ∃ inner, depth = inner + 1 ∧ values? inner os = some v.parts := by
  rw [value?.eq_def] at h
  cases depth with
  | zero => cases bracket <;> cases h
  | succ inner =>
      refine ⟨inner, rfl, ?_⟩
      cases bracket with
      | stream | document => cases h
      | sequence =>
          obtain ⟨vs, hvs, rfl⟩ := Option.map_eq_some_iff.mp h
          exact hvs
      | mapping =>
          obtain ⟨es, hes, rfl⟩ := Option.map_eq_some_iff.mp h
          obtain ⟨vs, hvs, hparts⟩ := values?_of_entries? hes
          exact hvs.trans (congrArg some hparts.symm)

/-- **A part of an outline stands for the part of the value** with the same address. -/
theorem value?_at {b : Address} (hv : o.value? depth = some v) (hpart : o.at? b = some part) :
    ∃ w, part.value? depth = some w ∧ v.at? b = some w := by
  induction b generalizing o v depth with
  | nil =>
      obtain rfl := Option.some.inj hpart
      exact ⟨v, hv, rfl⟩
  | cons i b ih =>
      obtain ⟨bracket, os, child, rfl, hchild, hpart⟩ := at?_cons_eq_some.mp hpart
      obtain ⟨inner, rfl, hparts⟩ := values?_of_group hv
      obtain ⟨x, hx, hi⟩ := getElem?_values? hparts hchild
      obtain ⟨w, hw, hat⟩ := ih hx hpart
      refine ⟨w, value?_mono (Nat.le_succ inner) hw, ?_⟩
      rw [Value.at?, hi]
      exact hat

end Outline

/-! ## The value at a path -/

/-- A node of a sheet is read as what its outline stands for. -/
theorem Text.IsSheet.toOption_valueAt {source g : Text} {fs : List Frame} {u : Sheet}
    (h : source.IsSheet g (Sheet.plug fs u)) (hlegible : source.IsLegible) :
    (((Sheet.plug fs u).snapshot source g).valueAt ([0, 0] ++ Sheet.addr fs)).toOption =
      u.outline.value? Value.maxDepth := by
  have hbody : u.body.IsLegible := fun c hc => hlegible c (by
    rw [h.text_plug]
    simp [hc])
  have hu := Sheet.Fits.of_plug h.fits
  have hplace : u.Fits ((SourceMap.ofText source).position
      (Text.size (g ++ Sheet.front fs))).column := by
    cases hword : u.isWord with
    | true =>
        -- a scalar may stand at any column
        cases hu with
        | word hw hmargin => exact .word hw hmargin
        | last | more => cases hword
    | false =>
        have := SourceMap.column_of_upright (h.fits.upright_front h.isUpright hword)
          (u.body ++ (u.tail ++ Sheet.back fs))
        rw [← h.text_plug, Sheet.Fits.columnBehind_front h.fits] at this
        rwa [this]
  rw [h.valueAt]
  generalize ((SourceMap.ofText source).position (Text.size (g ++ Sheet.front fs))).column = c at *
  rw [← Nat.zero_add c, ← Text.columnBehind_spaces] at hplace
  have hread := Value.parse_sheet (.of_spaces _) hplace (.inr rfl)
    (Text.IsLegible.append_iff.mpr ⟨.of_spaces _, by rwa [List.append_nil]⟩)
  rw [List.append_nil] at hread
  rw [← hread]
  cases Value.parse _ <;> rfl

/-- **The value at a path of a sheet** is the part of the value of the whole text with the same
address. -/
theorem Editor.value_in_sheet_eq_part {source g path : Text} {t : Sheet} {e : Editor} {b : Address}
    {d : Value} (h : source.IsSheet g t) (hlegible : source.IsLegible)
    (hload : Editor.load source = .ok e) (hd : Value.parse source = .ok d)
    (hpath : e.snapshot.addressOf path = some ([0, 0] ++ b)) :
    ∃ w, e.value path = .ok w ∧ d.at? b = some w := by
  have he := h.snapshot_of_load hload
  have hread : Snapshot.ofText source = .ok e.snapshot := he ▸ h.ofText
  rw [Snapshot.value_eq_valueAt hread hpath]
  rw [he] at hpath ⊢
  obtain ⟨fs, u, rfl, hb⟩ := Sheet.exists_plug_of_addressOf h hpath
  obtain rfl := List.append_cancel_left hb
  have hwhole := Value.parse_sheet h.margin h.fits (.inl h.fits.isBreak_tail) (by
    rwa [← Sheet.text_eq, ← h.text])
  rw [← Sheet.text_eq, ← h.text, hd] at hwhole
  obtain ⟨w, hw, hat⟩ := Outline.value?_at hwhole.symm (Sheet.at?_plug fs u)
  exact ⟨w, toOption_eq_some.mp ((h.toOption_valueAt hlegible).trans hw), hat⟩

/-- A collection below a key with a comment. -/
theorem Editor.value_in_sheet_below_comment :
    ∃ e d w, Editor.load "a: # x\n  - b\n  - c\nd: e\n".toList = .ok e ∧
      Value.parse "a: # x\n  - b\n  - c\nd: e\n".toList = .ok d ∧
      e.value "a".toList = .ok w ∧ d.at? [1] = some w := by
  obtain ⟨e, hload, hpath⟩ := Editor.exists_load "a: # x\n  - b\n  - c\nd: e\n".toList
    (P := fun e => e.snapshot.addressOf "a".toList = some ([0, 0] ++ [1])) (by decide +kernel)
  obtain ⟨d, hd, -⟩ := exists_ok_of_any (x := Value.parse "a: # x\n  - b\n  - c\nd: e\n".toList)
    (P := fun _ => True) (by decide +kernel)
  obtain ⟨w, hw⟩ := Editor.value_in_sheet_eq_part (g := [])
    (t := .more (.key "a".toList " # x\n  ".toList)
      (.more (.dash [' ']) (.word "b".toList "\n  ".toList)
        (.last (.dash [' ']) (.word "c".toList ['\n'])))
      (.last (.key "d".toList [' ']) (.word "e".toList ['\n'])))
    (by decide +kernel) (by decide +kernel) hload hd hpath
  exact ⟨e, d, w, hload, hd, hw⟩

end YamlEdit
