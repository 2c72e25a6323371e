import YamlEdit.Proofs.InternalErrors

/-!
# Edits of what a path leads to

An operation asks two things about its path: for the node that it leads to, and for the collection
that this node is an entry of. What is recorded as the node above is found in different ways, by a
step, at an anchor, or not at all for the content of the document; but it is always the one that the
address of the node tells (`Snapshot.entryAt`). So all paths to a node make the same edits of it,
also those that go through aliases.

Main statement: `Editor.render_same_of_same_target`.
-/

namespace YamlEdit

open EditError (Result)

/-- The same operation at another path. -/
def Operation.withPath (path : Text) : Operation → Operation
  | .delete _ => .delete path
  | .update _ value => .update path value
  | .rename _ newName => .rename path newName
  | .mapAdd _ key value => .mapAdd path key value
  | .seqAdd _ value index => .seqAdd path value index

/-- The same error, about another path. -/
def EditError.withPath (path : Text) : EditError → EditError
  | .path _ e => .path path e
  | .notFound _ => .notFound path
  | mismatch (.renameElement _ parent) => mismatch (.renameElement path parent)
  | mismatch (.notMapping _ kind) => mismatch (.notMapping path kind)
  | mismatch (.notSequence _ kind) => mismatch (.notSequence path kind)
  | unsupported (.complexUpdate _ parent) => unsupported (.complexUpdate path parent)
  | e => e

/-- Whether an error is about no path. -/
def EditError.NamesNoPath (e : EditError) : Prop := ∀ path, e.withPath path = e

theorem EditError.allows_namesNoPath : Allows NamesNoPath :=
  ⟨fun _ _ => rfl, fun _ _ => rfl, fun _ _ _ => rfl⟩

/-- A computation whose errors are about no path. -/
theorem mapError_withPath {α : Type} {x : Result α}
    (h : Yields EditError.NamesNoPath (fun _ => True) x) (path : Text) :
    x.mapError (EditError.withPath path) = x := by
  cases x with
  | ok a => rfl
  | error e => exact congrArg Except.error (h path)

theorem yields_value (value : Value) :
    Yields EditError.NamesNoPath (fun _ => True)
      (liftM (Fragment.ofValue value) : Result Fragment) := by
  refine yields_iff.mpr ⟨fun _ _ => trivial, fun e h => ?_⟩
  obtain ⟨fault, -, rfl⟩ := mapError_eq_error.mp h
  exact fun _ => rfl

theorem mapError_bind {α β : Type} {g : EditError → EditError} {x : Result α} {f : α → Result β} :
    (x >>= f).mapError g = x.mapError g >>= fun a => (f a).mapError g := by
  cases x <;> rfl

namespace Tree

/-- A search through wrappers that has moved has moved out of a wrapper. -/
theorem wrapper_of_unwrap {t : Tree} {fuel : Nat} {a b : Address} {d : Node}
    (h : t.unwrap fuel a = .ok (b, d)) :
    b = a ∨ ∃ c m, b = c ++ [0] ∧ t.root.descendant? c = some m ∧ m.kind.isWrapper = true := by
  induction fuel generalizing a with
  | zero =>
      rw [Tree.unwrap, bind_eq_ok] at h
      obtain ⟨n, -, h⟩ := h
      cases h
      exact .inl rfl
  | succ fuel ih =>
      rw [Tree.unwrap, bind_eq_ok] at h
      obtain ⟨n, hn, h⟩ := h
      split at h
      · next hwrapper =>
          rcases ih h with rfl | hmoved
          · exact .inr ⟨a, n, rfl, descendant?_of_node hn, hwrapper.1⟩
          · exact .inr hmoved
      · cases h
        exact .inl rfl

/-- A place with nothing above it is the root of the tree or directly in a wrapper. -/
theorem Sound.wrapper_of_locate {t : Tree} (ht : t.Sound) {selector : Selector} {a : Address}
    (h : t.locate selector = .ok (some ⟨a, none⟩)) :
    a = [] ∨ ∃ c m, a = c ++ [0] ∧ t.root.descendant? c = some m ∧ m.kind.isWrapper = true := by
  have hlocated := ht.locate selector
  rw [h] at hlocated
  have hsegments := (hlocated _ rfl).2 rfl
  unfold Tree.locate at h
  rw [hsegments, bind_eq_ok] at h
  obtain ⟨l, hl, h⟩ := h
  cases h
  unfold Tree.settle at hl
  obtain ⟨⟨b, d⟩, hunwrap, hl⟩ := bind_eq_ok.mp hl
  dsimp only at hl
  split at hl
  · obtain ⟨⟨anchored, n⟩, hresolve, hl⟩ := bind_eq_ok.mp hl
    dsimp only at hl
    -- the place of an anchor has a node above it, unless it is the root
    injection hl with hl
    injection hl with htarget hparent
    subst htarget
    unfold Address.parent? at hparent
    split at hparent
    · next hempty => exact .inl (List.isEmpty_iff.mp hempty)
    · cases hparent
  · cases hl
    exact wrapper_of_unwrap hunwrap

end Tree

namespace Snapshot

/-- Whether a path leads to the node at an address. -/
def LeadsTo (s : Snapshot) (path : Text) (a : Address) : Prop :=
  ∃ selector l, Selector.parse path = .ok selector ∧ s.tree.locate selector = .ok (some l) ∧
    l.target = a

/-- The collection that the node at an address is an entry of, and its number there. -/
def entryAt (s : Snapshot) (a : Address) (action : EntryAction) : Result (Node × Nat) :=
  match a.getLast?, s.tree.root.descendant? a.dropLast with
  | some i, some parent =>
    if parent.kind.isWrapper then .error (.mismatch (.root action)) else .ok (parent, i)
  | _, _ => .error (.mismatch (.root action))

/-- **What a path leads to is told by the address.** -/
theorem Sound.resolve_of_leadsTo {s : Snapshot} (hs : s.Sound) {path : Text} {a : Address}
    (h : s.LeadsTo path a) :
    ∃ target, s.resolve path = .ok target ∧ s.tree.root.descendant? a = some target.node ∧
      ∀ action, target.entry action = s.entryAt a action := by
  obtain ⟨selector, ⟨a, parent⟩, hselector, hlocate, rfl⟩ := h
  have hlocated := hs.tree.locate selector
  rw [hlocate] at hlocated
  obtain ⟨hplaced, -⟩ := hlocated _ rfl
  obtain ⟨node, hnode, -⟩ := hplaced.rests
  cases parent with
  | none =>
      refine ⟨_, resolve_of_locate hselector hlocate hnode, hnode, fun action => ?_⟩
      rcases hs.tree.wrapper_of_locate hlocate with rfl | ⟨c, m, rfl, hm, hwrapper⟩
      · rfl
      · rw [entryAt, List.getLast?_concat, List.dropLast_concat, hm]
        exact (if_pos hwrapper).symm
  | some p =>
      obtain ⟨hne, hp⟩ := hplaced.above rfl
      obtain ⟨q, i, rfl⟩ : ∃ q i, a = q ++ [i] := ⟨_, _, (List.dropLast_concat_getLast hne).symm⟩
      obtain rfl : p = q := by simpa using hp
      obtain ⟨parent, hparent, -⟩ := Node.descendant?_of_append hnode
      refine ⟨_, resolve_of_locate_entry hselector hlocate hnode hparent, hnode, fun action => ?_⟩
      rw [entryAt, List.getLast?_concat, List.dropLast_concat, hparent]
      rfl

theorem yields_entryAt (s : Snapshot) (a : Address) (action : EntryAction) :
    Yields EditError.NamesNoPath (fun _ => True) (s.entryAt a action) := by
  unfold entryAt
  split
  · split
    · exact fun _ => rfl
    · trivial
  · exact fun _ => rfl

end Snapshot

namespace Plan

open EditError

variable {s : Snapshot} {p p' : Text}

/-- A value is replaced in the same way at every path. -/
theorem replaceEntry_withPath (parent node : Node) (i : Nat) (f : Fragment) :
    replaceEntry s p' parent node i f =
      (replaceEntry s p parent node i f).mapError (EditError.withPath p') := by
  unfold replaceEntry
  split
  · refine (mapError_withPath ?_ p').symm
    exact (Node.yields_pairedKey (.inr fun _ => rfl)).bind fun key _ =>
      yields_replaceUnderKey allows_namesNoPath
  · rfl
  · split <;> rfl
  · split <;> rfl
  · rfl

end Plan

open EditError Plan in
/-- **All paths to a node make the same edits of it**, and fail with the same errors. -/
theorem Snapshot.Sound.operation_withPath {s : Snapshot} (hs : s.Sound) {p p' : Text} {a : Address}
    (h : s.LeadsTo p a) (h' : s.LeadsTo p' a) (o : Operation) :
    Plan.operation s (o.withPath p') =
      (Plan.operation s (o.withPath p)).mapError (EditError.withPath p') := by
  obtain ⟨target, hresolve, hnode, hentry⟩ := hs.resolve_of_leadsTo h
  obtain ⟨target', hresolve', hnode', hentry'⟩ := hs.resolve_of_leadsTo h'
  have hsame : target'.node = target.node := Option.some.inj (hnode'.symm.trans hnode)
  cases o with
  | delete path =>
      simp only [Operation.withPath, Plan.operation, Plan.delete, hresolve, hresolve', ok_bind,
        hentry, hentry', hsame]
      refine (mapError_withPath ?_ p').symm
      refine (s.yields_entryAt a .delete).bind fun entry _ => ?_
      split
      · exact (Node.yields_pairedKey (.inr fun _ => rfl)).bind fun first _ =>
          yields_remove allows_namesNoPath
      · exact yields_remove allows_namesNoPath
  | update path value =>
      simp only [Operation.withPath, Plan.operation, Plan.update, hresolve, hresolve', ok_bind,
        hentry, hentry', hsame]
      rw [mapError_bind, mapError_withPath (s.yields_entryAt a .update)]
      refine bind_congr fun entry => ?_
      rw [mapError_bind, mapError_withPath (yields_value value)]
      refine bind_congr fun f => ?_
      rw [mapError_bind, ← replaceEntry_withPath]
      refine bind_congr fun r => ?_
      exact (mapError_withPath (Replacement.yields_splice allows_namesNoPath) p').symm
  | rename path newName =>
      simp only [Operation.withPath, Plan.operation, Plan.rename, hresolve, hresolve', ok_bind,
        hentry, hentry']
      rw [mapError_bind, mapError_withPath (s.yields_entryAt a .rename)]
      refine bind_congr fun entry => ?_
      split
      · rfl
      · refine (mapError_withPath (yields_write allows_namesNoPath fun name => ?_) p').symm
        split
        · exact fun _ => rfl
        · exact (Node.yields_pairedKey (.inr fun _ => rfl)).bind fun _ _ => trivial
  | mapAdd path key value =>
      simp only [Operation.withPath, Plan.operation, Plan.mapAdd, hresolve, hresolve', ok_bind,
        hsame]
      split
      · rfl
      · refine (mapError_withPath (yields_write allows_namesNoPath fun name => ?_) p').symm
        split
        · exact fun _ => rfl
        · refine yields_write allows_namesNoPath fun value => ?_
          split
          · exact Flow.yields_addPair allows_namesNoPath
          · exact Block.yields_addPair fun _ _ => rfl
  | seqAdd path value index =>
      simp only [Operation.withPath, Plan.operation, Plan.seqAdd, hresolve, hresolve', ok_bind,
        hsame]
      split
      · rfl
      · refine (mapError_withPath (yields_write allows_namesNoPath fun item => ?_) p').symm
        split
        · exact Flow.yields_addItem allows_namesNoPath index
        · exact Block.yields_addItem allows_namesNoPath (fun _ _ => rfl) index

namespace Editor

theorem yields_ofText (source : Text) :
    Yields EditError.NamesNoPath (fun _ => True) (Snapshot.ofText source) := by
  unfold Snapshot.ofText
  dsimp only
  split
  · next error _ =>
      cases error with
      | malformed => exact fun _ => rfl
      | shape => exact fun _ => rfl
      | badOffset => exact fun _ => rfl
  · trivial

theorem apply_withPath {s : Snapshot} (hs : s.Sound) {p p' : Text} {a : Address}
    (h : s.LeadsTo p a) (h' : s.LeadsTo p' a) (o : Operation) :
    apply s (o.withPath p') = (apply s (o.withPath p)).mapError (EditError.withPath p') := by
  unfold apply
  rw [hs.operation_withPath h h' o, mapError_bind]
  refine bind_congr fun splice => ?_
  refine (mapError_withPath ?_ p').symm
  exact yields_offset EditError.allows_namesNoPath fun text => yields_ofText text

/-- Operations that are all applied, and one more. -/
theorem applyAll_concat {s s' : Snapshot} {os : List Operation} (h : applyAll s os = (s', none))
    (o : Operation) : applyAll s (os ++ [o]) = applyAll s' [o] := by
  induction os generalizing s with
  | nil =>
      cases h
      rfl
  | cons o' rest ih =>
      rw [applyAll] at h
      rw [List.cons_append, applyAll]
      split at h
      · exact ih h
      · cases h

/-- **Edits depend on the node that is reached, and not on the way to it.** Of two paths to one
node, an operation at either makes the same splice, or the two fail with the same error, each one
about its own path. So whatever an editor has applied before, it comes to the same text by either of
them. -/
theorem render_same_of_same_target {source p p' : Text} {s : Snapshot} {a : Address}
    (hread : Snapshot.ofText source = .ok s) (h : s.LeadsTo p a) (h' : s.LeadsTo p' a)
    (o : Operation) :
    Plan.operation s (o.withPath p') =
        (Plan.operation s (o.withPath p)).mapError (EditError.withPath p') ∧
      ∀ e : Editor, applyAll e.snapshot e.queue = (s, none) →
        (e.enqueue (o.withPath p')).render =
          ((e.enqueue (o.withPath p)).render.1,
            (e.enqueue (o.withPath p)).render.2.mapError (EditError.withPath p')) := by
  have hs := Snapshot.sound_of_ofText hread
  refine ⟨hs.operation_withPath h h' o, fun e hqueue => ?_⟩
  have happly := apply_withPath hs h h' o
  unfold render enqueue
  dsimp only
  rw [applyAll_concat hqueue, applyAll_concat hqueue, applyAll, applyAll, happly]
  cases apply s (o.withPath p) <;> rfl

/-- A value below an anchor is changed through an alias as it is straight. -/
theorem render_same_of_same_target_through_alias :
    ∃ e s, load "a: &x\n  k: 1\nb: *x\n".toList = .ok e ∧
      Snapshot.ofText "a: &x\n  k: 1\nb: *x\n".toList = .ok s ∧
      s.LeadsTo "a.k".toList [0, 0, 1, 1] ∧ s.LeadsTo "b.k".toList [0, 0, 1, 1] ∧
      applyAll e.snapshot e.queue = (s, none) ∧
      (e.enqueue (.update "a.k".toList (.string "z".toList))).render.2 =
        .ok "a: &x\n  k: z\nb: *x\n".toList ∧
      (e.enqueue (.update "b.k".toList (.string "z".toList))).render.2 =
        .ok "a: &x\n  k: z\nb: *x\n".toList := by
  obtain ⟨e, hload, hlocated, hlocated', htext⟩ := exists_load "a: &x\n  k: 1\nb: *x\n".toList
    (P := fun e =>
      (Selector.parse "a.k".toList).toOption.any (fun selector =>
        e.snapshot.tree.locate selector = .ok (some ⟨[0, 0, 1, 1], some [0, 0, 1]⟩)) = true ∧
      (Selector.parse "b.k".toList).toOption.any (fun selector =>
        e.snapshot.tree.locate selector = .ok (some ⟨[0, 0, 1, 1], some [0, 0, 1]⟩)) = true ∧
      (e.enqueue (.update "a.k".toList (.string "z".toList))).render.2.toOption =
        some "a: &x\n  k: z\nb: *x\n".toList)
    (by decide +kernel)
  have hleads : ∀ {path : Text}, (Selector.parse path).toOption.any (fun selector =>
      e.snapshot.tree.locate selector = .ok (some ⟨[0, 0, 1, 1], some [0, 0, 1]⟩)) = true →
      e.snapshot.LeadsTo path [0, 0, 1, 1] := by
    intro path h
    obtain ⟨selector, hselector, hlocate⟩ := (Option.any_eq_true _ _).mp h
    exact ⟨selector, _, toOption_eq_some.mp hselector, of_decide_eq_true hlocate, rfl⟩
  obtain ⟨hread, hqueue⟩ := load_eq_ok hload
  have hnone : applyAll e.snapshot e.queue = (e.snapshot, none) := by rw [hqueue]; rfl
  have htext := toOption_eq_some.mp htext
  refine ⟨e, e.snapshot, hload, hread, hleads hlocated, hleads hlocated', hnone, htext, ?_⟩
  have hsame := (render_same_of_same_target hread (hleads hlocated) (hleads hlocated')
    (.update [] (.string "z".toList))).2 e hnone
  rw [show (Operation.update [] (.string "z".toList)).withPath "b.k".toList =
    .update "b.k".toList (.string "z".toList) from rfl] at hsame
  rw [hsame]
  show ((e.enqueue (.update "a.k".toList (.string "z".toList))).render.2).mapError _ = _
  rw [htext]
  rfl

end Editor

end YamlEdit
