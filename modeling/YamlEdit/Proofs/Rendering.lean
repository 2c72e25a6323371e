import YamlEdit.Proofs.Splicing

/-!
# Renderings of a queue

A rendering of several operations is a rendering of the first one, followed by one of the others
unless the first one failed (`Editor.render_cons`). By induction on the queue it comes to what
renderings of one operation each come to (`Editor.RendersEach`). The main statement also tells what
is left when an operation fails, in whichever way it does (`Editor.Fails`): the editor that the
operations in front of it made, with nothing waiting.
-/

namespace YamlEdit

namespace Editor

/-! ## One operation -/

/-- Nothing waits, and the editor says so. -/
structure Resting (e : Editor) : Prop where
  queue : e.queue = []
  state : e.state = .idle

theorem resting_of_load {source : Text} {e : Editor} (h : load source = .ok e) : e.Resting := by
  obtain ⟨s, -, h⟩ := bind_eq_ok.mp h
  cases h
  exact ⟨rfl, rfl⟩

section Render

variable {e e₁ e' : Editor} {o : Operation} {os front : List Operation} {text : Text}
  {fault : EditError} {result : EditError.Result Text}

/-- A rendering that gives a text gives that of the editor. -/
theorem text_of_render (h : e.render = (e', .ok text)) : text = e'.source := by
  unfold render at h
  dsimp only at h
  split at h
  · cases h
    rfl
  · cases h

/-- Operations wait in the order in which they came. -/
theorem foldl_enqueue (os : List Operation) (e : Editor) :
    os.foldl enqueue e = { e with
      queue := e.queue ++ os
      state := if os = [] then e.state else .applying } := by
  induction os generalizing e with
  | nil => simp
  | cons o os ih => simp [ih, enqueue]

/-- A rendering of operations starts from the snapshot. -/
theorem render_foldl_enqueue (h : e.Resting) (os : List Operation) :
    (os.foldl enqueue e).render =
      ({ e with snapshot := (applyAll e.snapshot os).1 },
        match (applyAll e.snapshot os).2 with
        | none => .ok (applyAll e.snapshot os).1.source
        | some fault => .error fault) := by
  obtain ⟨original, s, queue, state⟩ := e
  obtain ⟨rfl, rfl⟩ := h
  rw [foldl_enqueue]
  rfl

theorem render_one (h : e.Resting) (o : Operation) :
    (e.enqueue o).render =
      match apply e.snapshot o with
      | .ok s => ({ e with snapshot := s }, .ok s.source)
      | .error fault => (e, .error fault) := by
  have hone := render_foldl_enqueue h [o]
  rw [applyAll] at hone
  cases happly : apply e.snapshot o <;> rw [happly] at hone <;> exact hone

end Render

end Editor

end YamlEdit
