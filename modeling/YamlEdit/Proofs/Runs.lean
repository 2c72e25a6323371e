import YamlEdit.CommandLine.Run
import YamlEdit.Proofs.Histories
import YamlEdit.Proofs.OffsetErrors
import YamlEdit.Proofs.Rendering

/-!
# What a run does to the files

An edit on the command line denotes operations (`Command.Denotes`): its request with the value
decoded, or those that its script reads as. With these, one rendering makes a text of the content
of the file (`Command.Renders`), unless the library breaks off at an offset inside a character
(`Command.BreaksOff`). A run is that rendering, and no more: it prints and writes only if there is
one (`runCommand_eq_ok`), it breaks off only where the library does (`runCommand_eq_crash`), and
what it writes is found where the file was, by whichever path, and nowhere else
(`Files.read_write`). The main statement is `run_eq_rendering`.
-/

namespace YamlEdit

/-! ## Texts without documents -/

section NoDocument

variable {s : Snapshot} (hkind : s.tree.root.kind = .stream) (hchildren : s.tree.root.children = [])
include hkind hchildren

/-- Without a document, a path leads to the root or nowhere. -/
theorem Snapshot.resolve_of_no_document {path : Text} {target : Target}
    (h : s.resolve path = .ok target) : target = ⟨s.tree.root, none, none⟩ := by
  have hsettle : s.tree.settle [] none = .ok ⟨[], none⟩ := by
    have hnode : s.tree.node [] = .ok s.tree.root := rfl
    have hunwrap : s.tree.unwrap 2 [] = .ok ([], s.tree.root) := by
      rw [Tree.unwrap, hnode, ok_bind, if_neg (by simp [hchildren])]
      rfl
    rw [Tree.settle, hunwrap, ok_bind]
    simp only [Node.alias?, hkind]
    rfl
  obtain ⟨selector, -, h⟩ := bind_eq_ok.mp h
  obtain ⟨l?, hlocate, h⟩ := bind_eq_ok.mp h
  have hlocate := lift_locate_eq_ok.mp hlocate
  rw [Tree.locate, hsettle, ok_bind] at hlocate
  rcases hsegments : selector.segments with _ | ⟨segment, rest⟩
  · rw [hsegments] at hlocate
    cases hlocate
    cases h
    rfl
  · have hstep : s.tree.step s.tree.root segment = .ok none := by
      cases segment <;>
        simp [Tree.step, Node.isMapping, Node.isSequence, Kind.isMapping, Kind.isSequence, hkind]
    rw [hsegments, Tree.follow, show s.tree.node [] = .ok s.tree.root from rfl, ok_bind, hstep]
      at hlocate
    cases hlocate
    cases h

/-- Without a document there is nothing to edit. -/
theorem Plan.operation_of_no_document (o : Operation) (splice : Splice) :
    Plan.operation s o ≠ .ok splice := by
  intro h
  cases o with
  | delete path =>
      obtain ⟨target, htarget, h⟩ := bind_eq_ok.mp h
      cases Snapshot.resolve_of_no_document hkind hchildren htarget
      cases h
  | update path value =>
      obtain ⟨target, htarget, h⟩ := bind_eq_ok.mp h
      cases Snapshot.resolve_of_no_document hkind hchildren htarget
      cases h
  | rename path newName =>
      obtain ⟨target, htarget, h⟩ := bind_eq_ok.mp h
      cases Snapshot.resolve_of_no_document hkind hchildren htarget
      cases h
  | mapAdd path key value =>
      obtain ⟨target, htarget, h⟩ := bind_eq_ok.mp h
      cases Snapshot.resolve_of_no_document hkind hchildren htarget
      simp only [Node.isMapping, hkind, Kind.isMapping] at h
      cases h
  | seqAdd path value index =>
      obtain ⟨target, htarget, h⟩ := bind_eq_ok.mp h
      cases Snapshot.resolve_of_no_document hkind hchildren htarget
      simp only [Node.isSequence, hkind, Kind.isSequence] at h
      cases h

end NoDocument

/-- **Nothing can be made of the empty text.** -/
theorem Editor.text_of_render_empty {e e' : Editor} {os : List Operation} {text : Text}
    (hload : load [] = .ok e) (hrender : (os.foldl enqueue e).render = (e', .ok text)) :
    text = [] := by
  obtain ⟨_, hload', hkind, hchildren⟩ := exists_load []
    (P := fun e => e.snapshot.tree.root.kind = .stream ∧
      e.snapshot.tree.root.children.isEmpty = true) (by decide +kernel)
  cases hload'.symm.trans hload
  have hchildren := List.isEmpty_iff.mp hchildren
  rw [render_foldl_enqueue (resting_of_load hload)] at hrender
  cases os with
  | nil =>
      cases hrender
      exact Snapshot.source_of_ofText (load_eq_ok hload).1
  | cons o os =>
      rw [applyAll] at hrender
      cases happly : apply e.snapshot o with
      | error fault =>
          rw [happly] at hrender
          cases hrender
      | ok s =>
          obtain ⟨splice, hplan, -, -⟩ := apply_eq_ok happly
          exact absurd hplan (Plan.operation_of_no_document hkind hchildren o splice)

namespace CommandLine

/-! ## Files after a write -/

namespace Files

variable {files : Files} {place : Place} {content : Text}

/-- A write leaves the names as they are. -/
theorem any_write (p : Text → Bool) :
    (files.write place content).any (fun file => p file.1) = files.any fun file => p file.1 := by
  unfold write
  rw [List.any_map]
  congr 1
  funext file
  show p (if _ then _ else _ : Text × Text).1 = _
  split <;> rfl

theorem hasDirectory_write (directory : List Text) :
    (files.write place content).hasDirectory directory = files.hasDirectory directory := by
  unfold hasDirectory
  rw [any_write fun name => directory.length < (pathParts name).length &&
    (pathParts name).take directory.length == directory]

theorem hasFile_write (parts : List Text) :
    (files.write place content).hasFile parts = files.hasFile parts :=
  any_write fun name => pathParts name == parts

theorem isDirectory_write (at' : Place) :
    (files.write place content).isDirectory at' = files.isDirectory at' := by
  cases at' with
  | below parts => exact hasDirectory_write parts
  | system parts => rcases parts with _ | ⟨name, _ | ⟨_, _⟩⟩ <;> rfl
  | around => rfl

theorem isFile_write (at' : Place) :
    (files.write place content).isFile at' = files.isFile at' := by
  cases at' with
  | below parts => exact hasFile_write parts
  | system parts => rfl
  | around => rfl

theorem walk_write (here : Place) (parts : List Text) :
    (files.write place content).walk here parts = files.walk here parts := by
  induction parts generalizing here with
  | nil => rfl
  | cons part rest ih =>
      unfold walk
      simp only [isDirectory_write, isFile_write, ih]

/-- **A path leads to the same place before and after a write.** -/
theorem locate_write (path : Text) :
    (files.write place content).locate path = files.locate path := by
  unfold locate
  simp only [isDirectory_write, isFile_write, walk_write]

/-- Where a path leads, there is a file. -/
theorem isFile_of_locate {path : Text} (h : files.locate path = .ok place) :
    files.isFile place = true := by
  unfold locate at h
  dsimp only at h
  split at h
  · cases h
  · split at h
    · cases h
    · obtain ⟨place', -, h⟩ := bind_eq_ok.mp h
      split at h
      · cases h
      · split at h
        · next hfile =>
            cases h
            exact hfile
        · cases h

/-- The file with a given path, after a write. -/
theorem find?_write (parts : List Text) :
    (files.write place content).find? (fun file => pathParts file.1 == parts) =
      (files.find? fun file => pathParts file.1 == parts).map fun file =>
        if place = .below parts then (file.1, content) else file := by
  induction files with
  | nil => rfl
  | cons file rest ih =>
      have hname : pathParts (if place = .below (pathParts file.1) then (file.1, content)
          else file).1 = pathParts file.1 := by
        split <;> rfl
      rw [write, List.map_cons, List.find?_cons, List.find?_cons, hname]
      by_cases hfile : pathParts file.1 = parts
      · simp only [hfile, beq_self_eq_true, Option.map_some]
      · simp only [beq_eq_false_iff_ne.mpr hfile]
        exact ih

theorem contentAt_write_same {parts : List Text} (h : files.hasFile parts = true) :
    (files.write (.below parts) content).contentAt (.below parts) = content := by
  obtain ⟨file, hfile⟩ := Option.isSome_iff_exists.mp
    (List.find?_isSome.mpr (List.any_eq_true.mp h))
  simp only [contentAt]
  rw [find?_write, show files.find? (fun file => pathParts file.1 == parts) = some file from hfile]
  simp

theorem contentAt_write_other {other : Place} (h : other ≠ place) :
    (files.write place content).contentAt other = files.contentAt other := by
  cases other with
  | system parts => rfl
  | around => rfl
  | below parts =>
      simp only [contentAt]
      rw [find?_write]
      simp [h.symm]

/-- **What is written is read by every path that leads there**, and by no other one. -/
theorem read_write {path : Text} {parts : List Text} (h : files.locate path = .ok (.below parts))
    (other : Text) :
    (files.locate other = files.locate path →
      (files.write (.below parts) content).read other = .ok content) ∧
    (files.locate other ≠ files.locate path →
      (files.write (.below parts) content).read other = files.read other) := by
  unfold read
  rw [locate_write, h]
  constructor
  · intro hsame
    rw [hsame]
    exact congrArg Except.ok (contentAt_write_same (isFile_of_locate h))
  · intro hother
    cases hplace : files.locate other with
    | error fault => rfl
    | ok place =>
        have hne : place ≠ .below parts := by
          rintro rfl
          exact hother hplace
        exact congrArg Except.ok (contentAt_write_other hne)

end Files

/-! ## What a command denotes -/

/-- The file that a command edits, and what becomes of its text. -/
def Command.edits? : Command → Option (Text × Output)
  | .edit file _ output | .apply file _ output => some (file, output)
  | .get .. | .schema => none

/-- The operation that a request denotes, with the value decoded. There is none if the value does
not decode. -/
inductive Request.Denotes : Request → Operation → Prop where
  | delete {path : Text} : Denotes (.delete path) (.delete path)
  | update {path word : Text} {value : Value} (hvalue : Value.parse word = .ok value) :
      Denotes (.update path word) (.update path value)
  | rename {path newName : Text} : Denotes (.rename path newName) (.rename path newName)
  | mapAdd {path key word : Text} {value : Value} (hvalue : Value.parse word = .ok value) :
      Denotes (.mapAdd path key word) (.mapAdd path key value)
  | seqAdd {path word : Text} {index : Option Nat} {value : Value}
      (hvalue : Value.parse word = .ok value) :
      Denotes (.seqAdd path word index) (.seqAdd path value index)

/-- The operations that an edit denotes: that of its request, or those that its script reads as. -/
inductive Command.Denotes (s : Surroundings) : Command → List Operation → Prop where
  | request {file : Text} {request : Request} {output : Output} {o : Operation}
      (ho : request.Denotes o) : Denotes s (.edit file request output) [o]
  | script {file script json : Text} {os : List Operation} {output : Output}
      (hread : s.read (s.expand script) = .ok json) (hscript : Script.read json = .ok os) :
      Denotes s (.apply file script output) os

/-- What the library makes of the file of a command: the operations that the command denotes are
put in a queue, and one rendering of it gives a text. -/
inductive Command.Renders (s : Surroundings) (command : Command) (file content text : Text) :
    Prop where
  | mk {os : List Operation} {e e' : Editor} (hos : command.Denotes s os)
      (hcontent : s.read (s.expand file) = .ok content) (hload : Editor.load content = .ok e)
      (hrender : (os.foldl Editor.enqueue e).render = (e', .ok text))

/-- The library stumbles over an offset inside a character, when the file of a command is loaded or
when the operations that the command denotes are rendered. -/
inductive Command.BreaksOff (s : Surroundings) (command : Command) (file : Text)
    (offset : BadOffset) : Prop where
  | load {os : List Operation} {content : Text} (hos : command.Denotes s os)
      (hcontent : s.read (s.expand file) = .ok content)
      (hload : Editor.load content = .error (.badOffset offset)) : BreaksOff s command file offset
  | render {os : List Operation} {content : Text} {e e' : Editor} (hos : command.Denotes s os)
      (hcontent : s.read (s.expand file) = .ok content) (hload : Editor.load content = .ok e)
      (hrender : (os.foldl Editor.enqueue e).render = (e', .error (.badOffset offset))) :
      BreaksOff s command file offset

/-- What is printed of an edit that went well. -/
def Output.shown (output : Output) (content text : Text) : Text :=
  if output.diff then Diff.unified content text
  else if output.inPlace then []
  else text

/-- What is written. A text that is as it was is not. -/
def Output.written (output : Output) (path content text : Text) : Option (Text × Text) :=
  if output.inPlace ∧ content ≠ text then some (path, text) else none

section Run

variable {s : Surroundings} {command : Command} {file : Text} {output : Output}

theorem readValue_eq_ok {word : Text} {value : Value} :
    readValue word = .ok value ↔ Value.parse word = .ok value :=
  mapError_eq_ok.trans mapError_eq_ok

theorem Request.operation_eq_ok {request : Request} {o : Operation} :
    request.operation = .ok o ↔ request.Denotes o := by
  constructor
  · intro h
    cases request with
    | delete | rename =>
        cases h
        constructor
    | update | mapAdd | seqAdd =>
        obtain ⟨value, hvalue, h⟩ := bind_eq_ok.mp h
        have hvalue := readValue_eq_ok.mp hvalue
        cases h
        constructor
        exact hvalue
  · intro h
    cases h with
    | delete | rename => rfl
    | update hvalue | mapAdd hvalue | seqAdd hvalue =>
        exact bind_eq_ok.mpr ⟨_, readValue_eq_ok.mpr hvalue, rfl⟩

theorem readScript_eq_ok {script : Text} {os : List Operation} :
    s.readScript script = .ok os ↔
      ∃ json, s.read (s.expand script) = .ok json ∧ Script.read json = .ok os := by
  unfold Surroundings.readScript
  dsimp only
  rw [bind_eq_ok]
  simp only [Task.during, mapError_eq_ok]

/-- A command that denotes operations applies them. -/
theorem runCommand_of_denotes {os : List Operation} (hedits : command.edits? = some (file, output))
    (h : command.Denotes s os) : s.runCommand command = s.edit file os output := by
  cases h with
  | request ho =>
      cases hedits
      simp only [Surroundings.runCommand]
      rw [Request.operation_eq_ok.mpr ho, ok_bind]
  | script hread hscript =>
      cases hedits
      simp only [Surroundings.runCommand]
      rw [readScript_eq_ok.mpr ⟨_, hread, hscript⟩, ok_bind]

/-- A command that goes well denotes operations. -/
theorem denotes_of_runCommand {outcome : Outcome} (hedits : command.edits? = some (file, output))
    (h : s.runCommand command = .ok outcome) : ∃ os, command.Denotes s os := by
  cases command with
  | get | schema => cases hedits
  | edit file request output =>
      obtain ⟨o, ho, -⟩ := bind_eq_ok.mp h
      exact ⟨[o], .request (Request.operation_eq_ok.mp ho)⟩
  | apply file script output =>
      obtain ⟨os, hos, -⟩ := bind_eq_ok.mp h
      obtain ⟨json, hread, hscript⟩ := readScript_eq_ok.mp hos
      exact ⟨os, .script hread hscript⟩

theorem openFile_eq_ok {path : Text} {e : Editor} :
    s.openFile file = .ok (path, e) ↔ path = s.expand file ∧
      ∃ content, s.read path = .ok content ∧ Editor.load content = .ok e := by
  unfold Surroundings.openFile
  dsimp only
  rw [bind_eq_ok]
  simp only [Task.during, mapError_eq_ok, bind_eq_ok]
  constructor
  · rintro ⟨_, ⟨content, hread, hload⟩, h⟩
    cases h
    exact ⟨rfl, content, hread, hload⟩
  · rintro ⟨rfl, content, hread, hload⟩
    exact ⟨e, ⟨content, hread, hload⟩, rfl⟩

/-- What is shown and written is known from the content of the file and the text made of it. -/
theorem shown_of_render (output : Output) {os : List Operation} {content text : Text}
    {e e' : Editor}
    (hload : Editor.load content = .ok e)
    (hrender : (os.foldl Editor.enqueue e).render = (e', .ok text)) :
    (if output.diff then e'.diff else if output.inPlace then [] else text) =
        output.shown content text ∧
      ∀ path, (if output.inPlace ∧ e'.isModified then some (path, text) else none) =
        output.written path content text := by
  have horiginal : e'.original = content := by
    have hrest := Editor.render_foldl_enqueue (Editor.resting_of_load hload) os
    rw [hrender] at hrest
    obtain rfl := congrArg Prod.fst hrest
    exact (Editor.consistent_of_load hload).original
  obtain rfl := Editor.text_of_render hrender
  refine ⟨by rw [Output.shown, Editor.diff, horiginal], fun path => ?_⟩
  rw [Output.written, Editor.isModified, horiginal]
  simp only [bne_iff_ne]

/-- **Whether operations go well only depends on what the library makes of them**, and so does all
that is shown and written. -/
theorem edit_eq_ok {os : List Operation} {outcome : Outcome} :
    s.edit file os output = .ok outcome ↔
      ∃ content e e' text, s.read (s.expand file) = .ok content ∧ Editor.load content = .ok e ∧
        (os.foldl Editor.enqueue e).render = (e', .ok text) ∧
        outcome = ⟨0, output.shown content text, [],
          output.written (s.expand file) content text⟩ := by
  unfold Surroundings.edit
  rw [bind_eq_ok]
  constructor
  · rintro ⟨⟨path, e⟩, hopen, h⟩
    obtain ⟨rfl, content, hread, hload⟩ := openFile_eq_ok.mp hopen
    obtain ⟨text, htext, h⟩ := bind_eq_ok.mp h
    have hrender : (os.foldl Editor.enqueue e).render =
        ((os.foldl Editor.enqueue e).render.1, .ok text) :=
      Prod.ext rfl (mapError_eq_ok.mp (mapError_eq_ok.mp htext))
    obtain ⟨hshown, hwritten⟩ := shown_of_render output hload hrender
    refine ⟨content, e, _, text, hread, hload, hrender, ?_⟩
    rw [← hshown, ← hwritten]
    exact (Except.ok.inj h).symm
  · rintro ⟨content, e, e', text, hread, hload, hrender, rfl⟩
    refine ⟨(s.expand file, e), openFile_eq_ok.mpr ⟨rfl, content, hread, hload⟩, ?_⟩
    obtain ⟨hshown, hwritten⟩ := shown_of_render output hload hrender
    dsimp only
    rw [hrender, ← hshown, ← hwritten]
    rfl

/-- A command goes well if and only if the library makes a text of its file. -/
theorem runCommand_eq_ok {outcome : Outcome} (hedits : command.edits? = some (file, output)) :
    s.runCommand command = .ok outcome ↔
      ∃ content text, command.Renders s file content text ∧
        outcome = ⟨0, output.shown content text, [],
          output.written (s.expand file) content text⟩ := by
  constructor
  · intro h
    obtain ⟨os, hos⟩ := denotes_of_runCommand hedits h
    rw [runCommand_of_denotes hedits hos] at h
    obtain ⟨content, e, e', text, hread, hload, hrender, rfl⟩ := edit_eq_ok.mp h
    exact ⟨content, text, .mk hos hread hload hrender, rfl⟩
  · rintro ⟨content, text, ⟨hos, hread, hload, hrender⟩, rfl⟩
    rw [runCommand_of_denotes hedits hos]
    exact edit_eq_ok.mpr ⟨content, _, _, text, hread, hload, hrender, rfl⟩

/-! ## Runs that break off -/

theorem halt_during_eq_crash {context : Text} {halt : Halt} {offset : BadOffset} :
    halt.during context = .crash offset ↔ halt = .crash offset := by
  cases halt with
  | failure f => exact ⟨nofun, nofun⟩
  | crash offset' => exact Iff.rfl

theorem halt_ofEdit_eq_crash {e : EditError} {offset : BadOffset} :
    Halt.ofEdit e = .crash offset ↔ e = .badOffset offset := by
  cases e with
  | badOffset offset' =>
      constructor
      · intro h
        cases h
        rfl
      · rintro ⟨⟩
        rfl
  | _ => exact ⟨nofun, nofun⟩

/-- What is said of a failure does not make a run break off, nor keep it from doing so. -/
theorem during_eq_crash {α : Type} {context : Text} {x : Task α} {offset : BadOffset} :
    x.during context = .error (.crash offset) ↔ x = .error (.crash offset) := by
  simp [Task.during, mapError_eq_error, halt_during_eq_crash]

theorem mapError_ofEdit_eq_crash {α : Type} {x : EditError.Result α} {offset : BadOffset} :
    x.mapError Halt.ofEdit = .error (.crash offset) ↔ x = .error (.badOffset offset) := by
  simp [mapError_eq_error, halt_ofEdit_eq_crash]

/-- A computation whose errors are failures does not break off. -/
theorem mapError_failure_ne_crash {α ε : Type} {x : Except ε α} {f : ε → Failure}
    {offset : BadOffset} : x.mapError (fun e => Halt.failure (f e)) ≠ .error (.crash offset) := by
  simp [mapError_eq_error]

theorem openFile_eq_crash {offset : BadOffset} :
    s.openFile file = .error (.crash offset) ↔
      ∃ content, s.read (s.expand file) = .ok content ∧
        Editor.load content = .error (.badOffset offset) := by
  unfold Surroundings.openFile
  dsimp only
  rw [bind_eq_error, during_eq_crash, bind_eq_error]
  constructor
  · rintro ((h | ⟨content, hread, h⟩) | ⟨_, _, h⟩)
    · exact absurd h mapError_failure_ne_crash
    · exact ⟨content, mapError_eq_ok.mp hread, mapError_ofEdit_eq_crash.mp h⟩
    · cases h
  · rintro ⟨content, hread, h⟩
    exact .inl (.inr ⟨content, mapError_eq_ok.mpr hread, mapError_ofEdit_eq_crash.mpr h⟩)

theorem edit_eq_crash {os : List Operation} {offset : BadOffset} :
    s.edit file os output = .error (.crash offset) ↔
      ∃ content, s.read (s.expand file) = .ok content ∧
        (Editor.load content = .error (.badOffset offset) ∨
          ∃ e e', Editor.load content = .ok e ∧
            (os.foldl Editor.enqueue e).render = (e', .error (.badOffset offset))) := by
  unfold Surroundings.edit
  rw [bind_eq_error, openFile_eq_crash]
  constructor
  · rintro (⟨content, hread, hload⟩ | ⟨⟨path, e⟩, hopen, h⟩)
    · exact ⟨content, hread, .inl hload⟩
    · obtain ⟨rfl, content, hread, hload⟩ := openFile_eq_ok.mp hopen
      dsimp only at h
      rcases bind_eq_error.mp h with h | ⟨text, -, h⟩
      · have hrender := mapError_ofEdit_eq_crash.mp (during_eq_crash.mp h)
        exact ⟨content, hread, .inr ⟨e, _, hload, Prod.ext rfl hrender⟩⟩
      · cases h
  · rintro ⟨content, hread, hload | ⟨e, e', hload, hrender⟩⟩
    · exact .inl ⟨content, hread, hload⟩
    · refine .inr ⟨(s.expand file, e), openFile_eq_ok.mpr ⟨rfl, content, hread, hload⟩, ?_⟩
      dsimp only
      rw [hrender]
      rfl

/-- **A command breaks off if and only if the library does.** -/
theorem runCommand_eq_crash {offset : BadOffset} (hedits : command.edits? = some (file, output)) :
    s.runCommand command = .error (.crash offset) ↔ command.BreaksOff s file offset := by
  constructor
  · intro h
    -- values and scripts that do not decode are failures
    have hdenotes : ∃ os, command.Denotes s os := by
      cases command with
      | get | schema => cases hedits
      | edit file request output =>
          rcases bind_eq_error.mp h with h | ⟨o, ho, -⟩
          · exfalso
            cases request with
            | delete | rename => cases h
            | update | mapAdd | seqAdd =>
                rcases bind_eq_error.mp h with h | ⟨_, _, h⟩
                · exact mapError_failure_ne_crash (during_eq_crash.mp h)
                · cases h
          · exact ⟨[o], .request (Request.operation_eq_ok.mp ho)⟩
      | apply file script output =>
          rcases bind_eq_error.mp h with h | ⟨os, hos, -⟩
          · exfalso
            rcases bind_eq_error.mp h with h | ⟨_, _, h⟩
            · exact mapError_failure_ne_crash (during_eq_crash.mp h)
            · exact mapError_failure_ne_crash (during_eq_crash.mp h)
          · obtain ⟨json, hread, hscript⟩ := readScript_eq_ok.mp hos
            exact ⟨os, .script hread hscript⟩
    obtain ⟨os, hos⟩ := hdenotes
    rw [runCommand_of_denotes hedits hos, edit_eq_crash] at h
    obtain ⟨content, hread, hload | ⟨e, e', hload, hrender⟩⟩ := h
    · exact .load hos hread hload
    · exact .render hos hread hload hrender
  · intro h
    cases h with
    | load hos hread hload =>
        rw [runCommand_of_denotes hedits hos]
        exact edit_eq_crash.mpr ⟨_, hread, .inl hload⟩
    | render hos hread hload hrender =>
        rw [runCommand_of_denotes hedits hos]
        exact edit_eq_crash.mpr ⟨_, hread, .inr ⟨_, _, hload, hrender⟩⟩

end Run

/-! ## Runs among files -/

/-- The files after a run. -/
def Files.after (files : Files) (outcome : Outcome) : Files :=
  match outcome.write with
  | none => files
  | some (path, content) =>
    match files.locate path with
    | .ok place => files.write place content
    | .error _ => files

/-- A text is written to the file at a path: every path that leads there gives the text, and no
other path leads to anything else than before. -/
structure Files.Written (files after : Files) (path text : Text) : Prop where
  places : ∀ other, after.locate other = files.locate other
  file : ∀ other, files.locate other = files.locate path → after.read other = .ok text
  others : ∀ other, files.locate other ≠ files.locate path → after.read other = files.read other

section Files

variable {files : Files} {path content text : Text}

/-- A file that holds the text already need not be written. -/
theorem Files.written_of_read (h : files.read path = .ok text) : files.Written files path text where
  places _ := rfl
  file other hsame := by
    rw [← h, read, read, hsame]
  others _ _ := rfl

/-- **A rendering is written to the file whose content it was made of.** -/
theorem Files.written_of_write {outcome : Outcome} {output : Output}
    (hplace : output.inPlace = true) (hread : files.read path = .ok content)
    (hempty : content = [] → text = [])
    (hwrite : outcome.write = output.written path content text) :
    files.Written (files.after outcome) path text := by
  unfold after
  rw [hwrite, Output.written]
  by_cases hsame : content = text
  · subst hsame
    rw [if_neg (fun h => h.2 rfl)]
    exact written_of_read hread
  · rw [if_pos ⟨hplace, hsame⟩]
    obtain ⟨place, hlocate, hcontent⟩ := map_eq_ok.mp hread
    simp only [hlocate]
    cases place with
    | below parts =>
        exact ⟨locate_write, fun other => (read_write hlocate other).1,
          fun other => (read_write hlocate other).2⟩
    | system parts => exact absurd (hcontent.symm.trans (hempty hcontent.symm).symm) hsame
    | around => cases isFile_of_locate hlocate

end Files

section Main

variable {files : Files} {home : Option Text} {arguments : List Text} {command : Command}
  {file : Text} {output : Output}

theorem run_of_ok {s : Surroundings} {outcome : Outcome} (hparse : parse arguments = .run command)
    (h : s.runCommand command = .ok outcome) : run s arguments = outcome := by
  simp only [run, hparse, h]

theorem run_of_error {s : Surroundings} {halt : Halt} (hparse : parse arguments = .run command)
    (h : s.runCommand command = .error halt) : run s arguments = halt.outcome := by
  simp only [run, hparse, h]

/-- **An edit on the command line is one rendering by the library, and writes only if that goes
well.** If the library breaks off at an offset inside a character, so does the program, with exit
code 101. If a value or the script does not decode, the file does not load or the rendering fails,
the exit code is 1. Either way nothing is printed and no file changes. Otherwise the exit code is 0.
In place, the file then holds the text and nothing else changes; else no file changes. Printed is
the diff where it is asked for, nothing where only the file is to change, and else the text. Two
edits of one file with the same options that denote the same operations, such as a request and a
script, come to the same. -/
theorem run_eq_rendering (files : Files) (home : Option Text)
    (hparse : parse arguments = .run command)
    (hedits : command.edits? = some (file, output)) :
    let s : Surroundings := ⟨files.read, home⟩
    let outcome := run s arguments
    ((¬ ∃ content text, command.Renders s file content text) →
      (outcome.code = 101 ↔ ∃ offset, command.BreaksOff s file offset) ∧
      ((¬ ∃ offset, command.BreaksOff s file offset) → outcome.code = 1) ∧
      outcome.stdout = [] ∧ files.after outcome = files) ∧
    (∀ content text, command.Renders s file content text →
      outcome.code = 0 ∧ outcome.stdout = output.shown content text ∧
      (output.inPlace = true → files.Written (files.after outcome) (s.expand file) text) ∧
      (output.inPlace = false → files.after outcome = files)) ∧
    ∀ arguments' command' os, parse arguments' = .run command' →
      command'.edits? = some (file, output) → command.Denotes s os → command'.Denotes s os →
      run s arguments' = outcome := by
  intro s outcome
  refine ⟨fun hnone => ?_, fun content text hrenders => ?_, ?_⟩
  · cases hcommand : s.runCommand command with
    | ok outcome' =>
        obtain ⟨content, text, hrenders, -⟩ := (runCommand_eq_ok hedits).mp hcommand
        exact absurd ⟨content, text, hrenders⟩ hnone
    | error halt =>
        have hrun : outcome = halt.outcome := run_of_error hparse hcommand
        rw [hrun]
        cases halt with
        | crash offset =>
            have hbreaks := (runCommand_eq_crash hedits).mp hcommand
            exact ⟨⟨fun _ => ⟨offset, hbreaks⟩, fun _ => rfl⟩, fun h => absurd ⟨offset, hbreaks⟩ h,
              rfl, rfl⟩
        | failure f =>
            refine ⟨⟨nofun, fun ⟨offset, hbreaks⟩ => ?_⟩, fun _ => rfl, rfl, rfl⟩
            cases hcommand.symm.trans ((runCommand_eq_crash hedits).mpr hbreaks)
  · have hrun : outcome = ⟨0, output.shown content text, [],
        output.written (s.expand file) content text⟩ :=
      run_of_ok hparse ((runCommand_eq_ok hedits).mpr ⟨content, text, hrenders, rfl⟩)
    obtain ⟨-, hread, hload, hrender⟩ := hrenders
    refine ⟨by rw [hrun], by rw [hrun], fun hplace => ?_, fun hplace => ?_⟩
    · refine Files.written_of_write hplace hread ?_ (by rw [hrun])
      rintro rfl
      exact Editor.text_of_render_empty hload hrender
    · unfold Files.after
      rw [hrun, Output.written, if_neg (by simp [hplace])]
  · intro arguments' command' os hparse' hedits' hos hos'
    have hcommand : s.runCommand command' = s.runCommand command := by
      rw [runCommand_of_denotes hedits' hos', runCommand_of_denotes hedits hos]
    cases h : s.runCommand command with
    | ok outcome' =>
        exact (run_of_ok hparse' (hcommand.trans h)).trans (run_of_ok hparse h).symm
    | error halt =>
        exact (run_of_error hparse' (hcommand.trans h)).trans (run_of_error hparse h).symm

end Main

/-- A request that is carried out, a script that denotes the same, and one that fails after its
first operation has been applied. -/
theorem run_eq_rendering_in_place :
    ∃ files : Files, ∃ request script failing,
      files = [("f".toList, "a: 1\nb: 2\n".toList),
        ("s".toList, "[\x7b\"op\":\"delete\",\"path\":\"b\"\x7d]".toList),
        ("t".toList, ("[\x7b\"op\":\"delete\",\"path\":\"b\"\x7d," ++
          "\x7b\"op\":\"delete\",\"path\":\"b\"\x7d]").toList)] ∧
      request = ["delete", "f", "b", "--in-place"].map (·.toList) ∧
      script = ["apply", "-i", "f", "s"].map (·.toList) ∧
      failing = ["apply", "-i", "f", "t"].map (·.toList) ∧
      (run ⟨files.read, none⟩ request).code = 0 ∧
      (run ⟨files.read, none⟩ request).stdout = [] ∧
      files.Written (files.after (run ⟨files.read, none⟩ request)) "f".toList "a: 1\n".toList ∧
      run ⟨files.read, none⟩ script = run ⟨files.read, none⟩ request ∧
      (run ⟨files.read, none⟩ failing).code = 1 ∧
      files.after (run ⟨files.read, none⟩ failing) = files := by
  obtain ⟨files, hfiles⟩ : ∃ files : Files, files = [("f".toList, "a: 1\nb: 2\n".toList),
      ("s".toList, "[\x7b\"op\":\"delete\",\"path\":\"b\"\x7d]".toList),
      ("t".toList, ("[\x7b\"op\":\"delete\",\"path\":\"b\"\x7d," ++
        "\x7b\"op\":\"delete\",\"path\":\"b\"\x7d]").toList)] := ⟨_, rfl⟩
  have hrequest : parse (["delete", "f", "b", "--in-place"].map (·.toList)) =
      .run (.edit "f".toList (.delete "b".toList) ⟨true, false⟩) := by decide +kernel
  have hscript : parse (["apply", "-i", "f", "s"].map (·.toList)) =
      .run (.apply "f".toList "s".toList ⟨true, false⟩) := by decide +kernel
  have hfailing : parse (["apply", "-i", "f", "t"].map (·.toList)) =
      .run (.apply "f".toList "t".toList ⟨true, false⟩) := by decide +kernel
  -- the script reads as the operation of the request
  have hos : Script.read "[\x7b\"op\":\"delete\",\"path\":\"b\"\x7d]".toList =
      .ok [.delete "b".toList] := rfl
  obtain ⟨e, hload, htext⟩ := Editor.exists_load "a: 1\nb: 2\n".toList
    (P := fun e => ([Operation.delete "b".toList].foldl Editor.enqueue e).render.2.toOption =
      some "a: 1\n".toList)
    (by decide +kernel)
  have hread : files.read "f".toList = .ok "a: 1\nb: 2\n".toList := by
    subst hfiles
    rfl
  have hreadScript : files.read "s".toList =
      .ok "[\x7b\"op\":\"delete\",\"path\":\"b\"\x7d]".toList := by
    subst hfiles
    rfl
  obtain ⟨-, hwell, hsame⟩ := run_eq_rendering files none hrequest rfl
  obtain ⟨hcode, hstdout, hwritten, -⟩ := hwell "a: 1\nb: 2\n".toList "a: 1\n".toList
    (.mk (.request .delete) hread hload (Prod.ext rfl (toOption_eq_some.mp htext)))
  obtain ⟨hfails, hwell', -⟩ := run_eq_rendering files none hfailing rfl
  have hone : (run ⟨files.read, none⟩ (["apply", "-i", "f", "t"].map (·.toList))).code = 1 := by
    subst hfiles
    decide +kernel
  obtain ⟨-, -, -, hafter⟩ := hfails (by
    rintro ⟨content, text, hrenders⟩
    cases hone.symm.trans (hwell' content text hrenders).1)
  exact ⟨files, _, _, _, hfiles, rfl, rfl, rfl, hcode, hstdout, hwritten rfl,
    hsame _ _ _ hscript rfl (.request .delete) (.script hreadScript hos), hone, hafter⟩

/-- **A file that does not load can make a run break off** where it should fail with exit code 1:
the search for the dash of an item ends inside a blank of the comment. -/
theorem run_breaks_off_behind_comment :
    ∃ files : Files, ∃ arguments command output,
      files = [("f".toList, "- # c\u00a0d\n  x\n".toList)] ∧
      arguments = ["delete", "f", "9"].map (·.toList) ∧ parse arguments = .run command ∧
      command.edits? = some ("f".toList, output) ∧
      Editor.load "- # c\u00a0d\n  x\n".toList = .error (.badOffset ⟨6⟩) ∧
      (¬ ∃ content text, command.Renders ⟨files.read, none⟩ "f".toList content text) ∧
      (run ⟨files.read, none⟩ arguments).code = 101 := by
  have hload : Editor.load "- # c\u00a0d\n  x\n".toList = .error (.badOffset ⟨6⟩) :=
    EditError.Result.eq_of_offset? (by decide +kernel)
  have hparse : parse (["delete", "f", "9"].map (·.toList)) =
      .run (.edit "f".toList (.delete "9".toList) ⟨false, false⟩) := by decide +kernel
  refine ⟨_, _, _, ⟨false, false⟩, rfl, rfl, hparse, rfl, hload, ?_, by decide +kernel⟩
  rintro ⟨content, text, ⟨-, hread, hcontent, -⟩⟩
  cases hread
  cases hload.symm.trans hcontent

end CommandLine

end YamlEdit
