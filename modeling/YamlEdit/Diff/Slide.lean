import YamlEdit.Diff.Basic

/-!
# Sliding

Removed or added lines between kept ones can often slide up or down without a change of either
side: a run whose last line equals the kept line in front of it can take that line instead. Sliding
up as far as possible and then down brings together runs that belong together.
-/

namespace YamlEdit

namespace Diff

/-- A diff with a run in focus; `before` is listed from the focus backwards. -/
structure Focus where
  before : List Run
  run : Run
  after : List Run

/-- Puts a kept line in front of runs. -/
def consKept (line : Text) : List Run → List Run
  | ⟨.keep, lines⟩ :: rest => ⟨.keep, line :: lines⟩ :: rest
  | runs => ⟨.keep, [line]⟩ :: runs

/-- Puts a kept line behind runs that are listed backwards. -/
def snocKept (line : Text) : List Run → List Run
  | ⟨.keep, lines⟩ :: rest => ⟨.keep, lines ++ [line]⟩ :: rest
  | runs => ⟨.keep, [line]⟩ :: runs

/-- Runs in front of which a kept run may be empty. -/
def dropEmptyKept : List Run → List Run
  | ⟨.keep, []⟩ :: rest => rest
  | runs => runs

/-- Slides the run in focus up: past kept lines that it can take, past runs of the other mode, and
into runs of its own. -/
def slideUp : (fuel : Nat) → Focus → Focus
  | 0, f => f
  | fuel + 1, f =>
    match f.before with
    | [] => f
    | previous :: before =>
      if previous.mode = .keep then
        match previous.lines.getLast?, f.run.lines.getLast? with
        | some kept, some last =>
          if kept = last then
            slideUp fuel
              { before := dropEmptyKept (⟨.keep, previous.lines.dropLast⟩ :: before)
                run := ⟨f.run.mode, kept :: f.run.lines.dropLast⟩
                after := consKept kept f.after }
          else f
        | _, _ => f
      else if previous.mode = f.run.mode then
        slideUp fuel { f with before := before, run := ⟨f.run.mode, previous.lines ++ f.run.lines⟩ }
      else slideUp fuel { f with before := before, after := previous :: f.after }

/-- Slides the run in focus down. -/
def slideDown : (fuel : Nat) → Focus → Focus
  | 0, f => f
  | fuel + 1, f =>
    match f.after with
    | [] => f
    | next :: after =>
      if next.mode = .keep then
        match next.lines, f.run.lines with
        | kept :: rest, first :: lines =>
          if kept = first then
            slideDown fuel
              { before := snocKept kept f.before
                run := ⟨f.run.mode, lines ++ [kept]⟩
                after := dropEmptyKept (⟨.keep, rest⟩ :: after) }
          else f
        | _, _ => f
      else if next.mode = f.run.mode then
        slideDown fuel { f with run := ⟨f.run.mode, f.run.lines ++ next.lines⟩, after := after }
      else slideDown fuel { f with before := next :: f.before, after := after }

/-- Slides every run of the given mode, from the first one on; `reach` bounds a slide. -/
def slideAll (mode : Mode) (reach : Nat) :
    (fuel : Nat) → (before after : List Run) → Diff
  | 0, before, after => before.reverse ++ after
  | _ + 1, before, [] => before.reverse
  | fuel + 1, before, run :: after =>
    if run.mode = mode then
      let f := slideDown reach (slideUp reach ⟨before, run, after⟩)
      slideAll mode reach fuel (f.run :: f.before) f.after
    else slideAll mode reach fuel (run :: before) after

/-- The same diff with its runs slid: first the removed lines, then the added ones. -/
def slide (d : Diff) : Diff :=
  let reach := d.length + (d.flatMap (·.lines)).length + 1
  slideAll .add reach reach [] (slideAll .remove reach reach [] d)

end Diff

end YamlEdit
