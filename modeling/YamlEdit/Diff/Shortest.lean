import YamlEdit.Diff.Basic

/-!
# Shortest differences

`Diff.shortest` looks for a diff with the fewest removed and added lines. Two searches run towards
each other, one from either end: a search of depth `d` knows for every diagonal how far one gets
with `d` removals and additions. Where the searches meet the problem is cut in two.
-/

namespace YamlEdit

namespace Diff

/-! ## Common ends -/

/-- How many lines at the start are the same. -/
def commonPrefixSize : List Text → List Text → Nat
  | a :: as, b :: bs => if a = b then commonPrefixSize as bs + 1 else 0
  | _, _ => 0

/-- How many lines at the end are the same. -/
def commonSuffixSize (as bs : List Text) : Nat := commonPrefixSize as.reverse bs.reverse

/-! ## The two searches -/

/-- How far a search got on every diagonal, `none` where it has not been. -/
abbrev Reach := List (Int × Nat)

/-- Zero where the search has not been. -/
def Reach.get (r : Reach) (diagonal : Int) : Nat := (r.lookup diagonal).getD 0

/-- The diagonals of a search of depth `d`, the greatest one first. -/
def diagonals (d : Nat) : List Int :=
  (List.range (d + 1)).map fun (i : Nat) => (d : Int) - 2 * (i : Int)

/-- Where a search of depth `d` enters a diagonal: from a neighbour, with one step. -/
def enter (r : Reach) (d : Nat) (k : Int) : Nat :=
  if k = -d ∨ (k ≠ d ∧ r.get (k - 1) < r.get (k + 1)) then r.get (k + 1) else r.get (k - 1) + 1

/-- One row of a search over `as` and `bs`, which are reversed for the backward one. `met` tells
whether the other search has got as far. The result is what is reached, and the start and end of
the step that met. -/
def row (as bs : List Text) (d : Nat) (met : Int → Nat → Bool) :
    List Int → Reach → Reach × Option ((Nat × Nat) × (Nat × Nat))
  | [], r => (r, none)
  | k :: rest, r =>
    let x := enter r d k
    let y := (x - k).toNat
    let common := commonPrefixSize (as.drop x) (bs.drop y)
    let r := (k, x + common) :: r
    if met k (x + common) then (r, some ((x, y), (x + common, y + common)))
    else row as bs d met rest r

/-- Runs both searches from depth `d` on, until they meet: a place on a shortest way, as counts of
old and new lines. -/
def meeting (as bs : List Text) : (fuel : Nat) → (d : Nat) → Reach → Reach → Option (Nat × Nat)
  | 0, _, _, _ => none
  | fuel + 1, d, forward, backward =>
    let n := as.length
    let delta : Int := n - bs.length
    let isOdd := delta % 2 ≠ 0
    let metForward := fun (k : Int) (x : Nat) =>
      isOdd && (k - delta).natAbs + 1 ≤ d && n ≤ x + backward.get (delta - k)
    match row as bs d metForward (diagonals d) forward with
    | (_, some (start, _)) => some start
    | (forward, none) =>
      let metBackward := fun (k : Int) (x : Nat) =>
        !isOdd && (k - delta).natAbs ≤ d && n ≤ x + forward.get (delta - k)
      match row as.reverse bs.reverse d metBackward (diagonals d) backward with
      | (_, some (_, (x, y))) => some (n - x, bs.length - y)
      | (backward, none) => meeting as bs fuel (d + 1) forward backward

/-- A run, unless it is empty. -/
def runOf (mode : Mode) (lines : List Text) : Diff := if lines.isEmpty then [] else [⟨mode, lines⟩]

/-- The diff of two lists, cut at the meeting places of the searches. -/
def split : (fuel : Nat) → List Text → List Text → Diff
  | 0, as, bs => runOf .remove as ++ runOf .add bs
  | fuel + 1, as, bs =>
    let front := commonPrefixSize as bs
    let as' := as.drop front
    let bs' := bs.drop front
    let back := commonSuffixSize as' bs'
    let as'' := as'.take (as'.length - back)
    let bs'' := bs'.take (bs'.length - back)
    let middle :=
      if as''.isEmpty then runOf .add bs''
      else if bs''.isEmpty then runOf .remove as''
      else match meeting as'' bs'' (as''.length + bs''.length + 1) 0 [(1, 0)] [(1, 0)] with
        | none => runOf .remove as'' ++ runOf .add bs''
        | some (x, y) =>
          split fuel (as''.take x) (bs''.take y) ++ split fuel (as''.drop x) (bs''.drop y)
    runOf .keep (as.take front) ++ middle ++ runOf .keep (as'.drop (as'.length - back))

/-- A diff with the fewest removed and added lines. -/
def shortest (old new : List Text) : Diff := split (old.length + new.length + 1) old new

end Diff

end YamlEdit
