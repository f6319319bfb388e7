import Std.Data.TreeMap
import RegularArithmetic.Automaton.Search
import RegularArithmetic.Store.Sorting

/-!
Automata without superfluous states: first the states are dropped that lie on no accepting run,
then the states are merged that accept the same words.
-/

set_option autoImplicit false

namespace RegularArithmetic

open Diagram (Edge)

/-- Widens the label of a key in a list with increasing keys. -/
def widen {κ : Type} [Ord κ] (k : κ) (e : Edge) : List (κ × Edge) → Diagram.M (List (κ × Edge))
  | [] => return [(k, ← Diagram.disj .zero e)]
  | (l, f) :: rest => do
    match compare k l with
    | .lt => return (k, ← Diagram.disj .zero e) :: (l, f) :: rest
    | .eq => return (l, ← Diagram.disj f e) :: rest
    | .gt => return (l, f) :: (← widen k e rest)

/-- The disjunction of the labels with each key, by increasing keys. -/
def gather {κ : Type} [Ord κ] (labels : List (κ × Edge)) : Diagram.M (List (κ × Edge)) :=
  labels.foldlM (fun acc (k, e) => widen k e acc) []

namespace Automaton

def numbering (n : Nat) (order : List Nat) : Array (Option Nat) :=
  order.zipIdx.foldl (fun a (q, i) => a.setIfInBounds q (some i)) (Array.replicate n none)

/-- Drops the states that cannot be reached and those that cannot reach acceptance. The others
are numbered in the order in which a breadth-first search meets them. -/
def trim (a : Automaton) : Except Fault Automaton := do
  let (met, _) ← (Search.startAt a.size 0).run a.moves fun _ => .ok false
  a.requireClosed
  let useful ← leadingTo (a.states.map fun s => s.moves.map (·.target))
    (a.states.map (·.accepting))
  if !useful.getD 0 false then return { empty with props := a.props }
  let order := met.order.filter fun q => useful.getD q false
  let number := numbering a.size order
  let states := order.map fun q =>
    let s := a.states.getD q default
    let moves := s.moves.filterMap fun m =>
      (number.getD m.target none).map fun t => ⟨t, m.label⟩
    { s with moves := inOrder (fun m n => m.target ≤ n.target) moves }
  return ⟨states.toArray, a.props⟩

/-- What distinguishes a state so far: its block, and the letters that lead into each block. -/
def signature (block : Array Nat) (q : Nat) (s : State) : Diagram.M (List Int) := do
  let into ← gather (s.moves.map fun m => (block.getD m.target 0, m.label))
  return (block.getD q 0 : Int) :: into.flatMap fun (b, e) => [(b : Int), e.code]

/-- Splits the blocks by signature; the new blocks are numbered by first occurrence. -/
def refine (a : Automaton) (block : Array Nat) : Diagram.M (Array Nat × Nat) := do
  let (numbers, next) ← a.states.toList.zipIdx.foldlM
    (fun ((numbers : Std.TreeMap (List Int) Nat), (next : Array Nat)) (s, q) => do
      let key ← signature block q s
      match numbers[key]? with
      | some b => return (numbers, next.push b)
      | none => return (numbers.insert key numbers.size, next.push numbers.size))
    (∅, #[])
  return (next, numbers.size)

/-- Refines until the number of blocks stays the same, at most the given number of times. -/
def refineUntilStable (a : Automaton) : Nat → Array Nat × Nat → Diagram.M (Array Nat × Nat)
  | 0, blocks => pure blocks
  | rounds + 1, (block, count) => do
    let (next, count') ← a.refine block
    if count' = count then return (next, count')
    a.refineUntilStable rounds (next, count')

def initialBlocks (a : Automaton) : Array Nat × Nat :=
  let block := a.states.map (·.accepting.toNat)
  (block, block.toList.eraseDups.length)

/-- Merges the states of a deterministic automaton that agree on acceptance and on the letters
into each block. The blocks are numbered as a breadth-first search meets them. -/
def minimize (a : Automaton) : Diagram.M Automaton := do
  a.requireClosed
  let (block, count) ← a.refineUntilStable (a.size + 1) a.initialBlocks
  let blockOf (q : Nat) : Nat := block.getD q 0
  let leader := block.toList.zipIdx.foldr (fun (b, q) l => l.setIfInBounds b q)
    (Array.replicate count 0)
  let stateOf (b : Nat) : State := a.states.getD (leader.getD b 0) default
  let (met, _) ← (Search.startAt count (blockOf 0)).run
    (fun b => .ok ((stateOf b).moves.map fun m => ⟨blockOf m.target, m.label⟩)) fun _ => .ok false
  let number := numbering count met.order
  let states ← met.order.mapM fun b => do
    let s := stateOf b
    let moves ← s.moves.foldlM (fun acc m => do
      match number.getD (blockOf m.target) none with
      | some t => merge acc ⟨t, m.label⟩
      | none => return acc) []
    return { s with moves }
  return ⟨states.toArray, a.props⟩

/-- Trims, then minimizes. -/
def reduce (a : Automaton) : Diagram.M Automaton := do
  (← a.trim).minimize

end Automaton

end RegularArithmetic
