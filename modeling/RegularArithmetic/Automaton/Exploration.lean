import Std.Data.TreeMap
import RegularArithmetic.Automaton.Reduction

/-!
Automata whose states stand for combinations of other states, made as far as they are met:
subsets for determinization, pairs for products.
-/

set_option autoImplicit false

namespace RegularArithmetic

open Diagram (Edge)

/-- The state with number `i` stands for the `i`-th combination. -/
structure Exploration where
  combinations : Array (List Nat)
  numbers : Std.TreeMap (List Nat) Nat
  states : Array State

namespace Exploration

/-- How the state for a combination is made: whether it accepts, and its moves to further
combinations. -/
structure Rule where
  accepting : List Nat → Except Fault Bool
  moves : List Nat → Diagram.M (List (List Nat × Edge))

/-- Only the initial combination is met. -/
def start (rule : Rule) (c : List Nat) : Except Fault Exploration := do
  return ⟨#[c], (∅ : Std.TreeMap (List Nat) Nat).insert c 0, #[⟨← rule.accepting c, []⟩]⟩

/-- The state for a combination, which is made if it is new and the budget allows it. -/
def meet (rule : Rule) (x : Exploration) (c : List Nat) : Alphabet.M (Nat × Exploration) := do
  match x.numbers[c]? with
  | some q => return (q, x)
  | none =>
    let ⟨combinations, numbers, states⟩ := x
    let q := states.size
    Alphabet.spend (q + 1)
    let accepting ← rule.accepting c
    return (q, ⟨combinations.push c, numbers.insert c q, states.push ⟨accepting, []⟩⟩)

def addMove (q : Nat) (x : Exploration) (m : Move) : Exploration :=
  { x with states := x.states.modify q fun s => { s with moves := s.moves ++ [m] } }

/-- Makes the moves of the states from `q` on, up to so many states. -/
def runFrom (rule : Rule) : Nat → Nat → Exploration → Alphabet.M Exploration
  | 0, _, x => pure x
  | left + 1, q, x => do
    match x.combinations[q]? with
    | none => return x
    | some c =>
      let x ← (← rule.moves c).foldlM (fun x (d, label) => do
        let (t, x) ← meet rule x d
        return x.addMove q ⟨t, label⟩) x
      runFrom rule left (q + 1) x

/-- The automaton of all combinations that can be met from `c`, of which there are no more than
`bound`. -/
def run (rule : Rule) (c : List Nat) (bound : Nat) (props : NumberSet) : Alphabet.M Automaton := do
  let x ← runFrom rule bound 0 (← start rule c)
  return ⟨x.states, props⟩

end Exploration

namespace Automaton

/-- Splits each region by a label: the letters inside it may also move to `m.target`. -/
def divide (regions : List (Edge × List Nat)) (m : Move) : Diagram.M (List (Edge × List Nat)) := do
  let parts ← regions.mapM fun (region, targets) => do
    let inside ← Diagram.conj region m.label
    let outside ← Diagram.conj region (-m.label)
    let within := if inside = .zero then [] else [(inside, NumberSet.place m.target targets)]
    let without := if outside = .zero then [] else [(outside, targets)]
    return within ++ without
  return parts.flatten

/-- The sets of states that can be entered from a set of states, each with the letters that
lead exactly there. -/
def subsetMoves (a : Automaton) (qs : List Nat) : Diagram.M (List (List Nat × Edge)) := do
  let moves ← qs.mapM fun q => liftM (a.moves q)
  let regions ← moves.flatten.foldlM divide [(.one, [])]
  gather (regions.filterMap fun (region, targets) =>
    if targets.isEmpty then none else some (targets, region))

/-- The subset construction, unless the automaton is deterministic already. -/
def determinize (a : Automaton) : Alphabet.M Automaton := do
  if ← a.isDeterministic then return a
  Exploration.run ⟨fun qs => qs.anyM a.isAccepting, a.subsetMoves⟩ [0] (Nat.pow 2 a.size) a.props

/-- A deterministic automaton without superfluous states. -/
def finish (a : Automaton) : Alphabet.M Automaton := do
  (← a.determinize).reduce

/-- The joint moves from a pair of states, on the letters that both sides take. -/
def pairMoves (a b : Automaton) (qs : List Nat) : Diagram.M (List (List Nat × Edge)) := do
  match qs with
  | [p, q] =>
    let left ← a.moves p
    let right ← b.moves q
    let joint ← left.mapM fun m => right.mapM fun n => do
      return ([m.target, n.target], ← Diagram.conj m.label n.label)
    return joint.flatten.filter (·.2 ≠ .zero)
  | _ => return []

/-- Runs two automata side by side; `accept` combines their answers. -/
def product (a b : Automaton) (accept : Bool → Bool → Bool) : Alphabet.M Automaton := do
  let accepting (qs : List Nat) : Except Fault Bool :=
    match qs with
    | [p, q] => do
      let x ← a.isAccepting p
      let y ← b.isAccepting q
      return accept x y
    | _ => .ok false
  let c ← Exploration.run ⟨accepting, a.pairMoves b⟩ [0, 0] (a.size * b.size)
    (a.props.union b.props)
  c.reduce

/-- Accepts what both accept. -/
def intersect (a b : Automaton) : Alphabet.M Automaton :=
  a.product b (· && ·)

end Automaton

end RegularArithmetic
