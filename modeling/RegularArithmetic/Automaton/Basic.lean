import RegularArithmetic.Alphabet
import RegularArithmetic.NumberSet
import RegularArithmetic.Diagram.Paths

/-!
Finite automata whose letters assign a truth value to every proposition. A move is taken on the
letters that satisfy its label. An automaton may be partial: a letter that no move takes
rejects the word. State 0 is the initial state.
-/

set_option autoImplicit false

namespace RegularArithmetic

open Diagram (Edge)

/-- A move to a state, on the letters that satisfy the label. -/
structure Move where
  target : Nat
  label : Edge
  deriving DecidableEq, Repr, Inhabited

structure State where
  accepting : Bool
  moves : List Move
  deriving DecidableEq, Repr, Inhabited

/-- The states by their numbers, and the propositions the automaton is about, which may include
some that no label tests. -/
structure Automaton where
  states : Array State
  props : NumberSet
  deriving DecidableEq

/-- The propositions that a letter makes true. -/
abbrev Letter := NumberSet

namespace Automaton

/-- Accepts nothing. -/
def empty : Automaton := ⟨#[⟨false, []⟩], ∅⟩

def universal : Automaton := ⟨#[⟨true, [⟨0, .one⟩]⟩], ∅⟩

instance : Inhabited Automaton := ⟨empty⟩

def size (a : Automaton) : Nat := a.states.size

/-- The state with number `q`. -/
def state (a : Automaton) (q : Nat) : Except Fault State :=
  match a.states[q]? with
  | some s => .ok s
  | none => .error .missingState

def isAccepting (a : Automaton) (q : Nat) : Except Fault Bool :=
  return (← a.state q).accepting

def acceptingStates (a : Automaton) : List Nat :=
  (List.range a.size).filter fun q => (a.states.getD q default).accepting

def allMoves (a : Automaton) : List (Nat × Move) :=
  a.states.toList.zipIdx.flatMap fun (s, q) => s.moves.map (q, ·)

def moveCount (a : Automaton) : Nat := a.allMoves.length

def isClosed (a : Automaton) : Bool :=
  a.states.all fun s => s.moves.all (·.target < a.size)

/-- Faults unless every move leads to a state of the automaton. -/
def requireClosed (a : Automaton) : Except Fault Unit :=
  if a.isClosed then .ok () else .error .missingState

def withProps (a : Automaton) (ps : List Nat) : Automaton :=
  { a with props := a.props.insertAll ps }

/-- `n` states, at least one, none of them accepting or with a move. -/
def blank (n : Nat) : Automaton := ⟨Array.replicate (max n 1) ⟨false, []⟩, ∅⟩

def setAccepting (a : Automaton) (q : Nat) (accepting : Bool) : Except Fault Automaton :=
  if q < a.size then
    .ok { a with states := a.states.modify q fun s => { s with accepting } }
  else .error .missingState

/-- Adds a move to a list with at most one move to each state: a second move to the same state
widens the label of the first, and an unsatisfiable move is left out. -/
def merge (moves : List Move) (m : Move) : Diagram.M (List Move) := do
  if m.label = .zero then return moves
  match moves.span (·.target ≠ m.target) with
  | (_, []) => return moves ++ [m]
  | (before, n :: behind) =>
    return before ++ ⟨n.target, ← Diagram.disj n.label m.label⟩ :: behind

def addMove (a : Automaton) (q : Nat) (m : Move) : Diagram.M Automaton := do
  if m.label = .zero then return a
  let s ← a.state q
  let moves ← merge s.moves m
  return { a with states := a.states.setIfInBounds q { s with moves } }

def areDisjoint : List Edge → Diagram.M Bool
  | [] => pure true
  | c :: cs => do
    if ← cs.allM fun d => return (← Diagram.conj c d) = .zero then areDisjoint cs
    else return false

def isDeterministic (a : Automaton) : Diagram.M Bool :=
  a.states.toList.allM fun s => areDisjoint (s.moves.map (·.label))

/-- The state after the word, by the first move that takes each letter. -/
def follow (a : Automaton) (s : Diagram.Store) (q : Nat) : List Letter → Except Fault (Option Nat)
  | [] => .ok (some q)
  | l :: w => do
    let taken ← (← a.state q).moves.findM? fun m => s.eval (· ∈ l) m.label
    match taken with
    | some m => a.follow s m.target w
    | none => return none

/-- Whether the word leads from the initial state to an accepting one. -/
def accepts (a : Automaton) (w : List Letter) : Diagram.M Bool := Diagram.ask fun s => do
  match ← a.follow s 0 w with
  | some q => a.isAccepting q
  | none => return false

end Automaton

end RegularArithmetic
