import RegularArithmetic.Automaton.Basic

/-!
Breadth-first search through the states, and the closure of a set of states under "has a move
into the set". Both end because a state is met, or marked, only once.
-/

set_option autoImplicit false

namespace RegularArithmetic

open Diagram (Edge)

/-- A state that was met, with the labels of the moves that led there, last first. -/
structure Visit where
  state : Nat
  path : List Edge
  deriving Repr, Inhabited

/-- The states in the order they were met, and which states these are. -/
structure Search where
  seen : Array Bool
  visits : Array Visit

namespace Search

/-- Nothing is met among `n` states. -/
def blank (n : Nat) : Search := ⟨Array.replicate n false, #[]⟩

/-- Meets the target of a move, if for the first time. -/
def meet (path : List Edge) (w : Search) (m : Move) : Except Fault Search :=
  match w.seen[m.target]? with
  | none => .error .missingState
  | some true => .ok w
  | some false =>
    let ⟨seen, visits⟩ := w
    .ok ⟨seen.setIfInBounds m.target true, visits.push ⟨m.target, m.label :: path⟩⟩

/-- Only state `q` is met. -/
def startAt (n q : Nat) : Search :=
  ⟨(Array.replicate n false).setIfInBounds q true, #[⟨q, []⟩]⟩

/-- Leaves the met states from the `i`-th on, up to so many, until one is to be stopped at. -/
def runFrom (moves : Nat → Except Fault (List Move)) (stop : Nat → Except Fault Bool) :
    Nat → Nat → Search → Except Fault (Search × Option Visit)
  | 0, _, w => .ok (w, none)
  | left + 1, i, w =>
    match w.visits[i]? with
    | none => .ok (w, none)
    | some v => do
      if ← stop v.state then return (w, some v)
      let w ← (← moves v.state).foldlM (meet v.path) w
      runFrom moves stop left (i + 1) w

/-- Searches among `w.seen.size` states, the earlier met first. -/
def run (moves : Nat → Except Fault (List Move)) (stop : Nat → Except Fault Bool) (w : Search) :
    Except Fault (Search × Option Visit) :=
  runFrom moves stop w.seen.size 0 w

/-- The met states in their order. -/
def order (w : Search) : List Nat := w.visits.toList.map (·.state)

end Search

/-- Marks, in increasing order, the states with a successor that is marked by then. -/
def sweep (next : Array (List Nat)) (marks : Array Bool) : Except Fault (Array Bool × Bool) :=
  (List.range marks.size).foldlM (fun (marks, changed) q => do
    if marks.getD q false then return (marks, changed)
    let hit ← (next.getD q []).anyM fun t =>
      match marks[t]? with
      | some b => .ok b
      | none => .error .missingState
    if hit then return (marks.setIfInBounds q true, true)
    return (marks, changed)) (marks, false)

/-- Sweeps until nothing changes, at most the given number of times. -/
def sweeps (next : Array (List Nat)) : Nat → Array Bool → Except Fault (Array Bool)
  | 0, marks => .ok marks
  | n + 1, marks => do
    let (marks, changed) ← sweep next marks
    if changed then sweeps next n marks else return marks

def leadingTo (next : Array (List Nat)) (marks : Array Bool) : Except Fault (Array Bool) :=
  sweeps next (marks.size + 1) marks

namespace Automaton

def moves (a : Automaton) (q : Nat) : Except Fault (List Move) :=
  return (← a.state q).moves

def findAccepting (a : Automaton) : Except Fault (Option Visit) := do
  return (← (Search.startAt a.size 0).run a.moves a.isAccepting).2

/-- No word is accepted, if every label is satisfiable. -/
def isEmpty (a : Automaton) : Except Fault Bool := do
  return (← a.findAccepting).isNone

/-- A shortest accepted word, with false for every proposition where that is possible. -/
def acceptedWord? (a : Automaton) : Diagram.M (Option (List Letter)) := Diagram.ask fun s => do
  match ← a.findAccepting with
  | none => return none
  | some v =>
    let letters ← v.path.mapM fun label => do
      return (← s.someCube? label).map fun cube =>
        NumberSet.ofList ((cube.filter (0 < ·)).map Int.toNat)
    return (letters.mapM id).map List.reverse

end Automaton

end RegularArithmetic
