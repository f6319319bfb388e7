import RegularArithmetic.Automaton.Exploration

/-!
Numbers are written with the lowest digit first, so the letter in which every proposition is
false may be appended to a word or removed from its end without changing the numbers it stands
for. These operations close a language under that.
-/

set_option autoImplicit false

namespace RegularArithmetic.Automaton

def zeroMoves (s : Diagram.Store) (q : State) : Except Fault (List Move) :=
  q.moves.filterM fun m => s.eval (fun _ => false) m.label

/-- For every state, the states to which an all-false letter can lead. -/
def zeroSuccessors (a : Automaton) : Diagram.M (Array (List Nat)) := Diagram.ask fun s =>
  a.states.mapM fun q => return (← zeroMoves s q).map (·.target)

/-- The automaton with other accepting states. -/
def withAccepting (a : Automaton) (marks : Array Bool) : Automaton :=
  { a with states := a.states.mapIdx fun q s => { s with accepting := marks.getD q false } }

/-- A state also accepts if all-false letters lead from it to acceptance. -/
def saturate (a : Automaton) : Diagram.M Automaton := do
  let next ← a.zeroSuccessors
  let marks ← leadingTo (next.map (·.take 1)) (a.states.map (·.accepting))
  return a.withAccepting marks

/-- Whether one or more steps lead from `q` back to it. -/
def onCycle (next : Array (List Nat)) (q : Nat) : Except Fault Bool := do
  let moves (p : Nat) : Except Fault (List Move) :=
    .ok ((next.getD p []).map fun t => ⟨t, .one⟩)
  let w ← (← moves q).foldlM (Search.meet []) (Search.blank next.size)
  let (met, _) ← w.run moves fun _ => .ok false
  return met.seen.getD q false

/-- Reads the automaton as one for infinite words, accepted when a run visits accepting states
infinitely often: the result accepts a finite word if all-false letters forever after it are
accepted. -/
def ofInfinite (a : Automaton) : Alphabet.M Automaton := do
  let next ← a.zeroSuccessors
  let recurrent ← a.states.toList.zipIdx.mapM fun (s, q) =>
    if s.accepting then onCycle next q else .ok false
  let marks ← leadingTo next recurrent.toArray
  let a ← (a.withAccepting marks).finish
  (← a.saturate).reduce

end RegularArithmetic.Automaton
