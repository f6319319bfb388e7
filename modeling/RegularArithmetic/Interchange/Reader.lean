import RegularArithmetic.Automaton.ZeroPadding
import RegularArithmetic.Binary
import RegularArithmetic.Interchange.Document

/-!
The automaton that a document describes. Every name the text announces becomes a proposition of
its own, and the start state becomes state 0 by changing places with it.
-/

set_option autoImplicit false

namespace RegularArithmetic.Automaton

def swapStart (start q : Nat) : Nat :=
  if q = start then 0 else if q = 0 then start else q

def addItem (start : Nat) (props : Array Nat) (a : Automaton) :
    Document.Item → Diagram.M Automaton
  | .state q accepting => a.setAccepting (swapStart start q) accepting
  | .move q label target => do
    a.addMove (swapStart start q) ⟨swapStart start target, ← label.toDiagram props⟩

/-- The states and moves of a document whose names stand for the given propositions. -/
def ofDocument (d : Document) (props : List Nat) : Diagram.M Automaton :=
  d.items.foldlM (addItem d.start props.toArray) ((blank d.size).withProps props)

/-- The relation that a text describes; numbers continue with zeros, so acceptance of the
infinite word counts. -/
def ofText (text : String) : Alphabet.M Relation := do
  match (Document.read text).run [] with
  | .error e names => do
    names.forM fun name => discard (Alphabet.fresh name)
    throw e
  | .ok d names => do
    let announced ← names.mapM Alphabet.fresh
    let props := announced.drop (announced.length - d.names.length)
    let a ← ofDocument d props
    return ⟨← a.ofInfinite, props⟩

end RegularArithmetic.Automaton
