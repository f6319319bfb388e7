import RegularArithmetic.Diagram.Choice

/-!
If-then-else one call at a time. A call settles its choice, hands it on in another form to a call
of its own, or splits it on a variable and makes a call for each half.
-/

set_option autoImplicit false

namespace RegularArithmetic.Diagram

namespace Triple

/-- What one call does with its choice. -/
inductive Rule where
  /-- The choice is settled. -/
  | settled (e : Edge)
  /-- The same choice is made in another form. -/
  | again (t : Triple)
  /-- The choice of a regular triple is split; the flag tells whether its result is negated. -/
  | halved (t : Triple) (negated : Bool)
  deriving DecidableEq, Repr

/-- The first rule that applies. A condition that is left unsettled has to test a variable. -/
def rule (s : Store) (t : Triple) : Except Fault Rule :=
  match t.settled? with
  | some e => .ok (.settled e)
  | none =>
    let ⟨f, g, h⟩ := t
    if g = f then .ok (.again ⟨f, .one, h⟩)
    else if h = f then .ok (.again ⟨f, g, .zero⟩)
    else if g = -f then .ok (.again ⟨f, .zero, h⟩)
    else if h = -f then .ok (.again ⟨f, g, .one⟩)
    else do
      let i := (← s.node f).var
      let j := (← s.node g).var
      let k := (← s.node h).var
      if i = 0 then throw .zeroVariable
      return if g = .one ∧ k < i then .again ⟨h, .one, f⟩
        else if h = .zero ∧ j < i then .again ⟨g, f, .zero⟩
        else if h = .one ∧ j < i then .again ⟨-g, -f, .one⟩
        else if g = .zero ∧ k < i then .again ⟨-h, .zero, -f⟩
        else if g = -h ∧ j < i then .again ⟨g, f, -f⟩
        else .halved t.regular.1 t.regular.2

end Triple

/-- The result of a choice from memory, or from its two halves, and then remembered. -/
def recallOr (choose : Triple → M Edge) (t : Triple) : M Edge := do
  match ← remembered t with
  | some e => pure e
  | none => do
    let e ← split choose t
    remember t e
    pure e

/-- If-then-else by calls that are nested down to the given depth. A call that hands its choice on
counts like one for a half. -/
def callWithin : Nat → Triple → M Edge
  | 0, _ => throw .exhausted
  | depth + 1, t => do
    match ← ask t.rule with
    | .settled e => pure e
    | .again t => callWithin depth t
    | .halved t negated =>
      let e ← recallOr (callWithin depth) t
      pure (if negated then -e else e)

end RegularArithmetic.Diagram
