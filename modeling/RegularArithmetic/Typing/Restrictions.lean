import RegularArithmetic.Expression.Domain

/-!
Restrictions of variables. A restriction is a call about a variable; it holds everywhere, or
inside the scope it was made in. What is visible of a variable are the restrictions that hold
everywhere, then those of the scopes from the outermost inwards.
-/

set_option autoImplicit false

namespace RegularArithmetic

/-- The calls that restrict each variable. -/
abbrev Scope := List (String × List Call)

def includeCall (cs : List Call) (c : Call) : List Call :=
  if c ∈ cs then cs else cs ++ [c]

namespace Scope

/-- The calls that restrict `v`. -/
def get (s : Scope) (v : String) : List Call := (s.lookup v).getD []

/-- Changes the calls of `v`, at first none. -/
def update (v : String) (f : List Call → List Call) : Scope → Scope
  | [] => [(v, f [])]
  | (w, cs) :: s => if w = v then (w, f cs) :: s else (w, cs) :: update v f s

/-- One more call of `v`. -/
def add (s : Scope) (v : String) (c : Call) : Scope := s.update v (includeCall · c)

/-- Several more calls of `v`; without any, `v` has an entry all the same. -/
def addAll (s : Scope) (v : String) (cs : List Call) : Scope := s.update v (cs.foldl includeCall ·)

/-- All calls of another scope besides. -/
def join (s t : Scope) : Scope := t.foldl (fun s (v, cs) => s.addAll v cs) s

def forget (s : Scope) (v : String) : Scope := s.filter (·.1 ≠ v)

end Scope

/-- What holds everywhere, and the open scopes, innermost first. -/
structure Restrictions where
  everywhere : Scope
  scopes : List Scope
  deriving DecidableEq, Inhabited

namespace Restrictions

/-- No restrictions and no open scope. -/
def none : Restrictions := ⟨[], []⟩

def depth (r : Restrictions) : Nat := r.scopes.length

def enter (r : Restrictions) (s : Scope) : Restrictions := { r with scopes := s :: r.scopes }

def exit (r : Restrictions) : Except Fault Restrictions :=
  match r.scopes with
  | _ :: scopes => .ok { r with scopes }
  | [] => .error .noOpenScope

/-- Restricts `v` inside the innermost scope, if one is open, and everywhere otherwise. -/
def restrict (r : Restrictions) (v : String) (c : Call) : Except Error Restrictions := do
  c.requireAbout v
  match r.scopes with
  | s :: scopes => return { r with scopes := s.add v c :: scopes }
  | [] => return { r with everywhere := r.everywhere.add v c }

/-- Restricts `v` everywhere. -/
def restrictEverywhere (r : Restrictions) (v : String) (c : Call) : Except Error Restrictions := do
  c.requireAbout v
  return { r with everywhere := r.everywhere.add v c }

def forget (r : Restrictions) (v : String) : Restrictions :=
  ⟨r.everywhere.forget v, r.scopes.map (·.forget v)⟩

def layers (r : Restrictions) : List Scope := r.everywhere :: r.scopes.reverse

/-- The visible restrictions of `v`. -/
def visible (r : Restrictions) (v : String) : List Call :=
  (r.layers.flatMap (·.get v)).foldl includeCall []

/-- All that is visible as one scope. -/
def snapshot (r : Restrictions) : Scope := r.layers.foldl Scope.join []

/-- The domain that the first visible restriction gives to `v`. -/
def domainOf (r : Restrictions) (v : String) : Except Error Domain :=
  match r.visible v with
  | c :: _ => Domain.restriction v c
  | [] => .ok .any

end Restrictions

end RegularArithmetic
