import RegularArithmetic.Proofs.Program.Witness
import RegularArithmetic.Proofs.Session.Plain

/-!
Witnesses in plain sessions. Wherever such a session has come to, the witnesses that it finds are
right for what its names say by then.
-/

set_option autoImplicit false

namespace RegularArithmetic.Session

open Workspace (aliases)

/-- What plain sessions come to, and what the names say there. A predicate is defined, or that
fails; it is asked whether a formula holds; or a witness is looked for. -/
inductive PlainState (config : Config) : Relations → Workspace → Prop
  | start {s : Session} (hstart : start config = .ok s) : PlainState config .binary s.workspace
  | define {Γ : Relations} {w w' : Workspace} {name : String} {args : List String} {body : Expr}
    (h : PlainState config Γ w) (hr : (Request.define name args body).IsPlain config)
    (hrun : Program.define (.ofBody name args [] body) w = .ok () w') :
    PlainState config (Γ.define name (DefinedBy args (body.Satisfied Γ))) w'
  | refuse {Γ : Relations} {w w' : Workspace} {name : String} {args : List String} {body : Expr}
    {e : Failure} (h : PlainState config Γ w) (hr : (Request.define name args body).IsPlain config)
    (hrun : Program.define (.ofBody name args [] body) w = .error e w') : PlainState config Γ w'
  | ask {Γ : Relations} {w : Workspace} {x : Expr} (h : PlainState config Γ w)
    (hx : x.IsPlain {none} Set.univ) : PlainState config Γ (endOf (Program.truthOf x) w)
  | find {Γ : Relations} {w : Workspace} {x : Expr} (h : PlainState config Γ w)
    (hx : x.IsPlain {none} Set.univ) : PlainState config Γ (endOf (Program.witness x) w)

theorem exists_plainState : ∃ w, PlainState ⟨6, none, true, true⟩ .binary w := by
  obtain ⟨s, hstart⟩ := exists_start
  exact ⟨s.workspace, .start hstart⟩

namespace PlainState

variable {config : Config} {Γ : Relations} {w w' : Workspace} {x : Expr}

/-- Plain sessions are at rest between requests. -/
theorem idle (h : PlainState config Γ w) : w.Idle Γ aliases config := by
  induction h with
  | start hstart => exact idle_start hstart
  | define _ hr hrun ih => exact (idle_define ih hr).1 _ hrun
  | refuse _ hr hrun ih => exact (idle_define ih hr).2 _ _ hrun
  | ask _ hx ih => exact ih.mono (ih.atRest.yields_truthOf hx).le_endOf
  | find _ hx ih => exact ih.mono (ih.atRest.yields_witness hx).le_endOf

theorem findsWitness (h : PlainState config Γ w) (hx : x.IsPlain {none} Set.univ)
    {found : Option (List (String × Nat))} (hrun : Program.witness x w = .ok found w')
    (hsize : w'.alphabet.size < 2 ^ 31) : FindsWitness (x.Satisfied Γ) x.freeVars found :=
  h.idle.atRest.findsWitness hx hrun hsize

end PlainState

section

variable {config : Config} {Γ : Relations} {w w' : Workspace} {x : Expr}

def isOne : Expr := .equal (.var "x") (.num 1)

theorem isPlain_isOne : isOne.IsPlain {none} Set.univ :=
  ⟨rfl, ⟨rfl, (by decide : IsOwn "x")⟩, rfl, trivial⟩

/-- The question has an automaton, in an alphabet of so few propositions. -/
def hasAutomaton (x : Expr) (s : Session) : Bool :=
  match Program.Engine.standard.query x s.workspace with
  | .ok _ w => w.alphabet.size < 2 ^ 31
  | .error _ _ => false

theorem exists_of_hasAutomaton {s : Session} (h : hasAutomaton x s = true) : ∃ a w,
    Program.Engine.standard.query x s.workspace = .ok a w ∧ w.alphabet.size < 2 ^ 31 := by
  unfold hasAutomaton at h
  split at h
  · rename_i a w hquery
    exact ⟨a, w, hquery, of_decide_eq_true h⟩
  · cases h

theorem exists_query_isOne : ∃ w a w', PlainState ⟨6, none, true, true⟩ .binary w ∧
    Program.Engine.standard.query isOne w = .ok a w' ∧ w'.alphabet.size < 2 ^ 31 := by
  have hrun : (start ⟨6, none, true, true⟩).toOption.any (hasAutomaton isOne) = true := by
    decide +kernel
  obtain ⟨s, hstart, hautomaton⟩ := exists_start_of_any hrun
  obtain ⟨a, w, hquery, hsize⟩ := exists_of_hasAutomaton hautomaton
  exact ⟨s.workspace, a, w, .start hstart, hquery, hsize⟩

theorem exists_witness_isOne : ∃ w values w', PlainState ⟨6, none, true, true⟩ .binary w ∧
    Program.witness isOne w = .ok (some values) w' ∧ w'.alphabet.size < 2 ^ 31 := by
  obtain ⟨w, a, w', h, hquery, hsize⟩ := exists_query_isOne
  obtain ⟨found, hrun, hnone, -⟩ :=
    h.idle.atRest.exists_witness_eq_ok isPlain_isOne hquery hsize
  have hone : isOne.Satisfied .binary fun _ => 1 := ⟨1, 1, rfl, rfl, rfl⟩
  obtain ⟨values, rfl⟩ := Option.ne_none_iff_exists'.1 fun hfound => hnone.1 hfound _ hone
  exact ⟨w, values, w', h, hrun, hsize⟩

/-- Where the question has an automaton, the session answers a request for a witness. -/
theorem witness_of_query (h : PlainState config Γ w) (hx : x.IsPlain {none} Set.univ)
    {a : Automaton} (hquery : Program.Engine.standard.query x w = .ok a w')
    (hsize : w'.alphabet.size < 2 ^ 31) :
    ∃ found, Program.witness x w = .ok found w' ∧ FindsWitness (x.Satisfied Γ) x.freeVars found :=
  h.idle.atRest.exists_witness_eq_ok hx hquery hsize

theorem witness_of_query_isOne : ∃ w w' found, PlainState ⟨6, none, true, true⟩ .binary w ∧
    Program.witness isOne w = .ok found w' ∧
    FindsWitness (isOne.Satisfied .binary) isOne.freeVars found := by
  obtain ⟨w, a, w', h, hquery, hsize⟩ := exists_query_isOne
  obtain ⟨found, hrun, hfound⟩ := witness_of_query h isPlain_isOne hquery hsize
  exact ⟨w, w', found, h, hrun, hfound⟩

/-- What a witness gives numbers to are free variables of the formula, each of them once. -/
theorem nodup_and_subset_of_witness (h : PlainState config Γ w) (hx : x.IsPlain {none} Set.univ)
    {values : List (String × Nat)} (hrun : Program.witness x w = .ok (some values) w') :
    (values.map (·.1)).Nodup ∧ values.map (·.1) ⊆ x.freeVars :=
  h.idle.atRest.keys_of_witness hx hrun

theorem nodup_and_subset_of_witness_isOne : ∃ w values w',
    PlainState ⟨6, none, true, true⟩ .binary w ∧
    Program.witness isOne w = .ok (some values) w' ∧
    (values.map (·.1)).Nodup ∧ values.map (·.1) ⊆ isOne.freeVars := by
  obtain ⟨w, values, w', h, hrun, -⟩ := exists_witness_isOne
  exact ⟨w, values, w', h, hrun, nodup_and_subset_of_witness h isPlain_isOne hrun⟩

/-- For a formula with one free variable, the number that is found is at most twice the least one
that satisfies the formula. -/
theorem le_two_mul_of_witness (h : PlainState config Γ w) (hx : x.IsPlain {none} Set.univ)
    {values : List (String × Nat)} (hrun : Program.witness x w = .ok (some values) w')
    (hsize : w'.alphabet.size < 2 ^ 31) {u : String} (hu : ∀ v ∈ x.freeVars, v = u)
    {τ : Valuation} (hτ : x.Satisfied Γ τ) : ∀ e ∈ values, e.1 = u ∧ e.2 ≤ 2 * τ u := by
  intro e he
  have hwitness := (h.findsWitness hx hrun hsize).isWitness values rfl
  exact ⟨hu _ (hwitness.named (List.mem_map_of_mem he)), hwitness.le_two_mul hu hτ e he⟩

theorem le_two_mul_of_witness_isOne : ∃ w values w',
    PlainState ⟨6, none, true, true⟩ .binary w ∧
    Program.witness isOne w = .ok (some values) w' ∧ ∀ e ∈ values, e.1 = "x" ∧ e.2 ≤ 2 := by
  obtain ⟨w, values, w', h, hrun, hsize⟩ := exists_witness_isOne
  have hone : isOne.Satisfied .binary fun _ => 1 := ⟨1, 1, rfl, rfl, rfl⟩
  exact ⟨w, values, w', h, hrun, le_two_mul_of_witness h isPlain_isOne hrun hsize
    (fun v hv => List.mem_singleton.1 hv) hone⟩

end

end RegularArithmetic.Session
