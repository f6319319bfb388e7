import RegularArithmetic.Proofs.Program.Constants
import RegularArithmetic.Proofs.Session.Memory
import RegularArithmetic.Proofs.Session.Ranges

/-!
Constants in sessions. Whatever was done in a session, its constants are the numbers of their
domains, as long as arithmetic finds the relations that are there at the start and no variable that
it has yet to make is restricted.
-/

set_option autoImplicit false

namespace RegularArithmetic

open Binary (IsSum AreEqual IsLess)
open Program (numberIn)

namespace Workspace

variable {Γ : Relations} {w : Workspace} {name target : String} {q : Predicate} {n : Nat}

theorem AtRest.defines (h : w.AtRest Γ) (hregistered : w.program.Registered)
    (hresolve : w.program.resolveAlias name = .ok target)
    (hq : w.program.predicates[target]? = some q) :
    w.Defines name q.args.length (Γ name) := by
  obtain ⟨r, hr⟩ := Option.ne_none_iff_exists'.1 (h.evaluated target q hq)
  exact ⟨target, q, r, hresolve, hq, hr, ((hregistered target q hq).memo r hr).2,
    h.right.relations name trivial target q r hresolve hq hr⟩

theorem Defines.spans {R : List Nat → Prop} (h : w.Defines name 1 R) (e : Option Domain) :
    w.Spans (.restricted ⟨name, [⟨.var selfName, e⟩]⟩) {a | R [a]} := by
  obtain ⟨target, q, r, hresolve, hq, hr, hlength, hmeans⟩ := h
  obtain ⟨p, hp⟩ := List.length_eq_one_iff.1 hlength
  refine .restricted ⟨target, q, r, hresolve, hq, hr, hlength, hmeans.nodup, ?_⟩ e
  refine hmeans.recognizes.congr fun u => ?_
  simp [hp]

end Workspace

namespace Session

open Workspace (aliases)

/-- Arithmetic finds the relations that it asks for as in the new session `s₀`: no predicate of
their names is another one, and their aliases lead to where they did. -/
structure AsInstalled (s₀ s : Session) : Prop where
  predicates : ∀ name ∈ fixedNames,
    s.workspace.program.predicates[name]? = s₀.workspace.program.predicates[name]?
  context : ∀ name ∈ fixedNames,
    s.workspace.program.context[name]? = s₀.workspace.program.context[name]?

variable {config : Config} {ls : List Literal} {s₀ s : Session} {name target : String} {n : Nat}
  {d : Domain} {S : Set Nat}

namespace Reached

attribute [local instance] Automaton.allLanguages

/-- What an alias of a new session leads to is the same relation whatever was done since, if it is
found as it was. -/
theorem defines (h : Reached config ls s) (hstart : Session.start config = .ok s₀)
    (hinstalled : AsInstalled s₀ s) (hname : name ∈ fixedNames) (htarget : target ∈ fixedNames)
    (halias : aliases[name]? = some target) (hnot : name ∉ Program.binaryNames)
    (htakes : s₀.workspace.program.Takes target n) :
    s.workspace.Defines name n (Relations.binary target) := by
  obtain ⟨q, hq, rfl⟩ := htakes
  have hidle := idle_start hstart
  have hpreserves := h.preserves hstart
  have hself := Program.resolveAlias_self (Program.contains_of_getElem?_eq_some hq)
  have hdefines := hidle.atRest.defines (Reached.start hstart).registered.1 hself hq
  obtain ⟨r, hr, hlength, hmeans⟩ := hdefines.exists_memo hself hq
  have hq' := (hinstalled.predicates target htarget).trans hq
  have hnone := (hinstalled.predicates name hname).trans ((predicates_start hstart).2 name hnot)
  have hnext : s.workspace.program.context[name]? = some target := by
    rw [hinstalled.context name hname, hidle.context, halias]
  have hresolve := Program.resolveAlias_alias (Program.contains_of_getElem?_eq_none hnone) hnext
    (Program.contains_of_getElem?_eq_some hq')
  exact ⟨target, q, r, hresolve, hq', hr, hlength,
    hmeans.mono_store hidle.atRest.right.sound hpreserves.alphabet.1⟩

/-- Wherever a session has come to without declarations or constants, numbers can be counted. -/
theorem counts (h : Reached config ls s) (hstart : Session.start config = .ok s₀)
    (hinstalled : AsInstalled s₀ s) (hdeclarations : s.workspace.program.declarations = [])
    (hconstants : s.workspace.program.constants = []) : s.workspace.Counts := by
  obtain ⟨⟨hadd, hequal, hless, -⟩, -⟩ := predicates_start hstart
  obtain ⟨vars, hframes, hpositive⟩ := h.registered.2
  exact {
    sound := h.belongs.1.sound
    framed := ⟨hframes ▸ List.cons_ne_nil _ _, (h.preserves hstart).bounded (bounded_start hstart)⟩
    positive := fun f hf v p hp => by
      rw [hframes, List.mem_singleton] at hf
      subst hf
      exact (hpositive v p hp).ne'
    declarations := hdeclarations
    adder := h.defines hstart hinstalled (by decide) (by decide) rfl (by decide) hadd
    equal := h.defines hstart hinstalled (by decide) (by decide) rfl (by decide) hequal
    less := h.defines hstart hinstalled (by decide) (by decide) rfl (by decide) hless
    constants := hconstants }

end Reached

/-! ### Plain sessions -/

namespace PlainState

variable {Γ : Relations} {w w' : Workspace} {x : String} {body : Expr}

/-- Plain sessions define no predicates of the fixed names. -/
theorem keeps (h : PlainState config Γ w) : ∃ s₀, Session.start config = .ok s₀ ∧
    Program.Keeps {name | name ∈ fixedNames} s₀.workspace.program w.program := by
  induction h with
  | @start s hstart => exact ⟨s, hstart, .of_eq rfl rfl⟩
  | @define _ w w' _ _ _ _ hr hrun ih =>
    obtain ⟨s₀, hstart, hkeeps⟩ := ih
    exact ⟨s₀, hstart, hkeeps.trans (endOf_of_eq_ok hrun ▸ Program.keeps_define hr.1 w)⟩
  | @refuse _ w w' _ _ _ _ _ hr hrun ih =>
    obtain ⟨s₀, hstart, hkeeps⟩ := ih
    exact ⟨s₀, hstart, hkeeps.trans (endOf_of_eq_error hrun ▸ Program.keeps_define hr.1 w)⟩
  | @ask _ w x _ _ ih =>
    obtain ⟨s₀, hstart, hkeeps⟩ := ih
    exact ⟨s₀, hstart, hkeeps.trans ((Program.stepwise_truthOf x).keeps w)⟩
  | @find _ w x _ _ ih =>
    obtain ⟨s₀, hstart, hkeeps⟩ := ih
    exact ⟨s₀, hstart, hkeeps.trans ((Program.stepwise_witness x).keeps w)⟩

theorem registered (h : PlainState config Γ w) : w.program.Registered := by
  obtain ⟨s₀, hstart, hkeeps⟩ := h.keeps
  exact hkeeps.spares.registered (Reached.start hstart).registered.1

theorem asInstalled (h : PlainState config Γ s.workspace)
    (hstart : Session.start config = .ok s₀) : AsInstalled s₀ s := by
  obtain ⟨s₁, hstart₁, hkeeps⟩ := h.keeps
  obtain rfl := Except.ok.inj (hstart.symm.trans hstart₁)
  have hidle := idle_start hstart
  refine ⟨fun name hname => ?_, fun name _ => by rw [h.idle.context, hidle.context]⟩
  exact hkeeps.spares.getElem?_eq (Reached.start hstart).registered.1 hname
    (hidle.atRest.evaluated name)

theorem spans_define (h : PlainState config Γ w)
    (hr : (Request.define name [x] body).IsPlain config)
    (hrun : Program.define (.ofBody name [x] [] body) w = .ok () w') (e : Option Domain) :
    w'.Spans (.restricted ⟨name, [⟨.var selfName, e⟩]⟩)
      {a | ∃ τ : Valuation, τ x = a ∧ body.Satisfied Γ τ} := by
  have h' := PlainState.define h hr hrun
  obtain ⟨q, hq, hargs⟩ := Program.exists_of_define_eq_ok h.registered hrun
  have hself := Program.resolveAlias_self (Program.contains_of_getElem?_eq_some hq)
  have hdefines : w'.Defines name q.args.length
      (Γ.define name (DefinedBy [x] (body.Satisfied Γ)) name) :=
    h'.idle.atRest.defines h'.registered hself hq
  rw [hargs, Relations.define_self] at hdefines
  have hspans := Workspace.Defines.spans hdefines e
  simpa [DefinedBy] using hspans

end PlainState

/-! ### Constants -/

/-- What it means that a session makes the constants of a domain with the numbers `S`. Without a
budget it makes one for every number. Its automaton accepts the words in which its proposition has
the number that the constant is, which for 0 is 0, and for `n` is `n` times the least positive
number of the domain; it accepts nothing if there is no such number. For a positive `n` with such a
number it has one state more than the number has digits. -/
structure MakesConstants (s : Session) (d : Domain) (S : Set Nat) : Prop where
  succeeds : s.workspace.alphabet.budget = none →
    ∀ n, Succeeds (Program.constantOf d n) s.workspace
  accepts : ∀ n r w, Program.constantOf d n s.workspace = .ok r w → ∃ p, r.args = [p] ∧
    ∀ u, r.automaton.Admits w.alphabet.diagrams u ↔ IsConstant S n (numberIn p u)
  size : ∀ n ≠ 0, ∀ r w, Program.constantOf d n s.workspace = .ok r w →
    ∀ a, IsConstant S n a → r.automaton.size = (Nat.digits 2 a).length + 1

theorem satisfied_twiceSome {Γ : Relations} {τ : Valuation} :
    twiceSome.Satisfied Γ τ ↔ Even (τ "x") := by
  simp [twiceSome, Expr.forSome, Expr.equal, Expr.var, Form.plain, Expr.Satisfied, Form.Satisfied,
    Expr.number, Form.number, Expr.isFormula, Operation.result?, Comparison.Test, Even]

theorem isConstant_even_iff {n a : Nat} (hn : n ≠ 0) :
    IsConstant {a | Even a} n a ↔ a = n * 2 := by
  have htwo : IsLeast {b | b ∈ {a | Even a} ∧ b ≠ 0} 2 := by
    refine ⟨⟨even_two, by decide⟩, fun b ⟨hb, hne⟩ => ?_⟩
    obtain ⟨c, rfl⟩ := hb
    omega
  rw [IsConstant.iff_of_ne_zero hn]
  constructor
  · rintro ⟨u, hu, rfl⟩
    rw [hu.unique htwo]
  · exact fun ha => ⟨2, htwo, ha⟩

/-- Zero is demanded of a variable that the evaluator has yet to make. -/
def zeroDemanded : Restrictions := ⟨[("__y2", [⟨"bin_zero", [.var "__y2"]⟩])], []⟩

def demandingSession : Option Session :=
  match start ⟨2, none, true, true⟩ with
  | .error _ => none
  | .ok s =>
    some ⟨⟨s.workspace.alphabet, { s.workspace.program with restrictions := zeroDemanded }⟩,
      s.report, s.files⟩

/-- The automaton that a session makes for 1 accepts a word for 3. -/
def takesThreeForOne (s : Session) : Bool :=
  match Program.constantOf .any 1 s.workspace with
  | .error _ _ => false
  | .ok r w =>
    match r.args with
    | [p] =>
      match r.automaton.accepts [.ofList [p], .ofList [p]] w.alphabet.diagrams with
      | .ok b _ => b
      | .error _ _ => false
    | _ => false

theorem takesThreeForOne_demandingSession :
    demandingSession.any (fun s => takesThreeForOne s && s.workspace.program.constants.isEmpty) =
      true := by
  decide +kernel

theorem exists_of_takesThreeForOne (h : takesThreeForOne s = true) :
    ∃ r w p u, Program.constantOf .any 1 s.workspace = .ok r w ∧ r.args = [p] ∧
      r.automaton.Admits w.alphabet.diagrams u ∧ numberIn p u = 3 := by
  unfold takesThreeForOne at h
  split at h
  · cases h
  · rename_i r w hrun
    split at h
    · rename_i p hp
      split at h
      · rename_i b t hword
        subst h
        have hstore : t = w.alphabet.diagrams := by
          simp only [Automaton.accepts, Diagram.ask] at hword
          split at hword <;> cases hword
          rfl
        refine ⟨r, w, p, [.ofList [p], .ofList [p]], hrun, hp, hstore ▸ hword, ?_⟩
        simp [numberIn, NumberSet.mem_ofList]
      · cases h
    · cases h

end Session

end RegularArithmetic
