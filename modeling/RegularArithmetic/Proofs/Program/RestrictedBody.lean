import RegularArithmetic.Proofs.Program.Agreement
import RegularArithmetic.Proofs.Program.Definition
import RegularArithmetic.Proofs.Program.Stepwise

/-!
Predicates that are defined under restrictions. Such a predicate is the relation between numbers for
which the restrictions of its arguments hold, and its body with quantifiers relativized to the
restrictions of their variables.
-/

set_option autoImplicit false

namespace RegularArithmetic

open Program (findVar Engine conjoin)

variable {I : Interpretation} {K : Limits} {args : List String} {ps : List Nat} {x : Expr}
  {T : Nat → Valuation → Prop} {w : Workspace}

/-- The relation between its arguments that a body defines under restrictions. -/
def DefinedUnder (I : Interpretation) (r : Restrictions) (args : List String) (x : Expr) (n : Nat)
    (as : List Nat) : Prop :=
  ∃ τ : Valuation, args.map τ = as ∧ (∀ v ∈ args, ∀ c ∈ r.visible v, c.Holds I n τ) ∧
    (x.relativize r.visible).Holds I (fun _ _ _ => True) n τ

/-- What is evaluated of a body is what it says with the restrictions put before it. -/
theorem definedUnder_iff {r : Restrictions} {n : Nat} {as : List Nat} :
    DefinedUnder I r args x n as ↔ ∃ τ : Valuation, args.map τ = as ∧
      (conjoin (args.flatMap r.visible) x).Holds I (r.bounds I) n τ := by
  refine exists_congr fun τ => and_congr_right fun _ => ?_
  rw [Program.holds_conjoin, Expr.holds_relativize,
    Restrictions.demand_visible fun _ _ _ => trivial]
  refine and_congr_left' ?_
  simp only [List.mem_flatMap]
  constructor
  · rintro h c ⟨v, hv, hc⟩
    exact h v hv c hc
  · exact fun h v hv c hc => h c ⟨v, hv, hc⟩

namespace Workspace

theorem Describes.relation {a : Automaton} (h : w.Describes K a T)
    (hlength : ps.length = args.length) (hps : ps.Nodup) (hargs : ∀ v ∈ args, v ∈ K.vars)
    (hbound : ∀ v p, v ∈ K.vars → (findVar v w.program.frames = .bound p ↔ (v, p) ∈ args.zip ps)) :
    Relation.Means w.alphabet.diagrams ⟨a.withProps ps, ps⟩ fun n as =>
      ∃ τ : Valuation, args.map τ = as ∧ T n τ where
  nodup := hps
  recognizes := by
    obtain ⟨L, hL, hT⟩ := h
    have hprops : w.propsOf K ⊆ {p | p ∈ ps} := by
      rintro p ⟨v, hv, hp⟩
      exact (List.of_mem_zip ((hbound v p hv).1 hp)).2
    refine ((hL.mono hprops).congr fun u => ?_).withProps fun p hp => hp
    have hagree := fun τ => map_eq_map_iff_fits hlength hargs hbound τ u
    constructor
    · intro hu
      have hfits := w.fits_valuationOf K u
      exact ⟨_, (hagree _).2 hfits, (hT u _ hfits).1 hu⟩
    · rintro ⟨τ, hτ, hS⟩
      exact (hT u τ ((hagree τ).1 hτ)).2 hS

theorem Ready.yields_body {k : Engine} (hk : k.Sound) (hw : w.Ready I K) (hnodup : args.Nodup)
    (hargs : ∀ v ∈ args, v ∈ K.vars) (hx : x.Within K)
    (hformals : ∀ v ∈ args, ∀ c ∈ w.program.restrictions.visible v, c.Within K) (owner : String) :
    Yields (do
      let formals ← args.mapM fun v => (liftM (Alphabet.fresh v) : Program.M Nat)
      Program.withFrame ⟨.sealed, owner, (args.zip formals).reverse⟩ do
        let r ← Program.ask (·.restrictions)
        let a ← k.formula (conjoin (args.flatMap r.visible) x)
        return (⟨a.withProps formals, formals⟩ : Relation)) w fun r w' =>
          r.Means w'.alphabet.diagrams (DefinedUnder I w.program.restrictions args x) := by
  have hfull : (conjoin (args.flatMap w.program.restrictions.visible) x).Within K := by
    refine Program.within_conjoin (fun c hc => ?_) hx
    obtain ⟨v, hv, hc⟩ := List.mem_flatMap.1 hc
    exact hformals v hv c hc
  refine hw.yields_sealed (P := fun r s => r.Means s (DefinedUnder I w.program.restrictions args x))
    hk hnodup hfull owner fun hlength hps hbound ha => ?_
  have hrelation := ha.relation hlength hps hargs hbound
  exact ⟨hrelation.nodup, hrelation.recognizes.congr fun u => definedUnder_iff.symm⟩

/-- A predicate is evaluated to the relation that its body defines under the restrictions in force,
those of its closure and its own. -/
theorem Ready.yields_evaluateUnder {k : Engine} (hk : k.Sound) {name : String} {q : Predicate}
    {closure : Scope} {r : Restrictions}
    (hr : w.program.restrictions.enter (q.guards.foldl (fun s (v, g) => s.add v g) closure) = r)
    (hw : (w.under r).Ready I K) (hnodup : q.args.Nodup) (hargs : ∀ v ∈ q.args, v ∈ K.vars)
    (hx : q.body.Within K) (hformals : ∀ v ∈ q.args, ∀ c ∈ r.visible v, c.Within K) :
    Yields (k.evaluateUnder name q closure) w fun rel w' =>
      rel.Means w'.alphabet.diagrams (DefinedUnder I r q.args q.body) := by
  subst hr
  refine (Program.yields_withScope (hw.yields_body hk hnodup hargs hx hformals name)).mono ?_
  rintro rel _ - ⟨w', -, hrel, rfl⟩
  exact hrel

/-- Some number is zero, and so is the argument. -/
theorem yields_evaluateUnder_someZero : ∃ w : Workspace,
    w.Idle .binary aliases ⟨6, none, true, true⟩ ∧
    let I := Relations.binary.interpretation fun _ => False
    let closure : Scope := [("x", [⟨"bin_zero", [.var "x"]⟩])]
    Yields (Engine.standard.evaluateUnder "p" ⟨"p", ["x"], [], someZero, none, none⟩ closure) w
      fun r w' => r.Means w'.alphabet.diagrams
        (DefinedUnder I (Restrictions.none.enter closure) ["x"] someZero) := by
  obtain ⟨w, hidle⟩ := exists_idle
  have hx : IsOwn "x" := by decide
  have hvisible : ∀ v, ∀ c ∈ (Restrictions.none.enter
      (Program.guardScopeOf "x" (some ⟨"bin_zero", [.var "x"]⟩))).visible v,
      IsOwn v ∧ c.Within (.own Set.univ ∅) := by
    intro v c hc
    rcases Program.mem_visible_enter.1 hc with hnone | ⟨rfl, hguard⟩
    · cases hnone
    · obtain rfl := Option.mem_some.1 hguard
      exact ⟨hx, trivial, ⟨rfl, hx, nofun⟩, trivial⟩
  have hready := hidle.atRest.ready_under hvisible
  refine ⟨w, hidle, hready.yields_evaluateUnder Program.sound_standard ?_ (List.nodup_singleton _)
    ?_ (within_someZero hx) fun v _ c hc => (hvisible v c hc).2⟩
  · rw [hidle.atRest.restrictions]
    rfl
  · exact fun v hv => List.mem_singleton.1 hv ▸ hx

end Workspace

end RegularArithmetic
