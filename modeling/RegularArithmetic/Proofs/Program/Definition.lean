import RegularArithmetic.Program.Definition
import RegularArithmetic.Proofs.Meaning.Simplification
import RegularArithmetic.Proofs.Program.Aliases
import RegularArithmetic.Proofs.Program.AtRest

/-!
Defining predicates. The memo of a predicate is the relation that its body defines between its
arguments, in the program as it was when the predicate was defined. What other predicates say
stays as it is, also when the definition fails.
-/

set_option autoImplicit false

namespace RegularArithmetic

open Program (findVar Engine)

def DefinedBy (args : List String) (S : Valuation → Prop) (as : List Nat) : Prop :=
  ∃ τ : Valuation, args.map τ = as ∧ S τ

section

variable {args : List String} {ps : List Nat}

theorem map_fst_zip_of_length (h : ps.length = args.length) : (args.zip ps).map Prod.fst = args :=
  List.map_fst_zip (Nat.le_of_eq h.symm)

theorem map_eq_map_iff {τ : Valuation} {g : Nat → Nat} : ∀ {args : List String} {ps : List Nat},
    ps.length = args.length → (args.map τ = ps.map g ↔ ∀ e ∈ args.zip ps, τ e.1 = g e.2)
  | [], [], _ => by simp
  | v :: args, p :: ps, h => by
    have ih := map_eq_map_iff (τ := τ) (g := g) (Nat.succ.inj h)
    rw [List.map_cons, List.map_cons, List.cons.injEq, ih, List.zip_cons_cons,
      List.forall_mem_cons]

end

namespace Program

variable {w : Workspace}

theorem yields_formals : ∀ (args : List String) (w : Workspace),
    Yields (args.mapM fun v => (liftM (Alphabet.fresh v) : M Nat)) w fun ps w' =>
      w'.program = w.program ∧ ps.length = args.length ∧ ps.Nodup ∧
        ∀ p ∈ ps, w.alphabet.size < p ∧ p ≤ w'.alphabet.size
  | [], w => by
    rw [List.mapM_nil]
    exact .pure ⟨rfl, rfl, .nil, fun p hp => nomatch hp⟩
  | v :: args, w => by
    rw [List.mapM_cons]
    refine (yields_liftAlphabet (yields_fresh v)).bind ?_
    rintro p w' - ⟨⟨hp, hsize, -⟩, hprogram⟩
    refine (yields_formals args w').bind ?_
    rintro ps w'' hle ⟨hprogram', hlength, hnodup, hps⟩
    have hle' := Alphabet.size_mono hle.alphabet
    refine .pure ⟨hprogram'.trans hprogram, congrArg Nat.succ hlength, ?_, ?_⟩
    · refine List.nodup_cons.2 ⟨fun hmem => ?_, hnodup⟩
      have hlt := (hps p hmem).1
      omega
    · intro q hq
      rcases List.mem_cons.1 hq with rfl | hq
      · omega
      · have hbounds := hps q hq
        omega

end Program

namespace Workspace

variable {Γ : Relations} {R : List Nat → Prop} {N : Set String} {L : Set Literal} {w w' : Workspace}
  {args : List String} {ps : List Nat} {S : Valuation → Prop} {T : Nat → Valuation → Prop}

theorem bound_iff_of_sealed {owner : String} {fs : List Frame} {start : Workspace}
    (hle : start.framing (⟨.sealed, owner, (args.zip ps).reverse⟩ :: fs) ≤ w)
    (hlength : ps.length = args.length) (hnodup : args.Nodup) {v : String}
    (hv : ¬IsFuture start.program.temporaries v) {p : Nat} :
    findVar v w.program.frames = .bound p ↔ (v, p) ∈ args.zip ps := by
  obtain ⟨f, fs', hgrows, -, hf⟩ := List.forall₂_cons_left_iff.1 hle.frames
  rw [hf, Program.findVar_sealed hv hgrows]
  constructor
  · intro h
    exact List.mem_reverse.1 (Program.mem_of_lookup h)
  · intro h
    refine lookup_reverse ?_ h
    rwa [map_fst_zip_of_length hlength]

/-- Where the arguments are bound and no other variables are, they stand for the numbers that their
propositions have in the word. -/
theorem map_eq_map_iff_fits {K : Limits} (hlength : ps.length = args.length)
    (hargs : ∀ v ∈ args, v ∈ K.vars)
    (hbound : ∀ v p, v ∈ K.vars → (findVar v w.program.frames = .bound p ↔ (v, p) ∈ args.zip ps))
    (τ : Valuation) (u : Word) : args.map τ = ps.map (numbers u) ↔ w.Fits K τ u := by
  rw [map_eq_map_iff hlength]
  constructor
  · intro h v hv p hp
    exact h (v, p) ((hbound v p hv).1 hp)
  · rintro h ⟨v, p⟩ hvp
    have hv := hargs v (List.of_mem_zip hvp).1
    exact h v hv p ((hbound v p hv).2 hvp)

theorem Describes.means {a : Automaton} (h : w.Describes (.own N L) a T) (hTS : Reflects T S)
    (hlength : ps.length = args.length) (hps : ps.Nodup) (hown : ∀ v ∈ args, IsOwn v)
    (hbound : ∀ v p, IsOwn v → (findVar v w.program.frames = .bound p ↔ (v, p) ∈ args.zip ps)) :
    Relation.Means w.alphabet.diagrams ⟨a.withProps ps, ps⟩ fun _ => DefinedBy args S where
  nodup := hps
  recognizes := by
    have hiff : ∀ u, a.Accepts w.alphabet.diagrams u ↔ DefinedBy args S (ps.map (numbers u)) := by
      intro u
      have hagree := fun τ => map_eq_map_iff_fits (K := .own N L) hlength hown hbound τ u
      constructor
      · intro hu
        have hfits := w.fits_valuationOf (.own N L) u
        exact ⟨_, (hagree _).2 hfits, (h.accepts_iff hTS hfits).1 hu⟩
      · rintro ⟨τ, hτ, hS⟩
        exact (h.accepts_iff hTS ((hagree τ).1 hτ)).2 hS
    obtain ⟨K, hK, -⟩ := h
    have hprops : w.propsOf (.own N L) ⊆ {p | p ∈ ps} := by
      rintro p ⟨v, hv, hp⟩
      exact (List.of_mem_zip ((hbound v p hv).1 hp)).2
    exact ((hK.accepting.mono hprops).congr hiff).withProps fun p hp => hp

theorem Framed.sealed (h : w.Framed) (hps : ∀ p ∈ ps, p ≤ w.alphabet.size) (owner : String) :
    (w.framing (⟨.sealed, owner, (args.zip ps).reverse⟩ :: w.program.frames)).Framed where
  nonempty := List.cons_ne_nil _ _
  vars f hf v p hp := by
    rcases List.mem_cons.1 hf with rfl | hf
    · exact hps p (List.of_mem_zip (List.mem_reverse.1 hp)).2
    · exact h.vars f hf v p hp

theorem Ready.framing {I : Interpretation} {K : Limits} {fs : List Frame} (h : w.Ready I K)
    (hfs : (w.framing fs).Framed) :
    (w.framing fs).Ready I K where
  right := h.right.framing fs
  framed := hfs
  suits := ⟨h.suits.names, h.suits.vars, h.suits.binders, h.suits.settled, h.suits.context,
    h.suits.domains, h.suits.literals⟩
  restricted := ⟨h.restricted.within, h.restricted.vars⟩

theorem Ready.yields_sealed {I : Interpretation} {K : Limits} {k : Engine} {y : Expr}
    (hw : w.Ready I K) (hk : k.Sound) (hnodup : args.Nodup)
    (hy : (Program.conjoin (args.flatMap w.program.restrictions.visible) y).Within K)
    (owner : String) {P : Relation → Diagram.Store → Prop}
    (hP : ∀ {a : Automaton} {ps : List Nat} {w' : Workspace}, ps.length = args.length → ps.Nodup →
      (∀ v p, v ∈ K.vars → (findVar v w'.program.frames = .bound p ↔ (v, p) ∈ args.zip ps)) →
      w'.Describes K a ((Program.conjoin (args.flatMap w.program.restrictions.visible) y).Holds I
        (w.program.restrictions.bounds I)) → P ⟨a.withProps ps, ps⟩ w'.alphabet.diagrams) :
    Yields (do
      let formals ← args.mapM fun v => (liftM (Alphabet.fresh v) : Program.M Nat)
      Program.withFrame ⟨.sealed, owner, (args.zip formals).reverse⟩ do
        let r ← Program.ask (·.restrictions)
        let a ← k.formula (Program.conjoin (args.flatMap r.visible) y)
        return (⟨a.withProps formals, formals⟩ : Relation)) w fun r w' =>
          P r w'.alphabet.diagrams := by
  refine (Program.yields_formals args w).bind ?_
  rintro ps w₁ hle ⟨hprogram, hlength, hps, hsize⟩
  have hframed : (w₁.framing
      (⟨.sealed, owner, (args.zip ps).reverse⟩ :: w₁.program.frames)).Framed :=
    (hw.mono hle).framed.sealed (fun p hp => (hsize p hp).2) owner
  have hready := (hw.mono hle).framing hframed
  rw [← hprogram] at hy hP
  refine (Program.yields_withFrame (P := fun r w' => P r w'.alphabet.diagrams) ?_).mono ?_
  · refine (Program.yields_ask _).bind ?_
    rintro _ _ - ⟨rfl, rfl⟩
    refine (hk.formula hready hy).bind fun a w₂ hle₁ ha => .pure (hP hlength hps ?_ ha)
    exact fun v p hv => bound_iff_of_sealed hle₁ hlength hnodup (hready.suits.vars v hv)
  · rintro r _ - ⟨w₂, -, hr, rfl⟩
    exact hr

theorem Right.yields_body (h : w.Right (Γ.interpretation R)) (hframed : w.Framed)
    (hfree : w.program.restrictions.Free) (hsettled : ∀ name ∈ N, w.Settled name)
    (hcontext : "adder" ∈ N ∧ "equal" ∈ N ∧ "less" ∈ N)
    (hL : ∀ l ∈ L, l.relation.Means w.alphabet.diagrams fun _ => R) {k : Engine} (hk : k.Sound)
    (hnodup : args.Nodup) (hown : ∀ v ∈ args, IsOwn v) {y : Expr} (hy : y.Within (.own N L))
    (hreflects : ∀ B : Bounds, (∀ v n τ, B v n τ) →
      Reflects (y.Holds (Γ.interpretation R) B) S) (owner : String) :
    Yields (do
      let formals ← args.mapM fun v => (liftM (Alphabet.fresh v) : Program.M Nat)
      Program.withFrame ⟨.sealed, owner, (args.zip formals).reverse⟩ do
        let r ← Program.ask (·.restrictions)
        let a ← k.formula (Program.conjoin (args.flatMap r.visible) y)
        return (⟨a.withProps formals, formals⟩ : Relation)) w fun r w' =>
          r.Means w'.alphabet.diagrams fun _ => DefinedBy args S := by
  have hready : w.Ready (Γ.interpretation R) (.own N L) :=
    h.ready_own (Set.subset_univ N) hframed hfree hsettled hcontext hL
  have hbody : args.flatMap w.program.restrictions.visible = [] :=
    List.flatMap_eq_nil_iff.2 fun v _ => hfree v
  have hfull : Program.conjoin (args.flatMap w.program.restrictions.visible) y = y := by
    rw [hbody]
    rfl
  refine hready.yields_sealed (P := fun r s => r.Means s fun _ => DefinedBy args S) hk hnodup
    (hfull.symm ▸ hy) owner fun hlength hps hbound ha => ?_
  rw [hfull] at ha
  exact ha.means (hreflects _ (hfree.bounds _)) hlength hps hown hbound

end Workspace

namespace Program

variable {w v : Workspace} {q : Predicate} {k : Engine} {r : Relation}

theorem predicates_adopt (p : Program) (q : Predicate) : (p.adopt q).predicates[q.name]? = some q :=
  Std.TreeMap.getElem?_insert_self

theorem predicates_adopt_of_ne {p : Program} {q : Predicate} {name : String} (h : name ≠ q.name) :
    (p.adopt q).predicates[name]? = p.predicates[name]? := by
  rw [adopt, Std.TreeMap.getElem?_insert, if_neg]
  exact fun heq => h (Std.LawfulEqCmp.eq_of_compare heq).symm

theorem predicates_erase (ps : Std.TreeMap String Predicate) (name : String) :
    (ps.erase name)[name]? = none :=
  Std.TreeMap.getElem?_erase_self

theorem predicates_erase_of_ne {ps : Std.TreeMap String Predicate} {name other : String}
    (h : other ≠ name) : (ps.erase name)[other]? = ps[other]? := by
  rw [Std.TreeMap.getElem?_erase, if_neg]
  exact fun heq => h (Std.LawfulEqCmp.eq_of_compare heq).symm

theorem predicate_eq_ok {name : String} (hq : w.program.predicates[name]? = some q) :
    Engine.predicate name w = .ok q w := by
  simp only [Engine.predicate, bind, EStateM.bind, ask, hq]
  rfl

/-- The evaluation of a body without guards. -/
def bodyRelation (k : Engine) (q : Predicate) : M Relation := do
  let formals ← q.args.mapM fun v => (liftM (Alphabet.fresh v) : M Nat)
  withFrame ⟨.sealed, q.name, (q.args.zip formals).reverse⟩ do
    let r ← ask (·.restrictions)
    let a ← k.formula (conjoin (q.args.flatMap r.visible) q.body)
    return ⟨a.withProps formals, formals⟩

theorem evaluateBody_eq (hq : w.program.predicates[q.name]? = some q) (hguards : q.guards = [])
    (hclosure : q.closure = none) (hrestrictions : w.program.restrictions = .none) :
    k.evaluateBody q.name w =
      withScope [] (bodyRelation k q)
        ⟨w.alphabet, w.program.adopt { q with closure := some [] }⟩ := by
  have hclosureOf : Engine.closureOf q w =
      .ok [] ⟨w.alphabet, w.program.adopt { q with closure := some [] }⟩ := by
    simp only [Engine.closureOf, hclosure, bind, EStateM.bind, ask, hrestrictions]
    rfl
  simp only [Engine.evaluateBody, bind, EStateM.bind, predicate_eq_ok hq, hclosureOf, hguards]
  rfl

end Program

namespace Workspace

variable {w v w' : Workspace} {q : Predicate} {k : Engine} {r : Relation} {e : Failure}

/-- The same state with a predicate in place of another of its name. -/
def adopting (w : Workspace) (q : Predicate) : Workspace := ⟨w.alphabet, w.program.adopt q⟩

/-- The state in which the body of a predicate is evaluated. -/
def evaluating (w : Workspace) (q : Predicate) : Workspace :=
  ⟨w.alphabet, { w.program.adopt q with inProgress := q.name :: w.program.inProgress }.adopt
    { q with closure := some [] }⟩

def finishing (v : Workspace) : Workspace :=
  ⟨v.alphabet, { v.program with inProgress := v.program.inProgress.drop 1 }⟩

/-- A predicate without guards or a memo is in progress while its body is evaluated, and keeps the
relation as its memo. -/
theorem memoOf_eq (hguards : q.guards = []) (hclosure : q.closure = none) (hmemo : q.memo = none)
    (hrestrictions : w.program.restrictions = .none) (hprogress : w.program.inProgress = []) :
    k.memoOf q.name (w.adopting q) =
      match Program.withScope [] (Program.bodyRelation k q) (w.evaluating q) with
      | .ok r v =>
        match Engine.predicate q.name v.finishing with
        | .ok q' v' => .ok r (v'.adopting { q' with memo := some r })
        | .error e v' => .error e v'
      | .error e v => .error e v.finishing := by
  let start : Workspace :=
    ⟨w.alphabet, { w.program.adopt q with inProgress := q.name :: w.program.inProgress }⟩
  have hbody : k.evaluateBody q.name start =
      Program.withScope [] (Program.bodyRelation k q) (w.evaluating q) :=
    Program.evaluateBody_eq (Program.predicates_adopt w.program q) hguards hclosure hrestrictions
  have hwhile : Engine.whileInProgress q.name (k.evaluateBody q.name) (w.adopting q) =
      match Program.withScope [] (Program.bodyRelation k q) (w.evaluating q) with
      | .ok r v => .ok r v.finishing
      | .error e v => .error e v.finishing := by
    have hrun : Engine.whileInProgress q.name (k.evaluateBody q.name) (w.adopting q) =
        Program.followedBy (k.evaluateBody q.name)
          (Program.change fun p => { p with inProgress := p.inProgress.drop 1 }) start := rfl
    rw [hrun, Program.followedBy, hbody]
    cases Program.withScope [] (Program.bodyRelation k q) (w.evaluating q) <;> rfl
  have hpredicate : Engine.predicate q.name (w.adopting q) = .ok q (w.adopting q) :=
    Program.predicate_eq_ok (Program.predicates_adopt w.program q)
  have hfree : (w.adopting q).program.inProgress = [] := hprogress
  simp only [Engine.memoOf, bind, EStateM.bind, hpredicate, hmemo, Program.ask, hfree,
    List.contains_nil, Bool.and_false, Bool.false_eq_true, if_false, hwhile, pure, EStateM.pure]
  cases Program.withScope [] (Program.bodyRelation k q) (w.evaluating q) with
  | error e v => rfl
  | ok r v =>
    dsimp only
    cases Engine.predicate q.name v.finishing <;> rfl

end Workspace

namespace Program

variable {p p' : Program} {P name target : String}

/-- No alias leads to the name or from it. -/
structure Direct (p : Program) (P : String) : Prop where
  target : ∀ name : String, p.context[name]? ≠ some P
  source : p.context[P]? = none

/-- The aliases are the same, and the predicates but for one name. -/
structure Varies (P : String) (p p' : Program) : Prop where
  context : p'.context = p.context
  predicates : ∀ name : String, name ≠ P → p'.predicates[name]? = p.predicates[name]?

theorem Varies.standsFor_cases (h : Varies P p p') (hd : p.Direct P) {k : Nat}
    (hstands : p'.StandsFor k name target) :
    name = P ∧ target = P ∨ name ≠ P ∧ target ≠ P ∧ p.StandsFor k name target := by
  have hcontains {a : String} (hne : a ≠ P) :
      p.predicates.contains a = p'.predicates.contains a := by
    rw [Std.TreeMap.contains_eq_isSome_getElem?, Std.TreeMap.contains_eq_isSome_getElem?,
      h.predicates a hne]
  induction hstands with
  | @self a ha =>
    by_cases hname : a = P
    · exact .inl ⟨hname, hname⟩
    · exact .inr ⟨hname, hname, .self ((hcontains hname).trans ha)⟩
  | @next k a b c hnone halias _ ih =>
    rw [h.context] at halias
    have ha : a ≠ P := fun heq => nomatch (heq ▸ halias).symm.trans hd.source
    have hb : b ≠ P := fun heq => hd.target a (heq ▸ halias)
    obtain ⟨heq, -⟩ | ⟨-, hc, hrest⟩ := ih
    · exact absurd heq hb
    · exact .inr ⟨ha, hc, .next ((hcontains ha).trans hnone) halias hrest⟩

theorem Varies.resolveAlias_either (h : Varies P p p') (hd : p.Direct P)
    (hresolve : p'.resolveAlias name = .ok target) :
    name = P ∧ target = P ∨ name ≠ P ∧ target ≠ P ∧ p.resolveAlias name = .ok target := by
  obtain ⟨k, hk, hstands⟩ := resolveAlias_eq_ok_iff.1 hresolve
  refine (h.standsFor_cases hd hstands).imp_right fun ⟨hname, htarget, hbefore⟩ => ?_
  exact ⟨hname, htarget, resolveAlias_eq_ok_iff.2 ⟨k, hk, hbefore⟩⟩

end Program

namespace Workspace

variable {Γ Γ' : Relations} {R : List Nat → Prop} {P : String} {w v w' : Workspace}

theorem AtRest.means_of_varies (h : w.AtRest Γ) (hd : w.program.Direct P)
    (hvaries : Program.Varies P w.program w'.program) {name target : String} {q : Predicate}
    {r : Relation} (hresolve : w'.program.resolveAlias name = .ok target)
    (hq : w'.program.predicates[target]? = some q) (hr : q.memo = some r) :
    name = P ∧ w'.program.predicates[P]? = some q ∨
      name ≠ P ∧ r.Means w.alphabet.diagrams fun _ => Γ name := by
  rcases hvaries.resolveAlias_either hd hresolve with ⟨rfl, rfl⟩ | ⟨hname, htarget, hresolve⟩
  · exact .inl ⟨rfl, hq⟩
  · rw [hvaries.predicates target htarget] at hq
    exact .inr ⟨hname, h.right.relations name trivial target q r hresolve hq hr⟩

theorem AtRest.redefine (h : w.AtRest Γ) (hd : w.program.Direct P)
    (hvaries : Program.Varies P w.program w'.program) (hle : w.alphabet ≤ w'.alphabet)
    (hΓ' : Γ'.Count) (hne : ∀ name ≠ P, Γ' name = Γ name)
    (hright : v.Right (Γ.interpretation R)) (hframed : w'.Framed)
    (halphabet : w'.alphabet = v.alphabet)
    (hdeclarations : w'.program.declarations = v.program.declarations)
    (hconstants : w'.program.constants = v.program.constants)
    (hrestrictions : w'.program.restrictions = .none) (hprogress : w'.program.inProgress = [])
    (hmemo : ∀ q, w'.program.predicates[P]? = some q →
      ∃ r, q.memo = some r ∧ r.Means w'.alphabet.diagrams fun _ => Γ' P) : w'.AtRest Γ' where
  count := hΓ'
  right := by
    refine hright.restate h.count hΓ' halphabet hdeclarations hconstants ?_
    intro name target q r hresolve hq hr
    rw [← halphabet]
    rcases h.means_of_varies hd hvaries hresolve hq hr with ⟨rfl, hq⟩ | ⟨hname, hmeans⟩
    · obtain ⟨r', hr', hmeans⟩ := hmemo q hq
      rw [hr] at hr'
      cases hr'
      exact hmeans
    · rw [hne name hname]
      exact hmeans.mono_store h.right.sound hle.1
  framed := hframed
  restrictions := hrestrictions
  inProgress := hprogress
  evaluated name q hq := by
    by_cases hname : name = P
    · subst hname
      obtain ⟨r, hr, -⟩ := hmemo q hq
      simp [hr]
    · rw [hvaries.predicates name hname] at hq
      exact h.evaluated name q hq

end Workspace

/-- A body that says `S`: it is made of the user's own names, may use names of relations from `N`
and literals from `L`, and has no guards. -/
structure Predicate.States (q : Predicate) (Γ : Relations) (R : List Nat → Prop) (N : Set String)
    (L : Set Literal) (S : Valuation → Prop) : Prop where
  guards : q.guards = []
  closure : q.closure = none
  memo : q.memo = none
  nodup : q.args.Nodup
  own : ∀ v ∈ q.args, IsOwn v
  within : q.body.Within (.own N L)
  reflects : ∀ B : Bounds, (∀ v n τ, B v n τ) → Reflects (q.body.Holds (Γ.interpretation R) B) S

namespace Workspace

variable {Γ : Relations} {R : List Nat → Prop} {L : Set Literal} {S : Valuation → Prop}
  {w : Workspace} {q : Predicate} {k : Engine}

/-- The names that may be called in the body of a predicate: its own only if that is an error. -/
def callable (w : Workspace) (P : String) : Set String :=
  {name | w.program.config.detectCycles = true ∨ name ≠ P}

theorem varies_evaluating (w : Workspace) (q : Predicate) :
    Program.Varies q.name w.program (w.evaluating q).program where
  context := rfl
  predicates _ h := (Program.predicates_adopt_of_ne (q := { q with closure := some [] }) h).trans
    (Program.predicates_adopt_of_ne (q := q) h)

theorem predicates_evaluating (w : Workspace) (q : Predicate) :
    (w.evaluating q).program.predicates[q.name]? = some { q with closure := some [] } :=
  Program.predicates_adopt _ { q with closure := some [] }

theorem AtRest.right_evaluating (h : w.AtRest Γ) (hd : w.program.Direct q.name)
    (hmemo : q.memo = none) : (w.evaluating q).Right (Γ.interpretation R) := by
  refine h.right.restate h.count h.count rfl rfl rfl ?_
  intro name target q' r hresolve hq hr
  rcases h.means_of_varies hd (w.varies_evaluating q) hresolve hq hr with ⟨-, hq'⟩ | ⟨-, hmeans⟩
  · rw [predicates_evaluating] at hq'
    cases hq'
    rw [hmemo] at hr
    cases hr
  · exact hmeans

theorem AtRest.settled_evaluating (h : w.AtRest Γ) (hd : w.program.Direct q.name) {name : String}
    (hname : name ∈ w.callable q.name) : (w.evaluating q).Settled name := by
  intro target q' hresolve hq hmemo
  rcases (w.varies_evaluating q).resolveAlias_either hd hresolve with ⟨rfl, rfl⟩ | ⟨-, htarget, -⟩
  · exact ⟨hname.resolve_right fun hne => hne rfl, List.mem_cons_self⟩
  · rw [(w.varies_evaluating q).predicates target htarget] at hq
    exact absurd hmemo (h.evaluated target q' hq)

theorem AtRest.yields_bodyRelation (h : w.AtRest Γ) (hd : w.program.Direct q.name)
    (hcontext : q.name ∉ ["adder", "equal", "less"]) (hk : k.Sound)
    (hq : q.States Γ R (w.callable q.name) L S)
    (hL : ∀ l ∈ L, l.relation.Means w.alphabet.diagrams fun _ => R) :
    Yields (Program.withScope [] (Program.bodyRelation k q)) (w.evaluating q) fun r v =>
      r.Means v.alphabet.diagrams fun _ => DefinedBy q.args S := by
  have hmem : ∀ name ∈ ["adder", "equal", "less"], name ∈ w.callable q.name :=
    fun name hname => .inr fun heq => hcontext (heq ▸ hname)
  refine (Program.yields_withScope (P := fun (r : Relation) v =>
    r.Means v.alphabet.diagrams fun _ => DefinedBy q.args S) ?_).mono ?_
  · exact ((h.right_evaluating hd hq.memo).under _).yields_body
      ⟨h.framed.nonempty, h.framed.vars⟩ h.free.enter
      (fun name hname => h.settled_evaluating hd hname)
      ⟨hmem _ (by simp), hmem _ (by simp), hmem _ (by simp)⟩ hL hk hq.nodup hq.own hq.within
      hq.reflects q.name
  · rintro r _ - ⟨v, -, hr, rfl⟩
    exact hr

theorem predicate_finishing {v : Workspace} (hle : w.evaluating q ≤ v) :
    Engine.predicate q.name v.finishing = .ok { q with closure := some [] } v.finishing := by
  refine Program.predicate_eq_ok (q := { q with closure := some [] }) ?_
  rw [← w.predicates_evaluating q, ← hle.predicates]
  rfl

theorem AtRest.of_evaluating (h : w.AtRest Γ) (hd : w.program.Direct q.name) (hmemo : q.memo = none)
    {v : Workspace} (hle : w.evaluating q ≤ v) {ps : Std.TreeMap String Predicate}
    (hps : ∀ name : String, name ≠ q.name → ps[name]? = v.program.predicates[name]?)
    {Γ' : Relations} (hΓ' : Γ'.Count) (hne : ∀ name ≠ q.name, Γ' name = Γ name)
    (hmeans : ∀ q', ps[q.name]? = some q' →
      ∃ r, q'.memo = some r ∧ r.Means v.alphabet.diagrams fun _ => Γ' q.name) :
    AtRest Γ' ⟨v.alphabet, { v.finishing.program with predicates := ps }⟩ := by
  have hbegun : (w.evaluating q).Framed := ⟨h.framed.nonempty, h.framed.vars⟩
  have hframed := hbegun.mono hle
  refine h.redefine (v := v) hd ⟨hle.context, ?_⟩ hle.alphabet hΓ' hne
    (hle.right _ (h.right_evaluating (R := fun _ => False) hd hmemo))
    ⟨hframed.nonempty, hframed.vars⟩ rfl rfl rfl (hle.restrictions.trans h.restrictions) ?_ hmeans
  · intro name hname
    rw [← (w.varies_evaluating q).predicates name hname, ← hle.predicates]
    exact hps name hname
  · have hprogress : v.program.inProgress = q.name :: w.program.inProgress := hle.inProgress
    show v.program.inProgress.drop 1 = []
    rw [hprogress, h.inProgress]
    rfl

structure Keeps (w w' : Workspace) : Prop where
  alphabet : w.alphabet ≤ w'.alphabet
  config : w'.program.config = w.program.config
  context : w'.program.context = w.program.context

end Workspace

/-- A name that says `R` from now on. -/
def Relations.define (Γ : Relations) (name : String) (R : List Nat → Prop) : Relations :=
  Function.update Γ name R

theorem Relations.define_self (Γ : Relations) (name : String) (R : List Nat → Prop) :
    Γ.define name R name = R := by
  rw [Relations.define, Function.update_self]

theorem Relations.define_of_ne (Γ : Relations) {name other : String} (R : List Nat → Prop)
    (h : other ≠ name) : Γ.define name R other = Γ other := by
  rw [Relations.define, Function.update_of_ne h]

theorem Relations.Count.define {Γ : Relations} (h : Γ.Count) {name : String}
    (hname : name ∉ ["adder", "equal", "less"]) (R : List Nat → Prop) :
    (Γ.define name R).Count := by
  have hne : ∀ other ∈ ["adder", "equal", "less"], Γ.define name R other = Γ other :=
    fun other hother => Γ.define_of_ne R fun heq => hname (heq ▸ hother)
  exact ⟨(hne _ (by simp)).trans h.adder, (hne _ (by simp)).trans h.equal,
    (hne _ (by simp)).trans h.less⟩

namespace Workspace

variable {Γ : Relations} {R : List Nat → Prop} {L : Set Literal} {S : Valuation → Prop}
  {w v w' : Workspace} {q : Predicate} {k : Engine} {e : Failure}

/-- The state without a predicate. -/
def removing (w : Workspace) (name : String) : Workspace :=
  ⟨w.alphabet, w.program.removePredicate name⟩

section

variable (h : w.AtRest Γ) (hd : w.program.Direct q.name)
  (hcontext : q.name ∉ ["adder", "equal", "less"]) (hk : k.Sound)
  (hq : q.States Γ R (w.callable q.name) L S)
  (hL : ∀ l ∈ L, l.relation.Means w.alphabet.diagrams fun _ => R)

include h hd hcontext hk hq hL

theorem AtRest.memoOf_ok {r : Relation} (hrun : k.memoOf q.name (w.adopting q) = .ok r w') :
    w'.AtRest (Γ.define q.name (DefinedBy q.args S)) ∧ w.Keeps w' := by
  rw [memoOf_eq hq.guards hq.closure hq.memo h.restrictions h.inProgress] at hrun
  cases hbody : Program.withScope [] (Program.bodyRelation k q) (w.evaluating q) with
  | error e v =>
    rw [hbody] at hrun
    cases hrun
  | ok r' v =>
    obtain ⟨hle, hmeans⟩ := (h.yields_bodyRelation hd hcontext hk hq hL).of_ok hbody
    simp only [hbody, predicate_finishing hle] at hrun
    cases hrun
    refine ⟨h.of_evaluating hd hq.memo hle (fun name hname => Program.predicates_adopt_of_ne
      (q := { q with closure := some [], memo := some r }) hname) (h.count.define hcontext _)
      (fun name hname => Γ.define_of_ne _ hname) ?_, hle.alphabet, hle.config, hle.context⟩
    intro q' hq'
    have heq := (Program.predicates_adopt v.finishing.program
      { q with closure := some [], memo := some r }).symm.trans hq'
    cases heq
    exact ⟨r, rfl, (Γ.define_self q.name _).symm ▸ hmeans⟩

theorem AtRest.memoOf_error (hrun : k.memoOf q.name (w.adopting q) = .error e w') :
    (w'.removing q.name).AtRest Γ ∧ w.Keeps (w'.removing q.name) := by
  rw [memoOf_eq hq.guards hq.closure hq.memo h.restrictions h.inProgress] at hrun
  cases hbody : Program.withScope [] (Program.bodyRelation k q) (w.evaluating q) with
  | error e' v =>
    have hle := (h.yields_bodyRelation hd hcontext hk hq hL).of_error hbody
    simp only [hbody] at hrun
    cases hrun
    refine ⟨h.of_evaluating hd hq.memo hle (fun name hname => ?_) h.count (fun _ _ => rfl) ?_,
      hle.alphabet, hle.config, hle.context⟩
    · exact Program.predicates_erase_of_ne hname
    · intro q' hq'
      rw [Program.predicates_erase] at hq'
      cases hq'
  | ok r v =>
    obtain ⟨hle, -⟩ := (h.yields_bodyRelation hd hcontext hk hq hL).of_ok hbody
    simp only [hbody, predicate_finishing hle] at hrun
    cases hrun

end

/-- The predicate that a definition without guards evaluates, with `y` as the annotated body. -/
def prepared (w : Workspace) (q : Predicate) (y : Expr) : Predicate :=
  { q with
    body := if w.program.config.optimize then (y.simplify.run 0).1 else y
    closure := none
    memo := none }

theorem define_eq {scope : Scope} {y : Expr} (hscope : Program.guardScope q.guards = .ok scope)
    (hinfer : Program.withScope scope (Program.inferred q.body) w = .ok y v) :
    Program.define q w =
      match Engine.standard.memoOf q.name (v.adopting (v.prepared q y)) with
      | .ok _ w' => .ok () w'
      | .error e w' => .error e (w'.removing q.name) := by
  have hdiscard : ∀ (x : Program.M Relation) (v : Workspace), (discard x : Program.M Unit) v =
      match x v with
      | .ok _ v' => .ok () v'
      | .error e v' => .error e v' := by
    intro x v
    show EStateM.map _ x v = _
    unfold EStateM.map
    cases x v <;> rfl
  have hprepared : (⟨v.alphabet, v.program.adopt (v.prepared q y)⟩ : Workspace) =
      v.adopting (v.prepared q y) := rfl
  simp only [Program.define, bind, EStateM.bind, hscope, liftM, monadLift, MonadLift.monadLift,
    pure, EStateM.pure, hinfer, Program.ask, Program.change, tryCatch, tryCatchThe,
    MonadExceptOf.tryCatch, EStateM.tryCatch, hdiscard]
  rw [prepared] at hprepared ⊢
  rw [hprepared]
  cases Engine.standard.memoOf q.name (v.adopting _) <;> rfl

/-- Once its guards and its body are accepted, a definition that fails leaves no predicate of its
name, even if there was one before. -/
theorem predicates_of_define_error {scope : Scope} {y : Expr}
    (hscope : Program.guardScope q.guards = .ok scope)
    (hinfer : Program.withScope scope (Program.inferred q.body) w = .ok y v)
    (hrun : Program.define q w = .error e w') : w'.program.predicates[q.name]? = none := by
  rw [define_eq hscope hinfer] at hrun
  split at hrun
  · cases hrun
  · cases hrun
    exact Program.predicates_erase _ q.name

/-- A definition leaves the state at rest. If it succeeds the name says what the body does; if it
fails all names say what they did. -/
theorem AtRest.define (h : w.AtRest Γ) (hd : w.program.Direct q.name)
    (hcontext : q.name ∉ ["adder", "equal", "less"])
    (hscope : Program.guardScope q.guards = .ok []) {y : Expr}
    (hinfer : Program.withScope [] (Program.inferred q.body) w = .ok y w)
    (hq : (w.prepared q y).States Γ R (w.callable q.name) L S)
    (hL : ∀ l ∈ L, l.relation.Means w.alphabet.diagrams fun _ => R) :
    (∀ w', Program.define q w = .ok () w' →
      w'.AtRest (Γ.define q.name (DefinedBy q.args S)) ∧ w.Keeps w') ∧
    ∀ e w', Program.define q w = .error e w' → w'.AtRest Γ ∧ w.Keeps w' := by
  rw [define_eq hscope hinfer]
  constructor
  · intro w' hrun
    split at hrun
    · rename_i r v hmemo
      cases hrun
      exact h.memoOf_ok (q := w.prepared q y) hd hcontext Program.sound_standard hq hL hmemo
    · cases hrun
  · intro e w' hrun
    split at hrun
    · cases hrun
    · rename_i e' v hmemo
      cases hrun
      exact h.memoOf_error (q := w.prepared q y) hd hcontext Program.sound_standard hq hL hmemo

theorem AtRest.define_plain (h : w.AtRest Γ) {name : String} (hd : w.program.Direct name)
    (hcontext : name ∉ ["adder", "equal", "less"]) {args : List String} (hnodup : args.Nodup)
    (hown : ∀ v ∈ args, IsOwn v) {body : Expr} (hbody : body.IsPlain {none} (w.callable name)) :
    (∀ w', Program.define (.ofBody name args [] body) w = .ok () w' →
      w'.AtRest (Γ.define name (DefinedBy args (body.Satisfied Γ))) ∧ w.Keeps w') ∧
    ∀ e w', Program.define (.ofBody name args [] body) w = .error e w' →
      w'.AtRest Γ ∧ w.Keeps w' := by
  obtain ⟨y, hrun, hy⟩ := Program.infer_eq_ok (w := w.under (w.program.restrictions.enter []))
    Engine.standard.truth hbody h.free.enter
  let z := (w.prepared (.ofBody name args [] body) y).body
  have hz : y.Restates (w.callable name) z := by
    show y.Restates _ (if _ then _ else _)
    split
    · exact Expr.restates_simplify 0 hy.plain
    · exact .refl hy.plain
  have hsatisfied : z.Satisfied Γ = body.Satisfied Γ := funext fun τ =>
    propext ((hz.satisfied_iff Γ τ).trans (hy.satisfied_iff Γ τ))
  refine h.define (q := .ofBody name args [] body) (R := fun _ => False) (L := ∅) hd hcontext rfl
    (Program.withScope_eq_ok hrun) ⟨rfl, rfl, rfl, hnodup, hown, ?_, ?_⟩ fun l hl => hl.elim
  · exact hz.plain.within (fun _ hv => hv) (fun _ hv => hv) subset_rfl
  · intro B hB
    exact hsatisfied ▸ reflects_satisfied (Γ.follows_interpretation _) h.count hz.plain hB

end Workspace

end RegularArithmetic
