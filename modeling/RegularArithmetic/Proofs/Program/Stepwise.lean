import RegularArithmetic.Program.Definition
import RegularArithmetic.Proofs.Automaton.Budget
import RegularArithmetic.Proofs.Program.Scopes

/-!
The steps that all evaluation is put together from. What is true of each step, and passes from
parts to the whole, is true of every question that is put to a program. No step looks at the
budget; the restrictions change in a scope only, the frames by new variables, and the predicates
when a memo is made.
-/

set_option autoImplicit false

namespace RegularArithmetic.Program

theorem endOf_followedBy_change {α : Type} (x : M α) (f : Program → Program) (w : Workspace) :
    endOf (followedBy x (change f)) w = ⟨(endOf x w).alphabet, f (endOf x w).program⟩ := by
  simp only [endOf, followedBy, change]
  cases x w <;> rfl

/-- Wherever it starts, the computation ends with a program that `R` relates to the first one. -/
abbrev Leads {α : Type} (R : Program → Program → Prop) (x : M α) : Prop :=
  Along (InvImage R Workspace.program) x

instance {R : Program → Program → Prop} [IsPreorder Program R] :
    IsPreorder Workspace (InvImage R Workspace.program) where
  refl _ := Std.Refl.refl (r := R) _
  trans _ _ _ := IsTrans.trans (r := R) _ _ _

namespace Leads

variable {α : Type} {R : Program → Program → Prop} {x : M α}

theorem change {f : Program → Program} (hf : ∀ p, R p (f p)) : Leads R (Program.change f) :=
  fun w => hf w.program

/-- What is undone in the end, whatever was computed in between. -/
theorem enclosed {enter leave : Program → Program} (hx : Leads R x)
    (h : ∀ p q, R (enter p) q → R p (leave q)) : Leads R (do
      Program.change enter
      followedBy x (Program.change leave)) := by
  intro w
  have hend := endOf_followedBy_change x leave ⟨w.alphabet, enter w.program⟩
  change R w.program (endOf (followedBy x (Program.change leave)) _).program
  rw [hend]
  exact h _ _ (hx ⟨w.alphabet, enter w.program⟩)

variable [IsPreorder Program R]

theorem ask (q : Program → α) : Leads R (ask q) := fun w => Std.Refl.refl (r := R) w.program

theorem liftAlphabet (x : Alphabet.M α) : Leads R (liftM x : M α) := by
  rintro ⟨alphabet, program⟩
  simp only [endOf, liftM, monadLift, MonadLift.monadLift]
  cases x alphabet <;> exact Std.Refl.refl (r := R) program

theorem liftError (x : Except Error α) : Leads R (liftM x : M α) := by
  cases x with
  | ok r => exact .pure r
  | error e => exact Along.throw (Failure.error e)

theorem predicate (name : String) : Leads R (Engine.predicate name) := by
  refine (ask _).bind fun ps => ?_
  split
  · exact .pure _
  · exact .throw _

end Leads

/-- The program with another budget. -/
def within (p : Program) (limit : Option Nat) : Program :=
  { p with config := { p.config with budget := limit } }

/-- Evaluates the body of a predicate whose closure is known. -/
def Engine.evaluateUnder (k : Engine) (name : String) (q : Predicate) (closure : Scope) :
    M Relation :=
  withScope (q.guards.foldl (fun s (v, g) => s.add v g) closure) do
    let formals ← q.args.mapM fun v => (Alphabet.fresh v : M Nat)
    withFrame ⟨.sealed, name, (q.args.zip formals).reverse⟩ do
      let r ← ask (·.restrictions)
      let a ← k.formula (conjoin (q.args.flatMap r.visible) q.body)
      return ⟨a.withProps formals, formals⟩

theorem Engine.evaluateBody_eq (k : Engine) (name : String) : k.evaluateBody name = (do
    let q ← predicate name
    let closure ← closureOf q
    k.evaluateUnder name q closure) := rfl

/-- A memo is made by the way: a relation between programs that does not mind predicates that are
taken in, or one that is in progress meanwhile, is kept if the evaluation of bodies keeps it. -/
theorem Leads.memoOf {R : Program → Program → Prop} [IsPreorder Program R] {k : Engine}
    {name : String} (hadopt : ∀ p q, R p (p.adopt q))
    (hprogress : ∀ p q, R { p with inProgress := name :: p.inProgress } q →
      R p { q with inProgress := q.inProgress.drop 1 })
    (h : ∀ q closure, Leads R (k.evaluateUnder name q closure)) : Leads R (k.memoOf name) := by
  have hclosure : ∀ q, Leads R (Engine.closureOf q) := by
    intro q
    unfold Engine.closureOf
    split
    · exact .pure _
    · exact (ask _).bind fun r => Along.bind (change fun p => hadopt p _) fun _ => .pure _
  have hbody : Leads R (k.evaluateBody name) := by
    rw [Engine.evaluateBody_eq]
    exact (predicate name).bind fun q => (hclosure q).bind fun closure => h q closure
  have hmake : Leads R (do
      let r ← Engine.whileInProgress name (k.evaluateBody name)
      Program.change (·.adopt { ← Engine.predicate name with memo := some r })
      return r) :=
    Along.bind (enclosed hbody hprogress) fun r => (predicate name).bind fun q =>
      Along.bind (change fun p => hadopt p _) fun _ => .pure r
  unfold Engine.memoOf
  refine (predicate name).bind fun q => ?_
  split
  · exact .pure _
  · exact (ask _).bind fun config => (ask _).bind fun names => .ite (.throw _) hmake

/-- The computation is put together from the steps of evaluation. -/
inductive Stepwise : {α : Type} → M α → Prop
  | pure {α : Type} (r : α) : Stepwise (Pure.pure r)
  | throw {α : Type} (f : Failure) : Stepwise (MonadExcept.throw f : M α)
  | bind {α β : Type} {x : M α} {g : α → M β} (hx : Stepwise x) (hg : ∀ r, Stepwise (g r)) :
    Stepwise (x >>= g)
  | reads {α : Type} {g : Program → M α} (hg : ∀ p limit, g (p.within limit) = g p)
    (h : ∀ p, Stepwise (g p)) : Stepwise fun w => g w.program w
  | alphabet {α : Type} {x : Alphabet.M α} (hx : Frugal x) : Stepwise (liftM x : M α)
  | temporaryName (hint : String) : Stepwise (temporaryName hint)
  | temporary {hint : String} (hhint : hint ∈ hints) : Stepwise (temporary hint)
  | propOf (v : String) : Stepwise (propOf v)
  | remember (key : Nat × Domain) (v : Value) :
    Stepwise (change fun p => { p with constants := (key, v) :: p.constants })
  | inScope {α : Type} {x : M α} (s : Scope) (hx : Stepwise x) : Stepwise (withScope s x)
  | inFrame {α : Type} {x : M α} (f : Frame) (hx : Stepwise x) : Stepwise (withFrame f x)
  | memoOf {k : Engine} (name : String)
    (h : ∀ q closure, Stepwise (k.evaluateUnder name q closure)) : Stepwise (k.memoOf name)

namespace Stepwise

variable {α β : Type} {x y : M α}

theorem map (f : α → β) (hx : Stepwise x) : Stepwise (f <$> x) := by
  rw [map_eq_pure_bind]
  exact hx.bind fun r => .pure (f r)

theorem throw_bind (f : Failure) (g : α → M β) :
    Stepwise ((MonadExcept.throw f : M α) >>= g) := .throw f

theorem ite {c : Prop} [Decidable c] (hx : c → Stepwise x) (hy : ¬c → Stepwise y) :
    Stepwise (if c then x else y) := by
  split
  · exact hx ‹_›
  · exact hy ‹_›

theorem mapM {g : α → M β} {l : List α} (hg : ∀ r ∈ l, Stepwise (g r)) :
    Stepwise (l.mapM g) := by
  induction l with
  | nil =>
    rw [List.mapM_nil]
    exact .pure []
  | cons r l ih =>
    rw [List.mapM_cons]
    refine (hg r List.mem_cons_self).bind fun b => ?_
    exact (ih fun r' hr' => hg r' (List.mem_cons_of_mem r hr')).bind fun bs => .pure (b :: bs)

theorem ask_bind {q : Program → β} {g : β → M α}
    (hq : ∀ p limit, g (q (p.within limit)) = g (q p)) (h : ∀ p, Stepwise (g (q p))) :
    Stepwise (ask q >>= g) :=
  .reads (g := fun p => g (q p)) hq h

theorem liftDiagram (x : Diagram.M α) : Stepwise (liftM x : M α) := .alphabet (.liftDiagram x)

theorem liftFault (x : Except Fault α) : Stepwise (liftM x : M α) := .alphabet (.liftFault x)

theorem liftError (x : Except Error α) : Stepwise (liftM x : M α) := by
  cases x with
  | ok r => exact .pure r
  | error e => exact .throw (.error e)

theorem fresh (hint : String) : Stepwise (liftM (Alphabet.fresh hint) : M Nat) :=
  .alphabet (.fresh hint)

theorem inGuardedScope (v : String) (g : Option Call) (hx : Stepwise x) :
    Stepwise (withScope [] do
      if let some c := g then restrictBy (·.restrict v c)
      x) := by
  refine (congrArg Stepwise (withScope_restrictBy v g x)).mpr ?_
  exact .ite (fun _ => hx.inScope _) fun _ => .throw _

end Stepwise

theorem resolveAlias_within (p : Program) (limit : Option Nat) (name : String) :
    (p.within limit).resolveAlias name = p.resolveAlias name :=
  resolveAlias_congr rfl rfl name

theorem frugal_combine (a : Automaton) (vs : List Value) : Frugal (combine a vs) :=
  (Frugal.foldlM (fun a v => a.frugal_intersect v.automaton) vs a).bind fun a => a.frugal_project _

/-- Whatever the engine computes, it computes step by step. -/
structure Engine.Steady (k : Engine) : Prop where
  formula : ∀ x, Stepwise (k.formula x)
  value : ∀ x, Stepwise (k.value x)
  truth : ∀ x, Stepwise (k.truth x)

namespace Engine.Steady

variable {α : Type} {k : Engine} (hk : k.Steady)

/-! ### Calls -/

include hk

theorem evaluateUnder (name : String) (q : Predicate) (closure : Scope) :
    Stepwise (k.evaluateUnder name q closure) := by
  refine .inScope _ ((Stepwise.mapM fun v _ => .fresh v).bind fun formals => .inFrame _ ?_)
  refine .ask_bind (fun _ _ => rfl) fun p => ?_
  exact (hk.formula _).bind fun _ => .pure _

theorem memoOf (name : String) : Stepwise (k.memoOf name) :=
  .memoOf name fun q closure => hk.evaluateUnder name q closure

theorem relationOf (name : String) : Stepwise (k.relationOf name) := by
  refine .ask_bind (fun p limit => ?_) fun p => ?_
  · simp only [id, resolveAlias_within]
  · exact (Stepwise.liftError _).bind fun target => (hk.memoOf target).bind fun _ => .pure _

theorem callOn (name : String) (vars : List String) : Stepwise (k.callOn name vars) := by
  refine (hk.relationOf name).bind fun (target, r) => .ite (fun _ => .throw_bind _ _) fun _ => ?_
  exact (Stepwise.mapM fun v _ => .propOf v).bind fun actuals => .liftDiagram _

theorem argument (x : Expr) : Stepwise (k.argument x) := by
  unfold Engine.argument
  split
  · exact .pure _
  · exact .ite (fun _ => .throw_bind _ _) fun _ => (hk.value x).bind fun v => .pure _

theorem apply (c : Call) : Stepwise (k.apply c) := by
  refine (Stepwise.mapM fun x _ => hk.argument x).bind fun args => ?_
  exact (hk.callOn c.name _).bind fun a => .alphabet (frugal_combine a _)

theorem call (c : Call) : Stepwise (k.call c) :=
  .ask_bind (fun _ _ => rfl) fun _ => (Stepwise.liftError _).bind fun c' => hk.apply c'

theorem relation (name : String) (vars : List (String × Domain)) :
    Stepwise (k.relation name vars) :=
  .ask_bind (fun _ _ => rfl) fun _ => (Stepwise.liftError _).bind fun c => hk.apply c

omit hk in
theorem result (a : Automaton) (operands : List Value) (name : String) (p : Nat) :
    Stepwise (Engine.result a operands name p) :=
  (Stepwise.alphabet (frugal_combine a operands)).bind fun _ => .pure _

/-! ### Integer expressions -/

theorem add (d : Domain) (x y : Value) : Stepwise (k.add d x y) := by
  refine (Stepwise.temporary (by simp [hints])).bind fun (name, p) => ?_
  refine .ask_bind (fun _ _ => rfl) fun q => ?_
  exact (hk.relation "adder" _).bind fun a => result a _ name p

theorem sub (d : Domain) (x y : Value) : Stepwise (k.sub d x y) := by
  refine (Stepwise.temporary (by simp [hints])).bind fun (name, p) => ?_
  refine .ask_bind (fun _ _ => rfl) fun q => ?_
  exact (hk.relation "adder" _).bind fun a => result a _ name p

theorem multiple (d : Domain) (m : Nat) : ∀ (acc : Option Value) (power : Value),
    Stepwise (k.multiple d acc power m) := by
  induction m using Nat.strong_induction_on with
  | _ m ih =>
    intro acc power
    -- Whether the power is added or comes first, it is doubled next.
    have hnext : ∀ {added : M Value}, Stepwise added → Stepwise (if m ≤ 1 then added else do
        let acc ← if m % 2 = 1 then some <$> added else pure acc
        let power ← k.add d power power
        k.multiple d acc power (m / 2)) := by
      intro added hadded
      refine .ite (fun _ => hadded) fun hm => ?_
      have hrest : ∀ acc, Stepwise (do
          let power ← k.add d power power
          k.multiple d acc power (m / 2)) := fun acc =>
        (hk.add d power power).bind fun power => ih (m / 2) (by omega) acc power
      split
      · exact (hadded.map some).bind hrest
      · exact hrest acc
    rw [Engine.multiple.eq_def]
    cases acc with
    | none => exact hnext (.pure power)
    | some a => exact hnext (hk.add d a power)

theorem zero (d : Domain) : Stepwise (k.zero d) := by
  refine (Stepwise.temporary (by simp [hints])).bind fun (name, p) =>
    (Stepwise.liftFault _).bind fun a => ?_
  refine (Stepwise.liftDiagram _).bind fun e => (Stepwise.liftDiagram _).bind fun a => ?_
  split
  · exact .pure _
  · exact (hk.call _).bind fun b => (Stepwise.alphabet (Automaton.frugal_intersect _ b)).bind
      fun _ => .pure _

theorem one (d : Domain) : Stepwise (k.one d) := by
  refine (Stepwise.temporary (by simp [hints])).bind fun (name, p) =>
    (Stepwise.temporaryName "y").bind fun y => ?_
  exact (hk.formula _).bind fun _ => .pure _

omit hk in
theorem rebind (v : Value) : Stepwise (rebind v) :=
  (Stepwise.temporary (by simp [hints])).bind fun (_, _) =>
    (Stepwise.liftDiagram _).bind fun _ => .pure _

theorem constant (d : Domain) (n : Nat) : Stepwise (k.constant d n) := by
  induction n using Nat.strong_induction_on with
  | _ n ih =>
    rw [Engine.constant.eq_def]
    refine .ask_bind (fun _ _ => rfl) fun p => ?_
    split
    · exact rebind _
    · have hremember : ∀ v, Stepwise (do
          change fun p => { p with constants := ((n, d), v) :: p.constants }
          return v) := fun v => (Stepwise.remember (n, d) v).bind fun _ => .pure v
      split
      · exact (hk.zero d).bind hremember
      · split
        · exact (hk.one d).bind hremember
        · split
          · exact (ih (n / 2) (by omega)).bind fun v => (hk.add d v v).bind hremember
          · rename_i hzero _ hpower
            have hpos : 0 < Nat.pow 2 n.log2 := Nat.two_pow_pos _
            have hlt : Nat.pow 2 n.log2 < n :=
              Nat.lt_of_le_of_ne (Nat.log2_self_le hzero) (Ne.symm hpower)
            exact (ih _ hlt).bind fun v => (ih _ (by omega)).bind fun w =>
              (hk.add d v w).bind hremember

theorem scale (d : Domain) (n : Nat) (x : Expr) : Stepwise (k.scale d n x) :=
  .ite (fun _ => hk.constant d 0) fun _ => (hk.value x).bind fun v => hk.multiple d n none v

theorem evaluateValue (x : Expr) : Stepwise (k.evaluateValue x) := by
  unfold Engine.evaluateValue
  dsimp only
  split
  · exact hk.constant _ _
  split
  · exact (Stepwise.propOf _).bind fun _ => .pure _
  · exact (hk.value _).bind fun v => (hk.value _).bind fun w => hk.add _ v w
  · exact (hk.value _).bind fun v => (hk.value _).bind fun w => hk.sub _ v w
  · split
    · exact hk.scale _ _ _
    · exact hk.scale _ _ _
    · exact .throw _
  · exact .throw _
  · exact .throw _

/-! ### Formulas -/

theorem evaluateSome (v : String) (guard : Option Call) (x : Expr) :
    Stepwise (k.evaluateSome v guard x) := by
  refine .ask_bind (fun _ _ => rfl) fun p => .inGuardedScope v guard ?_
  refine (Stepwise.fresh v).bind fun q => .inFrame _ ?_
  exact (hk.formula _).bind fun a => .alphabet (a.frugal_project _)

omit hk in
theorem evaluateLiteral (l : Literal) : Stepwise (Engine.evaluateLiteral l) :=
  (Stepwise.mapM fun (v, _) _ => (Stepwise.propOf v).bind fun _ => .pure _).bind
    fun _ => .liftDiagram _

theorem evaluateComparison (op : Comparison) (x y : Expr) :
    Stepwise (k.evaluateComparison op x y) := by
  refine (hk.value x).bind fun v => (hk.value y).bind fun w => ?_
  refine .ask_bind (fun _ _ => rfl) fun p => ?_
  exact (hk.relation _ _).bind fun a => .alphabet (frugal_combine a [v, w])

theorem evaluateIff (x y : Expr) : Stepwise (k.evaluateIff x y) := by
  refine (hk.formula x).bind fun a => (hk.formula y).bind fun b => ?_
  refine (Stepwise.alphabet (a.frugal_intersect b)).bind fun both => ?_
  refine (Stepwise.liftDiagram _).bind fun a' => (Stepwise.liftDiagram _).bind fun b' => ?_
  exact (Stepwise.alphabet (Automaton.frugal_intersect a' b')).bind fun neither =>
    .alphabet (Automaton.frugal_union both neither)

theorem evaluateFormula (x : Expr) : Stepwise (k.evaluateFormula x) := by
  obtain ⟨f, d⟩ := x
  unfold Engine.evaluateFormula
  cases f with
  | truth b => cases b <;> exact .pure _
  | and y z =>
    refine (hk.formula y).bind fun a => (Stepwise.liftFault _).bind fun empty => ?_
    refine .ite (fun _ => .pure a) fun _ => ?_
    exact (hk.formula z).bind fun b => .alphabet (a.frugal_intersect b)
  | or y z =>
    exact (hk.formula y).bind fun a => (hk.formula z).bind fun b => .alphabet (a.frugal_union b)
  | not y => exact (hk.formula y).bind fun a => .liftDiagram _
  | forSome v g y => exact hk.evaluateSome v g y
  | call c => exact hk.call c
  | automaton l => exact evaluateLiteral l
  | index r i => exact hk.call ⟨r, [i]⟩
  | rangeEq r s e u t f =>
    exact (Stepwise.temporaryName "len").bind fun len => (Stepwise.temporaryName "n").bind
      fun n => hk.formula _
  | compare op y z =>
    dsimp only
    split
    · exact hk.evaluateComparison _ y z
    · exact hk.evaluateIff y z
    · exact .throw _
  | var v => exact .throw _
  | num n => exact .throw _
  | arith op y z => exact .throw _

end Engine.Steady

/-! ### Finding domains -/

namespace Stepwise

variable {truth : Expr → M Truth}

theorem implies (htruth : ∀ x, Stepwise (truth x)) (a b : Domain) :
    Stepwise (Domain.implies truth a b) := by
  have htrue : ∀ x, Stepwise (Domain.isTrue truth x) := fun x =>
    (htruth x).bind fun _ => .pure _
  unfold Domain.implies
  split
  · exact .pure _
  · exact htrue _
  · exact htrue _

theorem unify (htruth : ∀ x, Stepwise (truth x)) (a b : Domain) :
    Stepwise (Domain.unify truth a b) := by
  unfold Domain.unify
  split
  · exact .pure _
  · exact .pure _
  · exact .pure _
  · exact (implies htruth _ _).bind fun _ =>
      .ite (fun _ => .pure _) fun _ => .throw _
  · exact (implies htruth _ _).bind fun _ =>
      .ite (fun _ => .pure _) fun _ => .throw _
  · refine .ite (fun _ => .pure _) fun _ => ?_
    refine (implies htruth _ _).bind fun _ => (implies htruth _ _).bind fun _ => ?_
    exact .ite (fun _ => .pure _) fun _ => .ite (fun _ => .pure _) fun _ => .throw _

mutual

theorem inferExpr (htruth : ∀ x, Stepwise (truth x)) : ∀ x : Expr, Stepwise (inferExpr truth x)
  | ⟨f, d⟩ => by
    rw [Program.inferExpr]
    exact inferForm htruth f d

theorem inferForm (htruth : ∀ x, Stepwise (truth x)) :
    ∀ (f : Form) (d : Option Domain), Stepwise (inferForm truth d f)
  | .var v, d => by
    rw [Program.inferForm]
    split
    · exact .pure _
    · exact .ask_bind (fun _ _ => rfl) fun p => (Stepwise.liftError _).bind fun _ => .pure _
  | .num n, d => .pure _
  | .truth b, d => .pure _
  | .automaton l, d => .pure _
  | .arith op x y, d => by
    rw [Program.inferForm]
    refine (inferExpr htruth x).bind fun x' => (inferExpr htruth y).bind fun y' => ?_
    refine (unify htruth _ _).bind fun e => Stepwise.bind ?_ fun _ => .pure _
    unfold arithmeticDomain
    split
    · exact unify htruth _ _
    · exact .pure _
  | .compare op x y, d => by
    rw [Program.inferForm]
    refine (inferExpr htruth x).bind fun x' => (inferExpr htruth y).bind fun y' => ?_
    refine .ite (fun _ => .pure _) fun _ => ?_
    exact (unify htruth _ _).bind fun _ => .pure _
  | .and x y, d => by
    rw [Program.inferForm]
    exact (inferExpr htruth x).bind fun _ => (inferExpr htruth y).bind fun _ => .pure _
  | .or x y, d => by
    rw [Program.inferForm]
    exact (inferExpr htruth x).bind fun _ => (inferExpr htruth y).bind fun _ => .pure _
  | .not x, d => by
    rw [Program.inferForm]
    exact (inferExpr htruth x).bind fun _ => .pure _
  | .forSome v g x, d => by
    rw [Program.inferForm]
    exact .inGuardedScope v g ((inferExpr htruth x).bind fun _ => .pure _)
  | .call ⟨n, xs⟩, d => by
    rw [Program.inferForm, inferCall]
    exact Stepwise.bind ((inferArgs htruth xs).bind fun _ => .pure _) fun _ => .pure _
  | .index r i, d => by
    rw [Program.inferForm]
    exact (inferExpr htruth i).bind fun _ => .pure _
  | .rangeEq r s e u t f, d => by
    rw [Program.inferForm]
    refine (inferExpr htruth s).bind fun _ => (inferExpr htruth e).bind fun _ => ?_
    exact (inferExpr htruth t).bind fun _ => (inferExpr htruth f).bind fun _ => .pure _

theorem inferArgs (htruth : ∀ x, Stepwise (truth x)) :
    ∀ xs : List Expr, Stepwise (inferArgs truth xs)
  | [] => .pure _
  | x :: xs => by
    rw [Program.inferArgs]
    exact (inferExpr htruth x).bind fun _ => (inferArgs htruth xs).bind fun _ => .pure _

end

theorem infer (htruth : ∀ x, Stepwise (truth x)) (x : Expr) : Stepwise (infer truth x) :=
  (inferExpr htruth x).bind fun _ => .pure _

end Stepwise

/-! ### Questions -/

theorem Engine.Steady.evaluateTruth {k : Engine} (hk : k.Steady) (x : Expr) :
    Stepwise (k.evaluateTruth x) := by
  refine .inFrame _ ((Stepwise.infer hk.truth x).bind fun y => ?_)
  exact (hk.formula y).bind fun a => .liftDiagram _

theorem steady_ofDepth (n : Nat) : (Engine.ofDepth n).Steady := by
  induction n with
  | zero => exact ⟨fun _ => .throw _, fun _ => .throw _, fun _ => .throw _⟩
  | succ n ih => exact ⟨ih.evaluateFormula, ih.evaluateValue, ih.evaluateTruth⟩

theorem steady_standard : Engine.standard.Steady := steady_ofDepth Engine.limit

theorem stepwise_inferred (x : Expr) : Stepwise (inferred x) :=
  .infer steady_standard.truth x

theorem stepwise_truthOf (x : Expr) : Stepwise (truthOf x) := steady_standard.truth x

theorem stepwise_automatonOf (name : String) : Stepwise (automatonOf name) :=
  (steady_standard.relationOf name).bind fun _ => .pure _

theorem stepwise_callOn (name : String) (vars : List String) : Stepwise (callOn name vars) :=
  steady_standard.callOn name vars

theorem stepwise_predicateTruth (name : String) : Stepwise (predicateTruth name) :=
  (stepwise_automatonOf name).bind fun _ => .liftDiagram _

theorem stepwise_constantOf (d : Domain) (n : Nat) : Stepwise (constantOf d n) :=
  (steady_standard.constant d n).bind fun _ => .pure _

theorem stepwise_witness (x : Expr) : Stepwise (witness x) := by
  refine .inFrame _ ((stepwise_inferred x).bind fun y => ?_)
  refine (steady_standard.formula y).bind fun a => .ask_bind (fun _ _ => rfl) fun p => ?_
  refine (Stepwise.liftDiagram _).bind fun word => ?_
  split
  · exact .pure _
  · exact .pure _

end RegularArithmetic.Program
