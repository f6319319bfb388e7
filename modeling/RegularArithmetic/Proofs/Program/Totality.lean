import RegularArithmetic.Proofs.Program.Budget
import RegularArithmetic.Proofs.Program.Evaluation
import RegularArithmetic.Proofs.Program.Reuse

/-!
Evaluations that do not fail. Without a budget, and where all relations that are asked for have been
evaluated, the numbers of a domain can be made.
-/

set_option autoImplicit false

namespace RegularArithmetic

open Program (M Engine findVar)

namespace Workspace

variable {I : Interpretation} {K : Limits} {d : Domain} {w w' : Workspace} {name : String} {n : Nat}

/-- The name leads to a relation between so many numbers that has been evaluated. -/
def Remembers (w : Workspace) (name : String) (n : Nat) : Prop :=
  ∃ target q r, w.program.resolveAlias name = .ok target ∧
    w.program.predicates[target]? = some q ∧ q.memo = some r ∧ r.args.length = n

theorem Remembers.mono (h : w.Remembers name n) (hle : w ≤ w') : w'.Remembers name n := by
  obtain ⟨target, q, r, htarget, hq, hr⟩ := h
  exact ⟨target, q, r, (resolveAlias_eq hle name).trans htarget, hle.predicates ▸ hq, hr⟩

/-- The domain is that of all numbers, or is made of a relation about one number that has been
evaluated. -/
inductive Covers (w : Workspace) : Domain → Prop
  | any : w.Covers .any
  | restricted {name : String} (h : w.Remembers name 1) (e : Option Domain) :
    w.Covers (.restricted ⟨name, [⟨.var selfName, e⟩]⟩)

theorem Covers.imp (h : w.Covers d) (hw : ∀ name, w.Remembers name 1 → w'.Remembers name 1) :
    w'.Covers d := by
  cases h with
  | any => exact .any
  | restricted h e => exact .restricted (hw _ h) e

/-- Evaluation within the limits, the numbers of the domain included, is not kept from an end: no
budget is set, what is asked for has been evaluated, and variables have propositions. -/
structure Assured (I : Interpretation) (K : Limits) (d : Domain) (w : Workspace) : Prop extends
    Ready I K w where
  closed : d.Closed K
  covers : w.Covers d
  adder : w.Remembers "adder" 3
  equal : w.Remembers "equal" 2
  less : w.Remembers "less" 2
  bound : ∀ v ∈ K.vars, ∃ p, findVar v w.program.frames = .bound p
  positive : ∀ f ∈ w.program.frames, ∀ v p, (v, p) ∈ f.vars → p ≠ 0
  budget : w.alphabet.budget = none

namespace Assured

theorem mono (h : w.Assured I K d) (hle : w ≤ w') (hbudget : w'.alphabet.budget = none) :
    w'.Assured I K d where
  toReady := h.toReady.mono hle
  closed := h.closed
  covers := h.covers.imp fun _ hname => hname.mono hle
  adder := h.adder.mono hle
  equal := h.equal.mono hle
  less := h.less.mono hle
  bound v hv := by
    obtain ⟨p, hp⟩ := h.bound v hv
    exact ⟨p, Program.findVar_of_grows hle.frames (h.suits.vars v hv) hp⟩
  positive f' hf' v p hp := by
    obtain ⟨f, hf, hgrows⟩ := exists_mem_of_forall₂ hle.frames.flip hf'
    obtain ⟨extra, hvars, -, hextra⟩ := hgrows.vars
    rw [hvars] at hp
    rcases List.mem_append.1 hp with hp | hp
    · exact Nat.ne_zero_of_lt (hextra v p hp).1.1
    · exact h.positive f hf v p hp
  budget := hbudget

theorem ne_zero (h : w.Assured I K d) {v : String} {p : Nat}
    (hp : findVar v w.program.frames = .bound p) : p ≠ 0 := by
  obtain ⟨f, hf, hv⟩ := Program.exists_of_findVar hp
  exact h.positive f hf v p hv

/-- Other variables may be looked up that are bound. -/
theorem about (h : w.Assured I K d) {vs bs : Set String} (hready : w.Ready I (K.about vs bs))
    (hbound : ∀ v ∈ vs, ∃ p, findVar v w.program.frames = .bound p) :
    w.Assured I (K.about vs bs) d :=
  { h with
    toReady := hready
    closed := Domain.Closed.mono h.closed subset_rfl
    bound := hbound }

/-- The body of a quantifier is evaluated in such a state too. -/
theorem body (h : w.Assured I K d) {v : String} {g : Option Call} (hv : v ∈ K.binders)
    (hg : withinGuard g (K.bind v)) {x : Alphabet} (hx : w.alphabet ≤ x) {p : Nat}
    (hp : p ≤ x.size) (hpositive : p ≠ 0) (hbudget : x.budget = none) :
    Assured I (K.bind v) d ⟨x, { w.program with
      restrictions := w.program.restrictions.enter (Program.guardScopeOf v g)
      frames := ⟨.transparent, v, [(v, p)]⟩ :: w.program.frames }⟩ where
  toReady := h.toReady.body hv hg hx hp
  closed := Domain.Closed.mono h.closed subset_rfl
  covers := h.covers.imp fun _ hname => hname
  adder := h.adder
  equal := h.equal
  less := h.less
  bound := by
    intro u hu
    by_cases huv : u = v
    · exact ⟨p, by simp [findVar, huv]⟩
    · obtain ⟨q, hq⟩ := h.bound u (hu.resolve_left huv)
      exact ⟨q, by simpa [findVar, List.lookup_cons, beq_false_of_ne huv] using hq⟩
  positive f hf u q hq := by
    rcases List.mem_cons.1 hf with rfl | hf
    · cases List.mem_singleton.1 hq
      exact hpositive
    · exact h.positive f hf u q hq
  budget := hbudget

/-- What succeeds leaves the state an assured one. -/
theorem returns {α : Type} {x : M α} {P : α → Workspace → Prop} (h : w.Assured I K d)
    (hx : Program.Stepwise x) (hsucceeds : Succeeds x w) (hyields : Yields x w P) :
    Returns x w fun a w' => w'.Assured I K d ∧ P a w' := by
  obtain ⟨a, w', hrun, hle, ha⟩ := hsucceeds.returns hyields
  exact ⟨a, w', hrun, hle, h.mono hle ((hx.leavesBudget w a w' hrun).trans h.budget), ha⟩

end Assured

end Workspace

namespace Program

open Workspace (HasOperands)

variable {α : Type} {I : Interpretation} {K : Limits} {d : Domain} {w : Workspace} {k : Engine}

theorem succeeds_liftAlphabet {x : Alphabet.M α} (h : Succeeds x w.alphabet) :
    Succeeds (liftM x : M α) w := by
  obtain ⟨alphabet, program⟩ := w
  obtain ⟨r, y, hrun⟩ := h
  exact ⟨r, ⟨y, program⟩, by simp only [liftM, monadLift, MonadLift.monadLift, hrun]⟩

theorem succeeds_liftDiagram {x : Diagram.M α} (h : Succeeds x w.alphabet.diagrams) :
    Succeeds (liftM x : M α) w := by
  obtain ⟨⟨diagrams, names, literals, budget⟩, program⟩ := w
  obtain ⟨r, s, hrun⟩ := h
  exact ⟨r, ⟨⟨s, names, literals, budget⟩, program⟩, by
    simp only [liftM, monadLift, MonadLift.monadLift, hrun]⟩

theorem returns_ask (q : Program → α) : Returns (ask q) w fun r w' => r = q w.program ∧ w' = w :=
  ⟨q w.program, w, rfl, le_rfl, rfl, rfl⟩

theorem succeeds_temporaryName (hint : String) : Succeeds (temporaryName hint) w := ⟨_, _, rfl⟩

theorem succeeds_temporary (hint : String) : Succeeds (temporary hint) w := by
  obtain ⟨name, w₁, hname⟩ := succeeds_temporaryName (w := w) hint
  obtain ⟨p, w₂, hfresh⟩ := succeeds_liftAlphabet (w := w₁) (returns_fresh name).succeeds
  exact ⟨_, _, (bind_of_ok hname).trans (bind_of_ok hfresh)⟩

theorem returns_temporary (hw : w.Assured I K d) {hint : String} (hhint : hint ∈ hints) :
    Returns (temporary hint) w fun r w' => w'.Assured I K d ∧ w.Introduces w' r.1 r.2 :=
  hw.returns (.temporary hhint) (succeeds_temporary hint) (yields_temporary hhint hw.framed)

/-! ### Calls -/

theorem succeeds_callOn (hw : w.Assured I K d) {name : String} (hname : name ∈ K.names)
    {vars : List String} (hr : w.Remembers name vars.length) {ps : List Nat}
    (hps : List.Forall₂ (fun v p => findVar v w.program.frames = .bound p) vars ps) :
    Succeeds (k.callOn name vars) w := by
  obtain ⟨target, q, r, htarget, hq, hmemo, hlength⟩ := hr
  have hmeans := hw.right.relations name (hw.suits.names hname) target q r htarget hq hmemo
  have hcall : k.callOn name vars w =
      (liftM (renameBy r.automaton (r.args.zip ps)) : M Automaton) w := by
    rw [Engine.callOn, bind_of_ok (relationOf_eq_of_resolveAlias htarget hq hmemo)]
    dsimp only
    rw [if_neg (not_not.2 hlength.symm)]
    exact bind_of_ok (mapM_propOf_eq hps)
  have hfst : (r.args.zip ps).map (·.1) = r.args :=
    List.map_fst_zip (hlength.trans hps.length_eq).le
  have hpositive : ∀ pq ∈ r.args.zip ps, 0 < pq.2 := fun pq hpq => by
    obtain ⟨v, -, hv⟩ := exists_mem_of_forall₂ hps.flip (List.of_mem_zip hpq).2
    exact Nat.pos_of_ne_zero (hw.ne_zero hv)
  have hrename := Automaton.returns_rename hw.sound hmeans.recognizes
    (Letter.actual_ne_zero (hfst.symm ▸ hmeans.nodup) hpositive)
  exact (succeeds_liftDiagram hrename.succeeds.bind_pure).of_eq hcall

theorem mapM_argument_of_forms {xs : List Expr} {vars : List String}
    (h : List.Forall₂ (fun x v => x.form = .var v) xs vars) :
    xs.mapM k.argument = (pure (vars.map fun v => (v, none)) : M _) := by
  induction h with
  | nil => rfl
  | @cons x v xs vars hx _ ih =>
    have hargument : k.argument x = (pure (v, none) : M _) := by
      unfold Engine.argument
      rw [hx]
    rw [List.mapM_cons, hargument, ih]
    rfl

theorem succeeds_apply (hw : w.Assured I K d) {name : String} (hname : name ∈ K.names)
    {xs : List Expr} {vars : List String} (hxs : List.Forall₂ (fun x v => x.form = .var v) xs vars)
    (hr : w.Remembers name vars.length) {ps : List Nat}
    (hps : List.Forall₂ (fun v p => findVar v w.program.frames = .bound p) vars ps) :
    Succeeds (k.apply ⟨name, xs⟩) w := by
  obtain ⟨a, w', hrun⟩ := succeeds_callOn (k := k) hw hname hr hps
  have hnames : (vars.map fun v => (v, (none : Option Value))).map (·.1) = vars := by
    simp [Function.comp_def]
  have hnone : (vars.map fun v => (v, (none : Option Value))).filterMap (·.2) = [] := by simp
  unfold Engine.apply
  rw [mapM_argument_of_forms hxs, pure_bind, hnames, hnone]
  exact ⟨a, w', bind_of_ok hrun⟩

theorem succeeds_relation (hw : w.Assured I K d) {name : String} (hname : name ∈ K.names)
    {vars : List (String × Domain)} {qs : List Nat}
    (hvars : List.Forall₂ (fun v q => findVar v.1 w.program.frames = .bound q ∧
      ¬IsFuture w.program.temporaries v.1) vars qs) (hr : w.Remembers name vars.length) :
    Succeeds (k.relation name vars) w := by
  unfold Engine.relation
  refine (returns_ask id).bind_succeeds fun p w' _ hasked => ?_
  obtain ⟨rfl, rfl⟩ := hasked
  rw [id_eq, resolveCall_eq hw.right.declarations]
  have hprops : List.Forall₂ (fun v p => findVar v w'.program.frames = .bound p)
      (vars.map (·.1)) qs := List.forall₂_map_left_iff.2 (hvars.imp fun v q h => h.1)
  refine succeeds_apply hw hname ?_ (by simpa using hr) hprops
  rw [List.forall₂_map_left_iff, List.forall₂_map_right_iff]
  exact List.forall₂_same.2 fun v _ => rfl

theorem succeeds_call_instantiate (hw : w.Assured I K d) {v : String} {p : Nat}
    (hp : findVar v w.program.frames = .bound p) :
    ∀ c ∈ d.instantiate? v, Succeeds (k.call c) w := by
  have hclosed := hw.closed
  cases hw.covers with
  | any => exact fun c hc => nomatch hc
  | @restricted name hname e =>
    intro c hc
    obtain rfl : (⟨name, [⟨.var v, e⟩]⟩ : Call) = c := by
      simpa [Domain.instantiate?, Call.subst, substArgs, Expr.subst, Form.subst, substName] using hc
    unfold Engine.call
    refine (returns_ask id).bind_succeeds fun q w' _ hasked => ?_
    obtain ⟨rfl, rfl⟩ := hasked
    rw [id_eq, resolveCall_eq hw.right.declarations]
    have hforms : List.Forall₂ (fun x v => x.form = .var v) [(⟨.var v, e⟩ : Expr)] [v] :=
      .cons rfl .nil
    exact succeeds_apply hw (hw.suits.domains.1 hclosed.1) hforms hname (.cons hp .nil)

/-! ### Values -/

theorem succeeds_combine {x : Alphabet} {a : Automaton} {vs : List Value} {V : Set Nat}
    {L : Word → Prop} {N : Value → Word → Prop} (hs : x.diagrams.Sound) (hbudget : x.budget = none)
    (ha : a.Recognizes x.diagrams V L)
    (hvs : ∀ v ∈ vs, v.automaton.Recognizes x.diagrams V (N v))
    (hpositive : ∀ v ∈ vs, v.temporary = true → v.prop ≠ 0) : Succeeds (combine a vs) x := by
  unfold combine
  refine (Returns.foldlM (fun _ b y => (x ≤ y ∧ y.budget = none) ∧
    ∃ L, b.Recognizes y.diagrams V L) ⟨⟨le_rfl, hbudget⟩, L, ha⟩ ?_).bind_succeeds
      fun b y hxy ⟨⟨_, hy⟩, L', hb⟩ => ?_
  · rintro done v rest hsplit b y ⟨⟨hxy, hy⟩, L', hb⟩
    have hv := (hvs v (by simp [hsplit])).mono_store hs hxy.1
    exact (Automaton.returns_intersect (hs.mono hxy.1) hy hb hv).mono
      fun c z hyz ⟨⟨hz, _⟩, hc⟩ => ⟨⟨le_trans hxy hyz, hz⟩, _, hc⟩
  · cases hempty : (temporaryProps vs).isEmpty with
    | true =>
      rw [Automaton.project_of_isEmpty hempty]
      exact .pure
    | false =>
      refine (Automaton.returns_project (hs.mono hxy.1) hy hb hempty fun p hp => ?_).succeeds
      obtain ⟨v, hv, rfl⟩ := List.mem_map.1 (mem_temporaryProps.1 hp)
      exact hpositive v (List.mem_filter.1 hv).1 (by simpa using (List.mem_filter.1 hv).2)

section

variable {l : Operands} {operands : List Value} {p : Nat}

theorem succeeds_combine_operands (hw : w.Assured I K d) (hl : w.HasOperands K l p)
    (hoperands : ∀ v ∈ operands, v ∈ l.map (·.1)) {a : Automaton} {V : Set Nat}
    {L : Word → Prop} (ha : a.Recognizes w.alphabet.diagrams V L) :
    Succeeds (liftM (combine a operands) : M Automaton) w := by
  refine succeeds_liftAlphabet (succeeds_combine hw.sound hw.budget
    (ha.mono (Set.subset_univ V)) (N := fun v => v.automaton.Accepts w.alphabet.diagrams)
    (fun v hv => ?_) fun v hv _ => ?_)
  all_goals
    obtain ⟨e, he, rfl⟩ := List.mem_map.1 (hoperands v hv)
    obtain ⟨start, hX⟩ := hl.stands e he
  · exact hX.recognizes.mono (Set.subset_univ _)
  · exact hw.ne_zero hX.bound

theorem succeeds_operation (hk : k.Steady) (hw : w.Assured I K d)
    (hl : w.HasOperands K l (w.alphabet.size + 1)) (hoperands : ∀ v ∈ operands, v ∈ l.map (·.1))
    {e : Domain} (vars : String → (Value → Domain) → List (String × Domain))
    (qs : Nat → List Nat) (hlength : ∀ name domain, (vars name domain).length = 3)
    (hvars : ∀ name domain p, List.Forall₂ (fun v q => v.1 = name ∧ q = p ∨
      ∃ e ∈ l, v.1 = e.1.var ∧ q = e.1.prop) (vars name domain) (qs p)) :
    Succeeds (do
      let (name, p) ← temporary "t"
      let domain ← ask fun q => operandDomain q e
      let a ← k.relation "adder" (vars name domain)
      Engine.result a operands name p) w := by
  refine (returns_temporary hw (by simp [hints])).bind_succeeds fun r w₁ hle hr => ?_
  obtain ⟨name, p⟩ := r
  obtain ⟨hw₁, hp⟩ := hr
  have hl₁ := (hl.mono hw.suits.vars hw.sound hle).of_le hp.lt
  refine (returns_ask _).bind_succeeds fun domain w' _ hasked => ?_
  obtain rfl := hasked.2
  have hbound : List.Forall₂ (fun v q => findVar v.1 w'.program.frames = .bound q ∧
      ¬IsFuture w'.program.temporaries v.1) (vars name domain) (qs p) := by
    refine (hvars name domain p).imp ?_
    rintro ⟨v, d'⟩ q (⟨rfl, rfl⟩ | ⟨e, he, rfl, rfl⟩)
    · exact ⟨hp.bound, hp.named⟩
    · obtain ⟨start, hX⟩ := hl₁.stands e he
      exact ⟨hX.bound, hX.named⟩
  have hadder : w'.Remembers "adder" (vars name domain).length :=
    (hlength name domain).symm ▸ hw₁.adder
  refine (hw₁.returns (hk.relation "adder" _)
    (succeeds_relation hw₁ hw₁.suits.context.1 hbound hadder)
    (yields_relationBound hw₁.toReady hw₁.suits.context.1 hbound)).bind_succeeds
      fun a w₂ hle₁ hrelated => ?_
  obtain ⟨hw₂, ha⟩ := hrelated
  exact (succeeds_combine_operands hw₂ (hl₁.mono hw₁.suits.vars hw₁.sound hle₁) hoperands
    ha).bind_pure

end

section

variable {x y : Value} {X Y : Valuation → Operand} {start start' : Nat}

theorem succeeds_add (hk : k.Steady) (hw : w.Assured I K d) (hx : w.Stands K x X start)
    (hy : w.Stands K y Y start')
    (hxy : x.temporary = true → y.temporary = true → x.prop ≠ y.prop) (e : Domain) :
    Succeeds (k.add e x y) w :=
  succeeds_operation hk hw (hasOperands_pair hx hy hxy) (by simp)
    (fun name domain => [(x.var, domain x), (y.var, domain y), (name, e)])
    (fun p => [x.prop, y.prop, p]) (fun _ _ => rfl) fun name domain p => by simp

theorem succeeds_double (hk : k.Steady) (hw : w.Assured I K d) (hx : w.Stands K x X start)
    (e : Domain) : Succeeds (k.add e x x) w :=
  succeeds_operation hk hw (hasOperands_single hx) (by simp)
    (fun name domain => [(x.var, domain x), (x.var, domain x), (name, e)])
    (fun p => [x.prop, x.prop, p]) (fun _ _ => rfl) fun name domain p => by simp

end

theorem succeeds_rebind (hw : w.Assured I K d) {v : Value} {x : Operand}
    (hv : v.automaton.IsOperand w.alphabet.diagrams v.prop x) : Succeeds (rebind v) w := by
  unfold rebind
  refine (returns_temporary hw (by simp [hints])).bind_succeeds fun (name, p) w₁ hle ⟨hw₁, hp⟩ => ?_
  have hv₁ := hv.mono_store hw.sound hle.alphabet.1
  refine (succeeds_liftDiagram (Automaton.returns_rename hw₁.sound hv₁
    fun q hq => ?_).succeeds).bind_pure
  split
  · exact hw₁.ne_zero hp.bound
  · exact hq

theorem succeeds_intersect (hw : w.Assured I K d) {a b : Automaton} {S T : Nat → Valuation → Prop}
    (ha : w.Describes K a S) (hb : w.Describes K b T) :
    Succeeds (liftM (a.intersect b) : M Automaton) w := by
  obtain ⟨L, hL, -⟩ := ha
  obtain ⟨N, hN, -⟩ := hb
  exact succeeds_liftAlphabet (Automaton.returns_intersect hw.sound hw.budget hL hN).succeeds

theorem succeeds_zero (hk : k.Sound) (hsteady : k.Steady) (hw : w.Assured I K d) :
    Succeeds (k.zero d) w := by
  unfold Engine.zero
  refine (returns_temporary hw (by simp [hints])).bind_succeeds fun r w₁ hle hr => ?_
  obtain ⟨name, p⟩ := r
  obtain ⟨hw₁, hp⟩ := hr
  have hoffers := hp.offers hw.suits.vars
  obtain ⟨m, hstart, hm⟩ := Automaton.answers_start (s := w₁.alphabet.diagrams)
    (V := {q | q ∈ [p]}) (n := 1) (q := 0) (by omega)
  have hrun : (liftM ((Automaton.blank 1).setAccepting 0 true) : M Automaton) w₁ = .ok m w₁ := by
    rw [hstart]
    rfl
  refine Succeeds.of_eq ?_ (bind_of_ok hrun)
  refine (hw₁.returns (.liftDiagram (Diagram.makeVariable p)) (succeeds_liftDiagram
    (Diagram.returns_makeVariable hw₁.sound (hw₁.ne_zero hp.bound)).succeeds)
    (yields_liftDiagram (Diagram.yields_makeVariable hw₁.sound p))).bind_succeeds
      fun e w₂ hle₁ hmade => ?_
  obtain ⟨hw₂, he, -⟩ := hmade
  have hm₂ := hm.mono hw₁.sound hle₁.alphabet.1
  have hdepends : Automaton.DependsOn {q | q ∈ [p]} (w₂.alphabet.diagrams.value (-e)) := by
    rw [(he.neg hw₂.sound).value_eq]
    exact fun σ τ hστ => congrArg not (hστ p (by simp))
  refine (hw₂.returns (.liftDiagram (m.addMove 0 ⟨0, -e⟩)) (succeeds_liftDiagram
    (hm₂.succeeds_addMove hw₂.sound (by omega) (he.neg hw₂.sound).valid hdepends))
    (yields_liftDiagram (Binary.yields_addZeros hw₂.sound hm₂ he))).bind_succeeds
      fun m w₃ hle₂ hadded => ?_
  obtain ⟨hw₃, hm, -⟩ := hadded
  have hbound := ((hoffers.mono hle₁).mono hle₂).bound
  split
  · exact .pure
  · rename_i c hc
    have hready : w₃.Ready I (K.about {name} ∅) := hw₃.toReady.about
      (fun v hv => Set.mem_singleton_iff.1 hv ▸ ((hoffers.mono hle₁).mono hle₂).named)
      fun v hv => absurd hv (Set.notMem_empty v)
    have hw₃ := hw₃.about hready fun v hv => ⟨p, Set.mem_singleton_iff.1 hv ▸ hbound⟩
    have hcall : ∀ c ∈ d.instantiate? name, c.Within (K.about {name} ∅) :=
      within_instantiate hw.closed hw.suits.domains.1 subset_rfl (Set.mem_singleton name)
    refine (hw₃.returns (hsteady.call c) (succeeds_call_instantiate hw₃ hbound c hc)
      (yields_call hk hw₃.toReady (hcall c hc))).bind_succeeds fun b w₄ hle₃ hcalled => ?_
    obtain ⟨hw₄, L, hL, -⟩ := hcalled
    have hm₄ := (hm.mono_store hw₃.sound hle₃.alphabet.1).mono (Set.subset_univ _)
    exact (succeeds_liftAlphabet (Automaton.returns_intersect hw₄.sound hw₄.budget hm₄
      (hL.mono (Set.subset_univ _))).succeeds).bind_pure

theorem succeeds_constant_of_made (hw : w.Assured I K d) {n : Nat}
    (hmade : Succeeds (k.made d n) w) : Succeeds (k.constant d n) w := by
  rw [constant_eq]
  refine (returns_ask _).bind_succeeds fun constants w' _ ⟨hconstants, hw'⟩ => ?_
  subst hconstants hw'
  split
  · rename_i v hv
    have hclosed : d.Closed I.limits := Domain.Closed.mono hw.closed hw.suits.domains.2
    exact succeeds_rebind hw (hw.right.constants n d v (mem_of_lookup hv) hclosed)
  · obtain ⟨v, w₁, hrun⟩ := hmade
    exact ⟨v, _, bind_of_ok hrun⟩

/-! ### Formulas -/

/-- From the state on, engines of at least this depth evaluate the formula. -/
def Evaluates (w : Workspace) (I : Interpretation) (K : Limits) (d : Domain) (n : Nat) (x : Expr) :
    Prop :=
  ∀ m ≥ n, ∀ w', w ≤ w' → w'.Assured I K d → Succeeds ((Engine.ofDepth m).formula x) w'

section

variable {n : Nat} {f g : Expr}

theorem Evaluates.mono {m : Nat} (h : Evaluates w I K d n f) (hnm : n ≤ m) :
    Evaluates w I K d m f :=
  fun j hj => h j (hnm.trans hj)

theorem evaluates_and (hwithin : (Expr.and f g).Within K) (hf : Evaluates w I K d n f)
    (hg : Evaluates w I K d n g) : Evaluates w I K d (n + 1) (.and f g) := by
  intro m hm w' hle hw'
  obtain ⟨m, rfl⟩ := Nat.exists_eq_add_of_le' (Nat.le_of_add_left_le hm)
  have hm : m ≥ n := Nat.le_of_succ_le_succ hm
  have hk := sound_ofDepth m
  have hsteady := steady_ofDepth m
  refine (hw'.returns (hsteady.formula f) (hf m hm w' hle hw')
    (hk.formula hw'.toReady hwithin.1.1)).bind_succeeds fun a w₁ hle₁ ⟨hw₁, ha⟩ => ?_
  obtain ⟨L, hL, -⟩ := id ha
  obtain ⟨empty, hempty, -⟩ := Automaton.answers_isEmpty_of_recognizes hw₁.sound hL
  have hrun : (liftM a.isEmpty : M Bool) w₁ = .ok empty w₁ := by
    rw [hempty]
    rfl
  refine Succeeds.of_eq (.ite (fun _ => .pure) fun _ => ?_) (bind_of_ok hrun)
  refine (hw₁.returns (hsteady.formula g) (hg m hm w₁ (le_trans hle hle₁) hw₁)
    (hk.formula hw₁.toReady hwithin.1.2)).bind_succeeds fun b w₂ hle₂ ⟨hw₂, hb⟩ => ?_
  exact succeeds_intersect hw₂ (ha.mono hw₁.suits.vars hle₂ hw₁.sound) hb

theorem evaluates_not (hwithin : f.Within K) (hf : Evaluates w I K d n f) :
    Evaluates w I K d (n + 1) (.not f) := by
  intro m hm w' hle hw'
  obtain ⟨m, rfl⟩ := Nat.exists_eq_add_of_le' (Nat.le_of_add_left_le hm)
  have hm : m ≥ n := Nat.le_of_succ_le_succ hm
  refine (hw'.returns ((steady_ofDepth m).formula f) (hf m hm w' hle hw')
    ((sound_ofDepth m).formula hw'.toReady hwithin)).bind_succeeds
      fun a w₁ _ ⟨hw₁, L, hL, _⟩ => ?_
  exact succeeds_liftDiagram (Automaton.returns_complement hw₁.sound hL).succeeds

theorem evaluates_conjoin {v : String} (hv : v ∈ K.vars) (hwithin : f.Within K) (hn : 1 ≤ n)
    (hf : Evaluates w I K d n f) :
    Evaluates w I K d (n + 1) (conjoin (d.instantiate? v).toList f) := by
  intro m hm w' hle hw'
  cases hc : d.instantiate? v with
  | none => exact hf m (Nat.le_of_succ_le hm) w' hle hw'
  | some c =>
    have hcall := within_instantiate hw'.closed hw'.suits.domains.1 subset_rfl hv c hc
    have hatom : c.toExpr.Within K := ⟨hcall, fun h => nomatch h⟩
    refine evaluates_and ⟨⟨hatom, hwithin⟩, fun h => nomatch h⟩ ?_ hf m hm w' hle hw'
    intro j hj w₁ _ hw₁
    obtain ⟨j, rfl⟩ := Nat.exists_eq_add_of_le' (hn.trans hj)
    obtain ⟨p, hp⟩ := hw₁.bound v hv
    exact succeeds_call_instantiate hw₁ hp c hc

theorem succeeds_evaluateComparison (hk : k.Sound) (hsteady : k.Steady) (hw : w.Assured I K d)
    (op : Comparison) {x y : Expr} (hx : x.isFormula = false) (hxK : x.Within K)
    (hy : y.isFormula = false) (hyK : y.Within K) (hvalue : Succeeds (k.value x) w)
    (hvalue' : ∀ w', w'.Assured I K d → Succeeds (k.value y) w') :
    Succeeds (k.evaluateComparison op x y) w := by
  unfold Engine.evaluateComparison
  refine (hw.returns (hsteady.value x) hvalue (hk.value hw.toReady hx hxK)).bind_succeeds
    fun v w₁ hle ⟨hw₁, hv⟩ => ?_
  refine (hw₁.returns (hsteady.value y) (hvalue' w₁ hw₁) (hk.value hw₁.toReady hy
    hyK)).bind_succeeds fun u w₂ hle₁ ⟨hw₂, hu⟩ => ?_
  have hpair := hasOperands_pair (hv.mono hw₁.suits.vars hle₁ hw₁.sound) hu fun _ ht heq => by
    have hnew := (hu.fresh ht).1
    have hold := hv.le_size
    omega
  refine (returns_ask id).bind_succeeds fun p w' _ ⟨hp, hw'⟩ => ?_
  subst hp hw'
  have hname : op.relation ∈ K.names := by
    cases op
    · exact hw₂.suits.context.2.1
    · exact hw₂.suits.context.2.2
  have hremembers : w'.Remembers op.relation 2 := by
    cases op
    · exact hw₂.equal
    · exact hw₂.less
  have hbound : List.Forall₂ (fun y q => findVar y.1 w'.program.frames = .bound q ∧
      ¬IsFuture w'.program.temporaries y.1)
      [(v.var, w'.program.domainOf x), (u.var, w'.program.domainOf y)] [v.prop, u.prop] :=
    .cons ⟨findVar_of_grows hle₁.frames hv.named hv.bound,
      fun hfuture => hv.named (hfuture.mono hle₁.temporaries)⟩ (.cons ⟨hu.bound, hu.named⟩ .nil)
  refine (hw₂.returns (hsteady.relation _ _) (succeeds_relation hw₂ hname hbound hremembers)
    (yields_relationBound hw₂.toReady hname hbound)).bind_succeeds fun a w₃ hle₂ ⟨hw₃, ha⟩ => ?_
  exact succeeds_combine_operands hw₃ (hpair.mono hw₂.suits.vars hw₂.sound hle₂) (by simp) ha

theorem evaluates_compare (op : Comparison) {x y : Expr} (hx : x.isFormula = false)
    (hxK : x.Within K) (hy : y.isFormula = false) (hyK : y.Within K)
    (hvalue : ∀ m ≥ n, ∀ w', w'.Assured I K d → Succeeds ((Engine.ofDepth m).value x) w')
    (hvalue' : ∀ m ≥ n, ∀ w', w'.Assured I K d → Succeeds ((Engine.ofDepth m).value y) w') :
    Evaluates w I K d (n + 1) (Form.compare op x y).plain := by
  intro m hm w' _ hw'
  obtain ⟨m, rfl⟩ := Nat.exists_eq_add_of_le' (Nat.le_of_add_left_le hm)
  have hm : m ≥ n := Nat.le_of_succ_le_succ hm
  have hrun : (Engine.ofDepth m).evaluateFormula (Form.compare op x y).plain =
      (Engine.ofDepth m).evaluateComparison op x y := by
    simp only [Engine.evaluateFormula, Form.plain, hx, hy]
  change Succeeds ((Engine.ofDepth m).evaluateFormula (Form.compare op x y).plain) w'
  rw [hrun]
  exact succeeds_evaluateComparison (sound_ofDepth m) (steady_ofDepth m) hw' op hx hxK hy hyK
    (hvalue m hm w' hw') (hvalue' m hm)

theorem succeeds_value_var {v : String} (hv : v ∈ K.vars) (e : Option Domain) :
    ∀ m ≥ 1, ∀ w, w.Assured I K d → Succeeds ((Engine.ofDepth m).value ⟨.var v, e⟩) w := by
  intro m hm w hw
  obtain ⟨m, rfl⟩ := Nat.exists_eq_add_of_le' hm
  obtain ⟨p, hp⟩ := hw.bound v hv
  have hrun : propOf v w = .ok p w := by
    simp only [propOf, ask, Bind.bind, EStateM.bind, hp]
    rfl
  exact ⟨_, w, bind_of_ok hrun⟩

theorem succeeds_value_zero :
    ∀ m ≥ 1, ∀ w, w.Assured I K d → Succeeds ((Engine.ofDepth m).value ⟨.num 0, some d⟩) w := by
  intro m hm w hw
  obtain ⟨m, rfl⟩ := Nat.exists_eq_add_of_le' hm
  have hdomain : (Domain.known? (some d)).getD .any = d := by
    have hclosed := hw.closed
    cases d with
    | pending => exact hclosed.elim
    | _ => rfl
  have hconstant : (Engine.ofDepth (m + 1)).value ⟨.num 0, some d⟩ =
      (Engine.ofDepth m).constant ((Domain.known? (some d)).getD .any) 0 := rfl
  rw [hconstant, hdomain]
  refine succeeds_constant_of_made hw ?_
  rw [Engine.made, if_pos rfl]
  exact succeeds_zero (sound_ofDepth m) (steady_ofDepth m) hw

theorem succeeds_withFrame {x : M α} {f : Frame}
    (h : Succeeds x (w.framing (f :: w.program.frames))) : Succeeds (withFrame f x) w := by
  obtain ⟨a, w', hrun⟩ := h
  exact ⟨a, _, withFrame_eq_ok_iff.2 ⟨w', hrun, rfl⟩⟩

theorem succeeds_withScope {x : M α} {s : Scope} (hx : Stepwise x)
    (h : Succeeds x (w.under (w.program.restrictions.enter s))) : Succeeds (withScope s x) w := by
  obtain ⟨a, w', hrun⟩ := h
  rw [hx.quiet.withScope_eq]
  refine ⟨a, ⟨w'.alphabet, leaveScope w'.program⟩, ?_⟩
  change followedBy x (change leaveScope) (w.under (w.program.restrictions.enter s)) = _
  rw [followedBy, hrun]
  rfl

theorem succeeds_guardedScope {x : M α} {v : String} {g : Option Call}
    (hg : ∀ c ∈ g, c.isAbout v) (hx : Stepwise x)
    (h : Succeeds x (w.under (w.program.restrictions.enter (guardScopeOf v g)))) :
    Succeeds (withScope [] do
      if let some c := g then restrictBy (·.restrict v c)
      x) w := by
  refine Succeeds.of_eq ?_ (congrFun (withScope_restrictBy v g x) w)
  rw [if_pos hg]
  exact succeeds_withScope hx h

theorem isAbout_instantiate (hw : w.Assured I K d) (v : String) :
    ∀ c ∈ d.instantiate? v, c.isAbout v := by
  cases hw.covers with
  | any => exact fun c hc => nomatch hc
  | restricted h e =>
    intro c hc
    obtain rfl := Option.some.inj hc
    simp [Call.isAbout, Call.subst, substArgs, Expr.subst, Form.subst, substName]

theorem evaluates_some {v : String} (hv : v ∈ K.binders) (hwithin : f.Within (K.bind v))
    (hvisible : w.program.restrictions.visible v = [])
    (hf : ∀ w', Evaluates w' I (K.bind v) d n (conjoin (d.instantiate? v).toList f)) :
    Evaluates w I K d (n + 1) (.forSome v (d.instantiate? v) f) := by
  intro m hm w' hle hw'
  obtain ⟨m, rfl⟩ := Nat.exists_eq_add_of_le' (Nat.le_of_add_left_le hm)
  have hm : m ≥ n := Nat.le_of_succ_le_succ hm
  have hsteady := steady_ofDepth m
  have hguard : ∀ c ∈ d.instantiate? v, c.Within (K.bind v) :=
    within_instantiate hw'.closed hw'.suits.domains.1 subset_rfl (Set.mem_insert v K.vars)
  have hg : withinGuard (d.instantiate? v) (K.bind v) := by
    cases hc : d.instantiate? v with
    | none => trivial
    | some c => exact hguard c hc
  have hfull : (conjoin (d.instantiate? v).toList f).Within (K.bind v) :=
    within_conjoin (fun c hc => hguard c (by simpa using hc)) hwithin
  change Succeeds ((Engine.ofDepth m).evaluateSome v (d.instantiate? v) f) w'
  unfold Engine.evaluateSome
  refine (returns_ask _).bind_succeeds fun r w₁ _ ⟨hr, hw₁⟩ => ?_
  subst hr hw₁
  simp only [hle.restrictions, hvisible, List.append_nil]
  refine succeeds_guardedScope (isAbout_instantiate hw' v) ((Stepwise.fresh v).bind fun q =>
    .inFrame _ ((hsteady.formula _).bind fun a => .alphabet (a.frugal_project _))) ?_
  obtain ⟨p, x, hrun, hx, hp, hgrown⟩ := returns_fresh (a := w₁.alphabet) v
  have hpositive : p ≠ 0 := hp ▸ Nat.succ_ne_zero _
  have hsize : p ≤ x.size := by
    rw [hp, hgrown]
    simp [Alphabet.size]
  have hbudget : x.budget = none := hgrown ▸ hw'.budget
  have hbody := hw'.body hv hg hx hsize hpositive hbudget
  have hfresh : (liftM (Alphabet.fresh v) : M Nat)
      (w₁.under (w₁.program.restrictions.enter (guardScopeOf v (d.instantiate? v)))) =
        .ok p ⟨x, { w₁.program with
          restrictions := w₁.program.restrictions.enter (guardScopeOf v (d.instantiate? v)) }⟩ := by
    simp only [liftM, monadLift, MonadLift.monadLift, Workspace.under, hrun]
  refine Succeeds.of_eq (succeeds_withFrame ?_) (bind_of_ok hfresh)
  refine (hbody.returns (hsteady.formula _) (hf _ m hm _ le_rfl hbody)
    ((sound_ofDepth m).formula hbody.toReady hfull)).bind_succeeds fun a w₂ _ ⟨hw₂, L, hL, _⟩ => ?_
  refine succeeds_liftAlphabet (Automaton.returns_project hw₂.sound hw₂.budget hL rfl
    fun q hq => ?_).succeeds
  rw [List.mem_singleton.1 (NumberSet.mem_ofList.1 hq)]
  exact hpositive

theorem evaluates_isOne (hd : d.Closed K) (hdomains : K.domains ⊆ K.names) {x y : String}
    (hvisible : w.program.restrictions.visible y = []) :
    Evaluates w I (K.about {x} {y}) d 9 (Engine.isOne d x y) := by
  have hx : x ∈ (K.about {x} {y}).vars := Set.mem_singleton x
  have hxy : x ∈ ((K.about {x} {y}).bind y).vars := Set.mem_insert_of_mem y hx
  have hy : y ∈ ((K.about {x} {y}).bind y).vars := Set.mem_insert y {x}
  have hsmallest := within_of_conjoin (within_isOne hd hdomains x y)
  obtain ⟨hpositive, ⟨⟨-, -, hsmaller⟩, -⟩, -⟩ := hsmallest.1
  obtain ⟨hpositive', hless⟩ := hsmaller.1
  have hequal : ∀ {K' : Limits} {v : String} {w' : Workspace}, v ∈ K'.vars →
      (Expr.equal ⟨.var v, some d⟩ ⟨.num 0, some d⟩).Within K' →
      Evaluates w' I K' d 3 (.not (.equal ⟨.var v, some d⟩ ⟨.num 0, some d⟩)) :=
    fun hv hwithin => evaluates_not hwithin (evaluates_compare .equal rfl hwithin.1.1 rfl
      hwithin.1.2 (succeeds_value_var hv _) succeeds_value_zero)
  have hbody : ∀ w', Evaluates w' I ((K.about {x} {y}).bind y) d 4 (.and
      (.not (.equal ⟨.var y, some d⟩ ⟨.num 0, some d⟩))
      (.less ⟨.var y, some d⟩ ⟨.var x, some d⟩)) := fun w' =>
    evaluates_and hsmaller (hequal hy hpositive'.1) <|
      (evaluates_compare .less rfl hless.1.1 rfl hless.1.2 (succeeds_value_var hy _)
        (succeeds_value_var hxy _)).mono (by omega)
  refine evaluates_conjoin hx hsmallest (by omega) (evaluates_and hsmallest
    ((hequal hx hpositive.1).mono (by omega)) (evaluates_not ?_ ?_))
  · exact hsmallest.1.2.1
  · exact evaluates_some (Set.mem_singleton y) hsmaller hvisible fun w' =>
      evaluates_conjoin hy hsmaller (by omega) (hbody w')

/-! ### Numbers of the domain -/

theorem succeeds_one (hw : w.Assured I K d) (hn : 9 ≤ n) :
    Succeeds ((Engine.ofDepth n).one d) w := by
  have hsucceeds : Succeeds oneVariables w := by
    obtain ⟨r, w₁, hrun⟩ := succeeds_temporary (w := w) "c"
    exact ⟨_, _, (bind_of_ok hrun).trans (bind_of_ok rfl)⟩
  have hstepwise : Stepwise oneVariables :=
    (Stepwise.temporary (by simp [hints])).bind fun _ => (Stepwise.temporaryName "y").bind
      fun _ => .pure _
  rw [one_eq]
  refine (hw.returns hstepwise hsucceeds (yields_oneVariables hw.toReady)).bind_succeeds
    fun names w₁ _ hnames => ?_
  obtain ⟨name, p, y⟩ := names
  obtain ⟨hw₁, hready, hoffers, -, hvisible⟩ := hnames
  have habout := hw₁.about hready fun v hv => ⟨p, Set.mem_singleton_iff.1 hv ▸ hoffers.bound⟩
  exact (evaluates_isOne hw.closed hw.suits.domains.1 hvisible n hn w₁ le_rfl habout).bind_pure

theorem succeeds_constant (hn : 9 ≤ n) (j : Nat) :
    ∀ {w : Workspace}, w.Assured I K d → Succeeds ((Engine.ofDepth n).constant d j) w := by
  have hk := sound_ofDepth n
  have hsteady := steady_ofDepth n
  induction j using Nat.strong_induction_on with
  | _ j ih =>
    intro w hw
    have hnext : ∀ {i : Nat} {w : Workspace}, i < j → w.Assured I K d →
        Returns ((Engine.ofDepth n).constant d i) w fun v w' => w'.Assured I K d ∧
          w'.Stands K v (fun _ => .constant I (d.sense I) i) w.alphabet.size := fun hi hw =>
      hw.returns (hsteady.constant d _) (ih _ hi hw) (yields_constant hk d _ hw.toReady hw.closed)
    refine succeeds_constant_of_made hw ?_
    unfold Engine.made
    refine .ite (fun _ => succeeds_zero hk hsteady hw) fun hzero => ?_
    refine .ite (fun _ => succeeds_one hw hn) fun _ => .ite (fun _ => ?_) fun hpower => ?_
    · refine (hnext (by omega) hw).bind_succeeds fun v w₁ _ ⟨hw₁, hv⟩ => ?_
      exact succeeds_double hsteady hw₁ hv d
    · have hpos : 0 < Nat.pow 2 j.log2 := Nat.two_pow_pos _
      have hlt : Nat.pow 2 j.log2 < j :=
        Nat.lt_of_le_of_ne (Nat.log2_self_le hzero) (Ne.symm hpower)
      refine (hnext hlt hw).bind_succeeds fun v w₁ hle ⟨hw₁, hv⟩ => ?_
      refine (hnext (by omega) hw₁).bind_succeeds fun u w₂ hle₁ ⟨hw₂, hu⟩ => ?_
      refine succeeds_add hsteady hw₂ (hv.mono hw₁.suits.vars hle₁ hw₁.sound) hu
        (fun _ ht heq => ?_) d
      have hnew := (hu.fresh ht).1
      have hold := hv.le_size
      omega

end

end Program

end RegularArithmetic
