import RegularArithmetic.Proofs.Program.Evaluation
import RegularArithmetic.Proofs.Program.Inference
import RegularArithmetic.Proofs.Program.Verdict

/-!
States between requests in which nothing is restricted or declared. A question about a plain
formula is answered as the numbers that satisfy it demand, and leaves the state at rest.
-/

set_option autoImplicit false

namespace RegularArithmetic

open Program (FrameGrows findVar Engine)

/-- Nothing is asked of variables that are not restricted. -/
theorem Restrictions.Free.bounds {r : Restrictions} (h : r.Free) (I : Interpretation) (v : String)
    (n : Nat) (τ : Valuation) : r.bounds I v n τ := by
  intro c hc
  rw [h v] at hc
  cases hc

section

variable {I : Interpretation} {Γ : Relations}

theorem isOpen_sense (hI : I.Follows Γ) (hdomains : I.domains = ∅) {d : Domain}
    (hd : d.Closed I.limits) : (d.sense I).IsOpen where
  contains n a := by
    cases d with
    | any => simp [Domain.sense, Domain.Contains]
    | pending => exact hd.elim
    | restricted c =>
      obtain ⟨name, xs⟩ := c
      have hname : name ∈ I.domains := hd.1
      rw [hdomains] at hname
      exact absurd hname (Set.notMem_empty name)
  known n := hI.known d n

theorem isOperand_constant_iff (hI : I.Follows Γ) (hdomains : I.domains = ∅) (hΓ : Γ.Count)
    {d : Domain} (hd : d.Closed I.limits) {s : Diagram.Store} {a : Automaton} {p n : Nat} :
    a.IsOperand s p (.constant I (d.sense I) n) ↔ a.Recognizes s {p} fun u => numbers u p = n := by
  have hconstant := Operand.is_constant (n := 0) hI hΓ (isOpen_sense hI hdomains hd) n
  have hiff : ∀ u, (Operand.constant I (d.sense I) n).rel u.length (numbers u p) ↔
      numbers u p = n := by
    intro u
    rw [hconstant.rel _ (Nat.zero_le _) _ (numbers_lt u p), Option.some_inj, eq_comm]
  exact ⟨fun h => h.congr hiff, fun h => h.congr fun u => (hiff u).symm⟩

end

namespace Workspace

variable {Γ Γ' : Relations} {R R' : List Nat → Prop} {N : Set String} {L : Set Literal}
  {w w' : Workspace}

theorem Right.restate (h : w.Right (Γ.interpretation R)) (hΓ : Γ.Count) (hΓ' : Γ'.Count)
    (halphabet : w'.alphabet = w.alphabet)
    (hdeclarations : w'.program.declarations = w.program.declarations)
    (hconstants : w'.program.constants = w.program.constants)
    (hrelations : ∀ name target q r, w'.program.resolveAlias name = .ok target →
      w'.program.predicates[target]? = some q → q.memo = some r →
      r.Means w.alphabet.diagrams fun _ => Γ' name) : w'.Right (Γ'.interpretation R') where
  sound := halphabet ▸ h.sound
  declarations := hdeclarations.trans h.declarations
  names := Set.subset_univ _
  relations name _ := halphabet ▸ hrelations name
  settled name hname := absurd hname (Set.notMem_empty name)
  constants n d v hv hd := by
    rw [hconstants] at hv
    rw [halphabet, isOperand_constant_iff (Γ'.follows_interpretation R') rfl hΓ' hd]
    exact (isOperand_constant_iff (Γ.follows_interpretation R) rfl hΓ hd).1
      (h.constants n d v hv hd)
  temporary d n x hx := nomatch hx
  known d n hn := absurd rfl hn

theorem Right.ready_own {I : Interpretation} (h : w.Right I) (hN : N ⊆ I.names)
    (hframed : w.Framed) (hfree : w.program.restrictions.Free)
    (hsettled : ∀ name ∈ N, w.Settled name)
    (hcontext : "adder" ∈ N ∧ "equal" ∈ N ∧ "less" ∈ N)
    (hL : ∀ l ∈ L, l.relation.Means w.alphabet.diagrams (I.literal l)) :
    w.Ready I (.own N L) where
  right := h
  framed := hframed
  suits := {
    names := hN
    vars := fun _ hv hfuture => hv hfuture.reserved.1
    binders := fun _ hv hfuture => hv hfuture.reserved.1
    settled := hsettled
    context := hcontext
    domains := ⟨Set.empty_subset _, Set.empty_subset _⟩
    literals := hL }
  restricted := ⟨fun v _ c hc => by simp [hfree v] at hc, fun v hne => absurd (hfree v) hne⟩

/-- A state between requests: nothing is restricted, declared or in progress, and all predicates
are evaluated and say what `Γ` does. -/
structure AtRest (Γ : Relations) (w : Workspace) : Prop where
  count : Γ.Count
  right : w.Right (Γ.interpretation fun _ => False)
  framed : w.Framed
  restrictions : w.program.restrictions = .none
  inProgress : w.program.inProgress = []
  evaluated : ∀ (name : String) (q : Predicate), w.program.predicates[name]? = some q →
    q.memo ≠ none

namespace AtRest

variable {x : Expr}

theorem mono (h : w.AtRest Γ) (hle : w ≤ w') : w'.AtRest Γ where
  count := h.count
  right := hle.right _ h.right
  framed := h.framed.mono hle
  restrictions := hle.restrictions.trans h.restrictions
  inProgress := hle.inProgress.trans h.inProgress
  evaluated := hle.predicates ▸ h.evaluated

theorem free (h : w.AtRest Γ) : w.program.restrictions.Free :=
  h.restrictions ▸ Restrictions.free_none

theorem settled (h : w.AtRest Γ) (name : String) : w.Settled name :=
  fun target q _ hq hmemo => absurd hmemo (h.evaluated target q hq)

end AtRest

/-- One more frame without variables. -/
theorem Framed.framing (h : w.Framed) (kind : FrameKind) (owner : String) :
    (w.framing (⟨kind, owner, []⟩ :: w.program.frames)).Framed where
  nonempty := List.cons_ne_nil _ _
  vars f hf v p hp := by
    rcases List.mem_cons.1 hf with rfl | hf
    · cases hp
    · exact h.vars f hf v p hp

theorem separate_of_queryFrame {fs : List Frame}
    (h : w.framing (Engine.queryFrame :: fs) ≤ w') : w'.Separate := by
  obtain ⟨f, fs', hgrows, -, hf⟩ := List.forall₂_cons_left_iff.1 h.frames
  obtain ⟨extra, hvars, hnodup, -⟩ := hgrows.vars
  have hmem : ∀ v p, findVar v w'.program.frames = .bound p → (v, p) ∈ f.vars := by
    intro v p hp
    rw [hf, findVar] at hp
    cases hlookup : f.vars.lookup v with
    | some q =>
      simp only [hlookup, Program.Found.bound.injEq] at hp
      exact hp ▸ Program.mem_of_lookup hlookup
    | none =>
      have hkind : f.kind = .free := hgrows.kind
      simp [hlookup, hkind] at hp
  have hnodup' : (f.vars.map (·.2)).Nodup := by
    rw [hvars]
    simpa [Engine.queryFrame] using hnodup
  intro u v p hu hv
  have heq := List.inj_on_of_nodup_map hnodup' (hmem u p hu) (hmem v p hv) rfl
  exact congrArg Prod.fst heq

theorem AtRest.yields_evaluated (h : w.AtRest Γ) {k : Engine} (hk : k.Sound) {x : Expr}
    (hx : x.IsPlain {none} N) :
    Yields (do k.formula (← Program.infer k.truth x))
      (w.framing (Engine.queryFrame :: w.program.frames)) fun a w' =>
        ∃ T, w'.Describes (.own Set.univ ∅) a T ∧ Reflects T (x.Satisfied Γ) := by
  let w₀ := w.framing (Engine.queryFrame :: w.program.frames)
  obtain ⟨y, hrun, hxy⟩ := Program.infer_eq_ok (w := w₀) k.truth hx h.free
  have hinfer : Yields (Program.infer k.truth x) w₀ fun z w' => z = y ∧ w' = w₀ := by
    rw [Yields, hrun]
    exact ⟨le_rfl, rfl, rfl⟩
  have hready : w₀.Ready (Γ.interpretation fun _ => False) (.own Set.univ ∅) :=
    (h.right.framing _).ready_own (Set.subset_univ _) (h.framed.framing .free "query") h.free
      (fun name _ => h.settled name) ⟨trivial, trivial, trivial⟩
      fun l hl => absurd hl (Set.notMem_empty l)
  have hwithin : y.Within (.own Set.univ ∅) :=
    hxy.plain.within (fun _ hv => hv) (fun _ hv => hv) (Set.subset_univ N)
  have hreflects := reflects_satisfied (Γ.follows_interpretation fun _ => False) h.count hxy.plain
    (h.free.bounds (Γ.interpretation fun _ => False))
  have heq : y.Satisfied Γ = x.Satisfied Γ := funext fun τ => propext (hxy.satisfied_iff Γ τ)
  rw [heq] at hreflects
  refine hinfer.bind ?_
  rintro z _ - ⟨rfl, rfl⟩
  exact (hk.formula hready hwithin).mono fun a w' _ ha => ⟨_, ha, hreflects⟩

/-- A question is answered as the numbers that satisfy `S` demand, if the automaton that is made in
its frame says what `S` does. -/
theorem Right.yields_evaluateTruth {I : Interpretation} (h : w.Right I) {k : Engine} {x : Expr}
    {K : Limits} {S : Valuation → Prop}
    (hx : Yields (do k.formula (← Program.infer k.truth x))
      (w.framing (Engine.queryFrame :: w.program.frames)) fun a w' =>
        ∃ T, w'.Describes K a T ∧ Reflects T S) :
    Yields (k.evaluateTruth x) w fun t _ => t.Says S := by
  have hassoc : k.evaluateTruth x = Program.withFrame Engine.queryFrame
      ((do k.formula (← Program.infer k.truth x)) >>= fun a => liftM a.truth) := by
    simp only [Engine.evaluateTruth, bind_assoc]
  rw [hassoc]
  refine (Program.yields_withFrame (P := fun t _ => t.Says S) ?_).mono ?_
  · refine hx.bind fun a w₁ hle ⟨T, ha, hT⟩ => ?_
    have hsound := (hle.right _ (h.framing _)).sound
    exact ha.yields_truth hsound (separate_of_queryFrame hle) hT
  · rintro t w' - ⟨_, -, ht, -⟩
    exact ht

theorem AtRest.yields_evaluateTruth (h : w.AtRest Γ) {k : Engine} (hk : k.Sound) {x : Expr}
    (hx : x.IsPlain {none} N) :
    Yields (k.evaluateTruth x) w fun t _ => t.Says (x.Satisfied Γ) :=
  h.right.yields_evaluateTruth (h.yields_evaluated hk hx)

/-- An engine without depth left gives no answer; the others answer with one of less depth. -/
theorem AtRest.yields_truth (h : w.AtRest Γ) {x : Expr} (hx : x.IsPlain {none} N) (n : Nat) :
    Yields ((Engine.ofDepth n).truth x) w fun t _ => t.Says (x.Satisfied Γ) := by
  cases n with
  | zero => exact .throw
  | succ n => exact h.yields_evaluateTruth (Program.sound_ofDepth n) hx

theorem AtRest.yields_truthOf (h : w.AtRest Γ) {x : Expr} (hx : x.IsPlain {none} N) :
    Yields (Program.truthOf x) w fun t _ => t.Says (x.Satisfied Γ) :=
  h.yields_truth hx Engine.limit

end Workspace

end RegularArithmetic
