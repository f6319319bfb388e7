import RegularArithmetic.Proofs.Program.Prelude
import RegularArithmetic.Proofs.Program.Relativization

/-!
Evaluations that agree. In one state, formulas that say the same are evaluated to automata that
accept the same words, provided that their variables are bound there: so are a formula and what it
is simplified to, and a guarded quantifier and one over the guard and the body. Under restrictions
a formula is evaluated to what its relativization is without them. As long as what is remembered of
constants is true, a constant is the same whether it is remembered or made anew.
-/

set_option autoImplicit false

namespace RegularArithmetic

open Program (findVar Engine conjoin)

namespace Workspace

variable {I : Interpretation} {K : Limits} {w w₁ w₂ : Workspace} {a b : Automaton}
  {S : Nat → Valuation → Prop} {x y : Expr} {k : Engine} {Γ : Relations} {fs : List Frame}
  {V : Set String}

theorem AtRest.ready (h : w.AtRest Γ) (hfs : (w.framing fs).Framed) :
    (w.framing fs).Ready (Γ.interpretation fun _ => False) (.own Set.univ ∅) :=
  (h.right.framing fs).ready_own (Set.subset_univ _) hfs h.free (fun name _ => h.settled name)
    ⟨trivial, trivial, trivial⟩ fun l hl => absurd hl (Set.notMem_empty l)

/-- Where nothing is restricted, fewer variables may occur. -/
theorem Ready.withVars (h : w.Ready I K) (hfree : w.program.restrictions.Free) (hV : V ⊆ K.vars) :
    w.Ready I { K with vars := V } where
  right := h.right
  framed := h.framed
  suits := { h.suits with vars := fun v hv => h.suits.vars v (hV hv) }
  restricted := ⟨fun v _ c hc => by simp [hfree v] at hc, h.restricted.vars⟩

theorem exists_ready : ∃ w : Workspace, w.Idle .binary aliases ⟨6, none, true, true⟩ ∧
    w.Ready (Relations.binary.interpretation fun _ => False)
      { Limits.own Set.univ ∅ with vars := ∅ } := by
  obtain ⟨w, hw⟩ := exists_idle
  have hframed : (w.framing w.program.frames).Framed := hw.atRest.framed
  have hready := hw.atRest.ready hframed
  exact ⟨w, hw, hready.withVars hw.atRest.free (Set.empty_subset _)⟩

def someZero : Expr := .forSome "x" none (.equal (.var "x") (.num 0))

theorem within_someZero {K : Limits} (hK : "x" ∈ K.binders) : someZero.Within K := by
  have hzero : (Expr.num 0).Within (K.bind "x") :=
    ⟨trivial, fun _ => withinClosed_of_settled (.inl rfl)⟩
  exact ⟨⟨hK, trivial, ⟨⟨Set.mem_insert _ _, nofun⟩, hzero⟩, nofun⟩, nofun⟩

theorem isWellJoined_someZero : someZero.IsWellJoined := by
  have hleaf : ∀ {x : Expr}, x.form.JoinsFormulas → x.form.operands = [] → x.IsWellJoined :=
    fun hjoins hnone => Expr.isWellJoined_iff.2
      ⟨hjoins, fun y hy => absurd (hnone ▸ hy) List.not_mem_nil⟩
  refine Expr.isWellJoined_iff.2 ⟨trivial, List.forall_mem_singleton.2 ?_⟩
  exact Expr.isWellJoined_iff.2 ⟨trivial, List.forall_mem_cons.2
    ⟨hleaf trivial rfl, List.forall_mem_singleton.2 (hleaf trivial rfl)⟩⟩

/-- All variables that may occur have propositions. -/
def Binds (w : Workspace) (K : Limits) : Prop :=
  ∀ v ∈ K.vars, ∃ p, findVar v w.program.frames = .bound p

theorem Describes.accepts_iff_accepts (hbinds : w.Binds K)
    (hvars : ∀ v ∈ K.vars, ¬IsFuture w.program.temporaries v) (hle₁ : w ≤ w₁) (hle₂ : w ≤ w₂)
    (ha : w₁.Describes K a S) (hb : w₂.Describes K b S) (u : Word) :
    a.Accepts w₁.alphabet.diagrams u ↔ b.Accepts w₂.alphabet.diagrams u := by
  -- The variables have the propositions that they had, so their numbers in the word are the same.
  have hfits : ∀ {w'}, w ≤ w' → w'.Fits K (w.valuationOf u) u := by
    intro w' hle v hv p hp
    obtain ⟨q, hq⟩ := hbinds v hv
    have hgrown := Program.findVar_of_grows hle.frames (hvars v hv) hq
    rw [hgrown] at hp
    rw [valuationOf, hq, Program.Found.bound.inj hp]
  obtain ⟨L, hL, hS⟩ := ha
  obtain ⟨M, hM, hT⟩ := hb
  calc a.Accepts w₁.alphabet.diagrams u
      ↔ S u.length (w.valuationOf u) := (hL.accepts u).trans (hS u _ (hfits hle₁))
    _ ↔ b.Accepts w₂.alphabet.diagrams u := ((hM.accepts u).trans (hT u _ (hfits hle₂))).symm

/-- If the computations give automata in these states, they accept the same words. -/
def Agree (f : Program.M Automaton) (w : Workspace) (g : Program.M Automaton) (w' : Workspace) :
    Prop :=
  ∀ a w₁ b w₂, f w = .ok a w₁ → g w' = .ok b w₂ →
    ∀ u, a.Accepts w₁.alphabet.diagrams u ↔ b.Accepts w₂.alphabet.diagrams u

theorem Ready.agree_of_paraphrases (hw : w.Ready I K) (hk : k.Sound) (hbinds : w.Binds K)
    (hx : x.Within K) (hy : y.Within K) (h : x.Paraphrases y) :
    Agree (k.evaluateFormula x) w (k.evaluateFormula y) w := by
  intro a w₁ b w₂ hrun₁ hrun₂ u
  obtain ⟨hle₁, ha⟩ := (Program.yields_evaluateFormula hk hw hx).of_ok hrun₁
  obtain ⟨hle₂, hb⟩ := (Program.yields_evaluateFormula hk hw hy).of_ok hrun₂
  have hb' := hb.congr fun n τ => h.holds I (w.program.restrictions.bounds I) n τ
  exact ha.accepts_iff_accepts hbinds hw.suits.vars hle₁ hle₂ hb' u

/-- An expression is evaluated to what it is evaluated to when it is simplified first. -/
theorem Ready.agree_simplify (hw : w.Ready I K) (hk : k.Sound) (hbinds : w.Binds K)
    (hx : x.Within K) (hjoined : x.IsWellJoined) (n : Nat) :
    Agree (k.evaluateFormula x) w (k.evaluateFormula (x.simplify n).1) w :=
  hw.agree_of_paraphrases hk hbinds hx (hx.simplify hjoined n) (x.paraphrases_simplify hjoined n)

/-- A conjunct that is true is left out. -/
theorem agree_simplify_true : ∃ w : Workspace, w.Idle .binary aliases ⟨6, none, true, true⟩ ∧
    let x : Expr := .and (.truth true) someZero
    Agree (Engine.standard.evaluateFormula x) w
      (Engine.standard.evaluateFormula (x.simplify 0).1) w := by
  obtain ⟨w, hidle, hw⟩ := exists_ready
  have hjoined : Expr.IsWellJoined (.and (.truth true) someZero) := by
    refine Expr.isWellJoined_iff.2 ⟨?_, ?_⟩
    · exact List.forall_mem_cons.2 ⟨rfl, List.forall_mem_singleton.2 rfl⟩
    · exact List.forall_mem_cons.2
        ⟨(Expr.isWellSorted_of_truth rfl).isWellJoined,
          List.forall_mem_singleton.2 isWellJoined_someZero⟩
  refine ⟨w, hidle,
    hw.agree_simplify Program.sound_standard (fun v hv => absurd hv ?_) ?_ hjoined 0⟩
  · exact Set.notMem_empty v
  · exact ⟨⟨⟨trivial, nofun⟩, within_someZero (by decide : IsOwn "x")⟩, nofun⟩

/-- With `b` put for `a` a formula is evaluated to what it says when `a` has the value of `b`, if it
admits that and no restriction on the values of a variable that it quantifies is about `a`. -/
theorem Ready.yields_subst {u v : String} (hw : w.Ready I K) (hk : k.Sound)
    (hx : (x.subst u v).Within K) (hadmits : x.Admits u v)
    (hvisible : ∀ z ∈ x.binders, z ≠ u → ∀ c ∈ w.program.restrictions.visible z, u ∉ c.freeVars) :
    Yields (k.evaluateFormula (x.subst u v)) w fun y w' => w'.Describes K y fun n τ =>
      x.Holds I (w.program.restrictions.bounds I) n (Function.update τ u (τ v)) := by
  have hignores : (w.program.restrictions.bounds I).Ignores u x.binders := by
    intro z hz hne n τ d
    refine forall₂_congr fun c hc => ?_
    exact Call.holds_iff_of_freeVars (update_eq_of_notMem (hvisible z hz hne c hc) d) n
  exact (Program.yields_evaluateFormula hk hw hx).mono fun y w' _ hy =>
    hy.congr fun n τ => Expr.holds_subst hadmits hignores

/-- Some number is larger than the variable, first `x` and then `z`. -/
theorem yields_subst_less : ∃ w : Workspace, w.Idle .binary aliases ⟨6, none, true, true⟩ ∧
    let I := Relations.binary.interpretation fun _ => False
    let x : Expr := .forSome "y" none (.less (.var "x") (.var "y"))
    Yields (Engine.standard.evaluateFormula (x.subst "x" "z"))
      (w.framing (Engine.queryFrame :: w.program.frames)) fun y w' =>
        w'.Describes (.own Set.univ ∅) y fun n τ =>
          x.Holds I (w.program.restrictions.bounds I) n (Function.update τ "x" (τ "z")) := by
  obtain ⟨w, hidle⟩ := exists_idle
  have hready := hidle.atRest.ready (hidle.atRest.framed.framing .free "query")
  have hy : IsOwn "y" := by decide
  have hz : IsOwn "z" := by decide
  refine ⟨w, hidle, hready.yields_subst Program.sound_standard ?_ ?_ fun v _ _ c hc => ?_⟩
  · exact ⟨⟨hy, trivial, ⟨⟨.inr hz, nofun⟩, .inl rfl, nofun⟩, nofun⟩, nofun⟩
  · exact .inr ⟨⟨trivial, trivial⟩, fun h => absurd h (by decide), nofun⟩
  · simp [framing, hidle.atRest.free v] at hc

section

variable {v : String} {c : Call}

/-- A guarded quantifier is evaluated to what one over the guard and the body is, once the inner
quantifiers over its variable are relativized to the guard. -/
theorem Ready.agree_guarded (hw : w.Ready I K) (hk : k.Sound) (hbinds : w.Binds K)
    (h : (Form.forSome v (some c) x).Within K) :
    Agree (k.evaluateFormula (.forSome v (some c) x)) w
      (k.evaluateFormula (.forSome v none (conjoin [c] (x.relativize (c.demands v))))) w :=
  hw.agree_of_paraphrases hk hbinds (Program.within_plain h) (Program.within_plain h.guarded)
    (Form.paraphrases_guarded v c x)

/-- Where the body has no quantifier over the variable, a guard is a conjunct. -/
theorem Ready.agree_guarded_of_notMem (hw : w.Ready I K) (hk : k.Sound) (hbinds : w.Binds K)
    (h : (Form.forSome v (some c) x).Within K) (hv : v ∉ x.binders) :
    Agree (k.evaluateFormula (.forSome v (some c) x)) w
      (k.evaluateFormula (.forSome v none (conjoin [c] x))) w := by
  have hx : (conjoin [c] x).Within (K.bind v) :=
    Program.within_conjoin (List.forall_mem_singleton.2 h.2.1) h.2.2
  exact hw.agree_of_paraphrases hk hbinds (Program.within_plain h)
    (Program.within_plain ⟨h.1, trivial, hx⟩) (Form.paraphrases_guarded_of_notMem hv c)

/-- A number that is zero, and one that is larger. -/
theorem agree_guarded_of_notMem_zero : ∃ w : Workspace,
    w.Idle .binary aliases ⟨6, none, true, true⟩ ∧
    let c : Call := ⟨"bin_zero", [.var "x"]⟩
    let x : Expr := .forSome "y" none (.less (.var "x") (.var "y"))
    Agree (Engine.standard.evaluateFormula (.forSome "x" (some c) x)) w
      (Engine.standard.evaluateFormula (.forSome "x" none (conjoin [c] x))) w := by
  obtain ⟨w, hidle, hw⟩ := exists_ready
  have hx : IsOwn "x" := by decide
  have hy : IsOwn "y" := by decide
  have hguard : ∀ {K : Limits}, K.names = Set.univ →
      Call.Within ⟨"bin_zero", [.var "x"]⟩ (K.bind "x") := fun hK =>
    ⟨hK ▸ Set.mem_univ "bin_zero", ⟨rfl, Set.mem_insert _ _, nofun⟩, trivial⟩
  refine ⟨w, hidle, hw.agree_guarded_of_notMem Program.sound_standard (fun v hv => absurd hv ?_)
    ?_ (by decide)⟩
  · exact Set.notMem_empty v
  · have hless : ∀ {K : Limits}, (Expr.less (.var "x") (.var "y")).Within ((K.bind "x").bind "y") :=
      ⟨⟨⟨.inr (.inl rfl), nofun⟩, .inl rfl, nofun⟩, nofun⟩
    exact ⟨hx, hguard rfl, ⟨hy, trivial, hless⟩, nofun⟩

end

/-- Which names make sense does not depend on the restrictions in force. -/
theorem Suits.under (h : w.Suits I K) (r : Restrictions) : (w.under r).Suits I K :=
  ⟨h.names, h.vars, h.binders, h.settled, h.context, h.domains, h.literals⟩

theorem AtRest.ready_under (h : w.AtRest Γ) {r : Restrictions}
    (hr : ∀ v, ∀ c ∈ r.visible v, IsOwn v ∧ c.Within (.own Set.univ ∅)) :
    (w.under r).Ready (Γ.interpretation fun _ => False) (.own Set.univ ∅) where
  right := h.right.under r
  framed := ⟨h.framed.nonempty, h.framed.vars⟩
  suits := (h.ready h.framed).suits.under r
  restricted := by
    refine ⟨fun v _ c hc => (hr v c hc).2.mono (Limits.allows_bind _ v), fun v hne hfuture => ?_⟩
    obtain ⟨c, hc⟩ := List.exists_mem_of_ne_nil _ hne
    exact (hr v c hc).1 hfuture.reserved.1

/-- Where nothing is restricted, expressions can be evaluated in any case. -/
theorem Ready.unrestricted (h : w.Ready I K) : (w.under .none).Ready I K where
  right := h.right.under .none
  framed := ⟨h.framed.nonempty, h.framed.vars⟩
  suits := h.suits.under .none
  restricted := by
    refine ⟨fun v _ c hc => ?_, fun v hv => absurd (Restrictions.free_none v) hv⟩
    have hvisible : (w.under .none).program.restrictions.visible v = [] := Restrictions.free_none v
    rw [hvisible] at hc
    cases hc

/-- Under restrictions a formula is evaluated to what it is evaluated to without them, once all its
quantifiers are relativized to the restrictions of their variables. -/
theorem Ready.agree_restricted (hw : w.Ready I K) (hk : k.Sound) (hbinds : w.Binds K)
    (hx : x.Within K) : Agree (k.evaluateFormula x) w
      (k.evaluateFormula (x.relativize w.program.restrictions.visible)) (w.under .none) := by
  intro a w₁ b w₂ hrun₁ hrun₂ u
  have hy := hx.relativize hw.restricted.within
  obtain ⟨hle₁, ha⟩ := (Program.yields_evaluateFormula hk hw hx).of_ok hrun₁
  obtain ⟨hle₂, hb⟩ := (Program.yields_evaluateFormula hk hw.unrestricted hy).of_ok hrun₂
  have hb' : (w₂.under w.program.restrictions).Describes K b
      (x.Holds I (w.program.restrictions.bounds I)) := by
    have hbounds : ∀ v n τ, (w.under .none).program.restrictions.bounds I v n τ :=
      Restrictions.free_none.bounds I
    refine Describes.congr (w := w₂) hb fun n τ => ?_
    rw [Expr.holds_relativize, Restrictions.demand_visible hbounds]
  exact ha.accepts_iff_accepts hbinds hw.suits.vars hle₁ (le_of_under hle₂) hb' u

/-! ### Constants -/

def forgetting (w : Workspace) : Workspace :=
  ⟨w.alphabet, { w.program with constants := [] }⟩

theorem Ready.forgetting (h : w.Ready I K) (hI : ∀ d n, I.known d n = none) :
    w.forgetting.Ready I K where
  right := {
    sound := h.right.sound
    declarations := h.right.declarations
    names := h.right.names
    relations := h.right.relations
    settled := h.right.settled
    constants := nofun
    temporary := h.right.temporary
    known := fun d n hknown => absurd (hI d n) hknown }
  framed := ⟨h.framed.nonempty, h.framed.vars⟩
  suits := ⟨h.suits.names, h.suits.vars, h.suits.binders, h.suits.settled, h.suits.context,
    h.suits.domains, h.suits.literals⟩
  restricted := ⟨h.restricted.within, h.restricted.vars⟩

theorem Stands.accepts_iff_of_numbers {v v' : Value} {X : Operand} {m m' : Nat} {u u' : Word}
    (h : w₁.Stands K v (fun _ => X) m) (h' : w₂.Stands K v' (fun _ => X) m')
    (hlength : u.length = u'.length) (hnumbers : numbers u v.prop = numbers u' v'.prop) :
    v.automaton.Accepts w₁.alphabet.diagrams u ↔ v'.automaton.Accepts w₂.alphabet.diagrams u' := by
  rw [h.accepts u _ (w₁.fits_valuationOf K u), h'.accepts u' _ (w₂.fits_valuationOf K u'), hlength,
    hnumbers]

/-- Whatever is remembered, the constant is the one that is made where none is remembered, up to its
proposition. -/
def Recalls (k : Engine) (d : Domain) (n : Nat) (w : Workspace) : Prop :=
  ∀ v w₁ v' w₂, k.constant d n w = .ok v w₁ → k.constant d n w.forgetting = .ok v' w₂ →
    ∀ u u' : Word, u.length = u'.length → numbers u v.prop = numbers u' v'.prop →
      (v.automaton.Accepts w₁.alphabet.diagrams u ↔ v'.automaton.Accepts w₂.alphabet.diagrams u')

/-- Where what is remembered is true, constants are recalled. -/
theorem Ready.recalls (hw : w.Ready I K) (hk : k.Sound) (hI : ∀ d n, I.known d n = none)
    {d : Domain} (hd : d.Closed K) (n : Nat) : Recalls k d n w := by
  intro v w₁ v' w₂ hrun hrun' u u' hlength hnumbers
  obtain ⟨-, hv⟩ := (Program.yields_constant hk d n hw hd).of_ok hrun
  obtain ⟨-, hv'⟩ := (Program.yields_constant hk d n (hw.forgetting hI) hd).of_ok hrun'
  exact hv.accepts_iff_of_numbers hv' hlength hnumbers

end Workspace

end RegularArithmetic
