import Mathlib.Data.Nat.Size
import RegularArithmetic.Proofs.Automaton.ShortestWord
import RegularArithmetic.Proofs.Program.AtRest
import RegularArithmetic.Proofs.Program.Naming
import RegularArithmetic.Proofs.Program.BelongingDefinition

/-!
Witnesses: numbers for the free variables of a plain formula that satisfy it. They are read from a
shortest word, so none have more digits than they need; but they are not the least ones, and a free
variable that the evaluation did not come across has none.
-/

set_option autoImplicit false

namespace RegularArithmetic

open Program (findVar numberIn Engine)

theorem numberIn_eq (p : Nat) (u : List Letter) : numberIn p u = numbers (Word.ofLetters u) p := by
  induction u with
  | nil => rfl
  | cons l u ih =>
    have hfoldr : numberIn p (l :: u) = 2 * numberIn p u + if p ∈ l then 1 else 0 := rfl
    have hnumbers : numbers (Word.ofLetters (l :: u)) p =
        (decide (p ∈ l)).toNat + 2 * numbers (Word.ofLetters u) p := rfl
    rw [hfoldr, hnumbers, ih]
    by_cases hp : p ∈ l <;> simp [hp, Nat.add_comm]

/-- Numbers for some of the variables `V` of a condition. Any numbers do for the others, and for no
choice of numbers that satisfies the condition do fewer digits suffice. -/
structure IsWitness (S : Valuation → Prop) (V : List String) (values : List (String × Nat)) :
    Prop where
  nodup : (values.map (·.1)).Nodup
  named : values.map (·.1) ⊆ V
  satisfies : ∀ τ : Valuation, (∀ e ∈ values, τ e.1 = e.2) → S τ
  shortest : ∀ (τ : Valuation) (m : Nat), S τ → (∀ v ∈ V, τ v < 2 ^ m) → ∀ e ∈ values, e.2 < 2 ^ m

namespace IsWitness

variable {S : Valuation → Prop} {V : List String} {values : List (String × Nat)}

theorem exists_satisfies (h : IsWitness S V values) : ∃ τ, S τ := by
  refine ⟨fun v => (values.reverse.lookup v).getD 0, h.satisfies _ fun e he => ?_⟩
  rw [lookup_reverse h.nodup he, Option.getD_some]

theorem le_two_mul (h : IsWitness S V values) {u : String} (hV : ∀ v ∈ V, v = u) {τ : Valuation}
    (hτ : S τ) : ∀ e ∈ values, e.2 ≤ 2 * τ u := by
  intro e he
  have hroom : ∀ v ∈ V, τ v < 2 ^ (τ u).size := by
    intro v hv
    rw [hV v hv]
    exact Nat.lt_size_self _
  have hlt := h.shortest τ _ hτ hroom e he
  cases hsize : (τ u).size with
  | zero =>
    rw [hsize] at hlt
    omega
  | succ k =>
    have hle : 2 ^ k ≤ τ u := Nat.lt_size.1 (by omega)
    rw [hsize, pow_succ] at hlt
    omega

end IsWitness

/-- A right answer to a request for a witness: none if no numbers satisfy the condition, and
otherwise a witness. -/
structure FindsWitness (S : Valuation → Prop) (V : List String)
    (found : Option (List (String × Nat))) : Prop where
  none_iff : found = none ↔ ∀ τ, ¬S τ
  isWitness : ∀ values, found = some values → IsWitness S V values

namespace Workspace

variable {Γ : Relations} {N : Set String} {K : Limits} {w w₁ : Workspace} {a : Automaton}
  {T : Nat → Valuation → Prop} {S : Valuation → Prop}

theorem Describes.acceptedWord?_eq (hs : w.alphabet.diagrams.Sound) (hframed : w.Framed)
    (hsize : w.alphabet.size < 2 ^ 31) (hw : w.Separate) (h : w.Describes K a T)
    (hTS : Reflects T S) : ∃ u?, a.acceptedWord? w.alphabet.diagrams = .ok u? w.alphabet.diagrams ∧
      (u? = none → ∀ τ, ¬S τ) ∧ ∀ u, u? = some u →
        (∀ τ, w.Fits K τ (Word.ofLetters u) → S τ) ∧
        ∀ (V : List String) (τ : Valuation) (m : Nat), (∀ τ', (∀ v ∈ V, τ' v = τ v) → S τ') →
          (∀ v ∈ V, τ v < 2 ^ m) → u.length ≤ m := by
  have haccepts := fun τ u => h.accepts_iff (τ := τ) (u := u) hTS
  obtain ⟨L, hL, -⟩ := h
  have hfits : a.FitsLiterals w.alphabet.diagrams := by
    intro q m hm p hp
    obtain ⟨v, -, hbound⟩ := hp.mem (hL.reads.labels q m hm)
    exact (hframed.le_size hbound).trans_lt hsize
  obtain ⟨u?, hrun, hnone, hsome⟩ := Automaton.acceptedWord?_eq hs hL.formed hfits
  refine ⟨u?, hrun, fun hu τ hτ => ?_, fun u hu => ⟨fun τ hτ => ?_, fun V τ m hS hm => ?_⟩⟩
  · obtain ⟨V, hV⟩ := hTS.support
    obtain ⟨m, hm⟩ := Operand.exists_room (V.map τ)
    have hroom : ∀ v ∈ V, τ v < 2 ^ m := fun v hv => hm _ (List.mem_map_of_mem hv)
    obtain ⟨u, τ', -, hfit, hτ'⟩ := exists_fits (K := K) hw hroom
    exact hnone hu u ((haccepts τ' u hfit).2 ((hV τ' τ hτ').2 hτ))
  · exact (haccepts τ _ hτ).1 (hsome u hu).1
  · obtain ⟨u', τ', hlength, hfit, hτ'⟩ := exists_fits (K := K) hw hm
    rw [← hlength]
    exact (hsome u hu).2 u' ((haccepts τ' u' hfit).2 (hS τ' hτ'))

theorem exists_of_query_eq_ok {k : Engine} {x : Expr} {w' : Workspace}
    (h : k.query x w = .ok a w') : ∃ y w₀ w₁,
      Program.infer k.truth x (w.framing (Engine.queryFrame :: w.program.frames)) = .ok y w₀ ∧
      k.formula y w₀ = .ok a w₁ ∧ w' = w₁.framing (w₁.program.frames.drop 1) := by
  obtain ⟨w₁, hrun, hw'⟩ := Program.withFrame_eq_ok_iff.1 h
  obtain ⟨y, w₀, hinfer, hformula⟩ := exists_of_bind_eq_ok hrun
  exact ⟨y, w₀, w₁, hinfer, hformula, hw'⟩

theorem liftM_ask_eq_ok_iff {α : Type} {q : Diagram.Store → Except Fault α} {r : α}
    {w' : Workspace} : (liftM (Diagram.ask q) : Program.M α) w = .ok r w' ↔
      Diagram.ask q w.alphabet.diagrams = .ok r w.alphabet.diagrams ∧ w' = w := by
  obtain ⟨⟨diagrams, names, literals, budget⟩, program⟩ := w
  simp only [liftM, monadLift, MonadLift.monadLift, Diagram.ask]
  cases q diagrams with
  | ok a =>
    constructor
    · rintro ⟨⟩
      exact ⟨rfl, rfl⟩
    · rintro ⟨⟨⟩, rfl⟩
      rfl
  | error f =>
    constructor
    · rintro ⟨⟩
    · rintro ⟨⟨⟩, -⟩

theorem witness_eq_ok_iff {x : Expr} {found : Option (List (String × Nat))} {w' : Workspace} :
    Program.witness x w = .ok found w' ↔ ∃ y w₀ a w₁ u?,
      Program.infer Engine.standard.truth x
        (w.framing (Engine.queryFrame :: w.program.frames)) = .ok y w₀ ∧
      Engine.standard.formula y w₀ = .ok a w₁ ∧
      a.acceptedWord? w₁.alphabet.diagrams = .ok u? w₁.alphabet.diagrams ∧
      found = u?.map (fun u => w₁.program.openVars.map fun e => (e.1, numberIn e.2 u)) ∧
      w' = w₁.framing (w₁.program.frames.drop 1) := by
  rw [Program.witness, Program.withFrame_eq_ok_iff]
  unfold Program.inferred
  constructor
  · rintro ⟨w₃, hrun, rfl⟩
    obtain ⟨y, w₀, hinfer, hrun⟩ := exists_of_bind_eq_ok hrun
    obtain ⟨a, w₁, hformula, hrun⟩ := exists_of_bind_eq_ok hrun
    obtain ⟨vars, _, ⟨⟩, hrun⟩ := exists_of_bind_eq_ok hrun
    obtain ⟨u?, w₂, hword, hrun⟩ := exists_of_bind_eq_ok hrun
    obtain ⟨hword, rfl⟩ := liftM_ask_eq_ok_iff.1 hword
    cases u? <;> cases hrun <;> exact ⟨y, w₀, a, _, _, hinfer, hformula, hword, rfl, rfl⟩
  · rintro ⟨y, w₀, a, w₁, u?, hinfer, hformula, hword, rfl, rfl⟩
    refine ⟨w₁, ?_, rfl⟩
    have hlift : (liftM a.acceptedWord? : Program.M _) w₁ = .ok u? w₁ :=
      liftM_ask_eq_ok_iff.2 ⟨hword, rfl⟩
    simp only [bind, EStateM.bind, hinfer, hformula, Program.ask, hlift]
    cases u? <;> rfl

theorem AtRest.scoping (h : w.AtRest Γ) (U : List String) :
    (w.framing (Engine.queryFrame :: w.program.frames)).Scoping w.program.restrictions U [] where
  frames := .query rfl (by simp [Frame.ownNames, Engine.queryFrame])
    (by simp [Frame.ownNames, Engine.queryFrame])
  restrictions := rfl
  declarations := h.right.declarations
  evaluated := h.evaluated
  within v c hc := by simp [h.free v] at hc

theorem AtRest.scoped_of_formula (h : w.AtRest Γ) {x y : Expr} (hx : x.IsPlain {none} N)
    {w₀ : Workspace}
    (hinfer : Program.infer Engine.standard.truth x
      (w.framing (Engine.queryFrame :: w.program.frames)) = .ok y w₀)
    (hformula : Engine.standard.formula y w₀ = .ok a w₁) :
    Scoped x.freeVars [] w₁.program.frames := by
  obtain ⟨z, hz, hxz⟩ := Program.infer_eq_ok Engine.standard.truth hx
    (w := w.framing (Engine.queryFrame :: w.program.frames)) h.free
  rw [hz] at hinfer
  cases hinfer
  have hall : y.Within (.own Set.univ ∅) :=
    hxz.plain.within (fun _ hv => hv) (fun _ hv => hv) (Set.subset_univ N)
  have hfree : y.Within { Limits.own Set.univ ∅ with vars := {v | v ∈ x.freeVars} } :=
    hall.withVars fun v hv _ => hxz.freeVars_eq ▸ hv
  have hwithin : y.Within (reach x.freeVars []) := hfree.mono
    ⟨fun v hv _ => .inl hv, Set.subset_univ _, subset_rfl, Set.subset_univ _, Set.subset_univ _⟩
  exact (Program.confined_standard.formula (h.scoping x.freeVars) hwithin a w₁ hformula).1.frames

theorem isWitness_of_word {V : List String} {u : List Letter}
    (hV : Scoped V [] w.program.frames)
    (hsat : ∀ τ, w.Fits (.own N ∅) τ (Word.ofLetters u) → S τ)
    (hshort : ∀ (τ : Valuation) (m : Nat), S τ → (∀ v ∈ V, τ v < 2 ^ m) → u.length ≤ m) :
    IsWitness S V (w.program.openVars.map fun e => (e.1, numberIn e.2 u)) := by
  have hnames : (w.program.openVars.map fun e => (e.1, numberIn e.2 u)).map (·.1) =
      w.program.openVars.map (·.1) := by
    rw [List.map_map]
    rfl
  refine ⟨hnames ▸ hV.openVars.1, hnames ▸ hV.openVars.2, fun τ hτ => ?_, ?_⟩
  · refine hsat τ fun v hv p hp => ?_
    rw [← numberIn_eq]
    exact hτ (v, numberIn p u) (List.mem_map.2 ⟨(v, p), hV.mem_openVars hv hp, rfl⟩)
  · intro τ m hτ hm e he
    obtain ⟨e, -, rfl⟩ := List.mem_map.1 he
    calc numberIn e.2 u = numbers (Word.ofLetters u) e.2 := numberIn_eq e.2 u
      _ < 2 ^ (Word.ofLetters u).length := numbers_lt _ _
      _ ≤ 2 ^ m := Nat.pow_le_pow_right (by decide) (by
        rw [Word.ofLetters, List.length_map]
        exact hshort τ m hτ hm)

theorem AtRest.acceptedWord?_of_formula (h : w.AtRest Γ) {x y : Expr} (hx : x.IsPlain {none} N)
    {w₀ : Workspace}
    (hinfer : Program.infer Engine.standard.truth x
      (w.framing (Engine.queryFrame :: w.program.frames)) = .ok y w₀)
    (hformula : Engine.standard.formula y w₀ = .ok a w₁) (hsize : w₁.alphabet.size < 2 ^ 31) :
    ∃ u?, a.acceptedWord? w₁.alphabet.diagrams = .ok u? w₁.alphabet.diagrams ∧
      (u? = none ↔ ∀ τ, ¬x.Satisfied Γ τ) ∧ ∀ u, u? = some u →
        IsWitness (x.Satisfied Γ) x.freeVars
          (w₁.program.openVars.map fun e => (e.1, numberIn e.2 u)) := by
  have hevaluated : (do Engine.standard.formula (← Program.infer Engine.standard.truth x) :
      Program.M Automaton) (w.framing (Engine.queryFrame :: w.program.frames)) = .ok a w₁ := by
    simp only [bind, EStateM.bind, hinfer, hformula]
  obtain ⟨hle, T, ha, hT⟩ := (h.yields_evaluated Program.sound_standard hx).of_ok hevaluated
  have hsound := (hle.right _ (h.right.framing _)).sound
  have hframed := (h.framed.framing .free "query").mono hle
  obtain ⟨u?, hword, hnone, hsome⟩ := ha.acceptedWord?_eq hsound hframed hsize
    (separate_of_queryFrame hle) hT
  have hscoped := h.scoped_of_formula hx hinfer hformula
  have hwitness : ∀ u, u? = some u → IsWitness (x.Satisfied Γ) x.freeVars
      (w₁.program.openVars.map fun e => (e.1, numberIn e.2 u)) := fun u hu =>
    isWitness_of_word hscoped (hsome u hu).1 fun τ m hτ hm =>
      (hsome u hu).2 x.freeVars τ m (fun τ' hτ' => (Expr.satisfied_congr hτ').2 hτ) hm
  refine ⟨u?, hword, ⟨hnone, fun hnever => ?_⟩, hwitness⟩
  rw [Option.eq_none_iff_forall_ne_some]
  intro u hu
  obtain ⟨τ, hτ⟩ := (hwitness u hu).exists_satisfies
  exact hnever τ hτ

theorem AtRest.exists_witness_eq_ok (h : w.AtRest Γ) {x : Expr} (hx : x.IsPlain {none} N)
    {w' : Workspace} (hquery : Engine.standard.query x w = .ok a w')
    (hsize : w'.alphabet.size < 2 ^ 31) : ∃ found,
      Program.witness x w = .ok found w' ∧ FindsWitness (x.Satisfied Γ) x.freeVars found := by
  obtain ⟨y, w₀, w₁, hinfer, hformula, rfl⟩ := exists_of_query_eq_ok hquery
  obtain ⟨u?, hword, hnone, hsome⟩ := h.acceptedWord?_of_formula hx hinfer hformula hsize
  refine ⟨_, witness_eq_ok_iff.2 ⟨y, w₀, a, w₁, u?, hinfer, hformula, hword, rfl, rfl⟩, ?_, ?_⟩
  · rw [Option.map_eq_none_iff]
    exact hnone
  · intro values hvalues
    obtain ⟨u, hu, rfl⟩ := Option.map_eq_some_iff.1 hvalues
    exact hsome u hu

theorem AtRest.findsWitness (h : w.AtRest Γ) {x : Expr} (hx : x.IsPlain {none} N)
    {found : Option (List (String × Nat))} {w' : Workspace}
    (hrun : Program.witness x w = .ok found w') (hsize : w'.alphabet.size < 2 ^ 31) :
    FindsWitness (x.Satisfied Γ) x.freeVars found := by
  obtain ⟨y, w₀, a, w₁, u?, hinfer, hformula, -, -, rfl⟩ := witness_eq_ok_iff.1 hrun
  have hquery : Engine.standard.query x w = .ok a (w₁.framing (w₁.program.frames.drop 1)) :=
    Program.withFrame_eq_ok_iff.2 ⟨w₁, by simp only [bind, EStateM.bind, hinfer, hformula], rfl⟩
  obtain ⟨_, hfound, hfinds⟩ := h.exists_witness_eq_ok hx hquery hsize
  rw [hrun] at hfound
  cases hfound
  exact hfinds

theorem AtRest.keys_of_witness (h : w.AtRest Γ) {x : Expr} (hx : x.IsPlain {none} N)
    {values : List (String × Nat)} {w' : Workspace}
    (hrun : Program.witness x w = .ok (some values) w') :
    (values.map (·.1)).Nodup ∧ values.map (·.1) ⊆ x.freeVars := by
  obtain ⟨y, w₀, a, w₁, u?, hinfer, hformula, -, hfound, -⟩ := witness_eq_ok_iff.1 hrun
  obtain ⟨u, -, rfl⟩ := Option.map_eq_some_iff.1 hfound.symm
  rw [List.map_map]
  exact (h.scoped_of_formula hx hinfer hformula).openVars

theorem AtRest.yields_witness (h : w.AtRest Γ) {x : Expr} (hx : x.IsPlain {none} N) :
    Yields (Program.witness x) w fun found w' => w'.alphabet.size < 2 ^ 31 →
      FindsWitness (x.Satisfied Γ) x.freeVars found := by
  have hle : Yields (Program.witness x) w fun _ _ => True := by
    unfold Program.witness Program.inferred
    rw [← bind_assoc]
    refine (Program.yields_withFrame (P := fun _ _ => True) ?_).mono fun _ _ _ _ => trivial
    refine (h.yields_evaluated Program.sound_standard hx).bind fun a w₁ _ _ => ?_
    refine (Program.yields_ask _).bind fun vars w₂ _ _ => ?_
    have hword : Yields a.acceptedWord? w₂.alphabet.diagrams fun _ _ => True :=
      Diagram.Yields.ask fun _ _ => trivial
    refine (Program.yields_liftDiagram hword).bind fun u? w₃ _ _ => ?_
    cases u? <;> exact .pure trivial
  exact .intro (fun found w' hrun => ⟨(hle.of_ok hrun).1, h.findsWitness hx hrun⟩)
    fun e w' hrun => hle.of_error hrun

end Workspace

end RegularArithmetic
