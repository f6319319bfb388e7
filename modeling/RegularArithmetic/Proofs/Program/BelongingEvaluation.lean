import RegularArithmetic.Program.Definition
import RegularArithmetic.Proofs.Program.Belonging

/-!
Evaluating formulas and integer expressions keeps all that is remembered in the family, and
gives automata that are. Each step of evaluation does so if its parts do, and then engines of all
depths do.
-/

set_option autoImplicit false

namespace RegularArithmetic

attribute [local instance] Workspace.preserving

open Automaton (LanguageFamily)

variable [LanguageFamily]

namespace Belonging

open Program Workspace
open Automaton (yields_belongs_intersect yields_belongs_union yields_belongs_complement
  yields_belongs_rename yields_belongs_project)

variable {α : Type} {w w' : Workspace} {a b : Automaton} {k : Engine} {u v : Value} {x y : Expr}

section

/-! ### Integer expressions -/

theorem yields_rebind (hw : w.Belongs) (hv : w.Includes v.automaton) :
    Yields (rebind v) w fun v' w' => w'.Includes v'.automaton := by
  unfold rebind
  refine (yields_temporary "c").bind fun (name, p) w₁ hle _ => ?_
  refine (yields_liftDiagram (yields_belongs_rename (hw.mono hle).sound (hv.mono hw hle) _)).bind
    fun a w₂ _ ha => ?_
  exact .pure (ha.withProps [p])

theorem yields_result {operands : List Value} (hw : w.Belongs) (ha : w.Includes a)
    (hoperands : ∀ v ∈ operands, w.Includes v.automaton) (name : String) (p : Nat) :
    Yields (Engine.result a operands name p) w fun v w' => w'.Includes v.automaton := by
  unfold Engine.result
  refine (yields_liftAlphabet (yields_combine hw.sound ha hoperands)).bind fun b w₁ _ hb => ?_
  exact .pure (hb.withProps [p])

theorem yields_operation (hk : k.Belongs) (hw : w.Belongs) (hu : w.Includes u.automaton)
    (hv : w.Includes v.automaton) (d : Domain)
    (operands : (Value → Domain) → String → List (String × Domain)) :
    Yields (do
      let (name, p) ← temporary "t"
      let domain ← ask fun q => operandDomain q d
      let a ← k.relation "adder" (operands domain name)
      Engine.result a [u, v] name p) w fun r w' => w'.Includes r.automaton := by
  refine (yields_temporary "t").bind fun (name, p) w₁ hle₁ _ => ?_
  refine (yields_ask _).bind fun domain w₂ hle₂ _ => ?_
  have hle₂ := le_trans hle₁ hle₂
  refine (yields_relation hk (hw.mono hle₂) "adder" _).bind fun a w₃ hle₃ ha => ?_
  have hle₃ := le_trans hle₂ hle₃
  refine yields_result (hw.mono hle₃) ha (fun r hr => ?_) name p
  rcases List.mem_pair.1 hr with rfl | rfl
  · exact hu.mono hw hle₃
  · exact hv.mono hw hle₃

theorem yields_add (hk : k.Belongs) (hw : w.Belongs) (hu : w.Includes u.automaton)
    (hv : w.Includes v.automaton) (d : Domain) :
    Yields (k.add d u v) w fun r w' => w'.Includes r.automaton :=
  yields_operation hk hw hu hv d fun domain name =>
    [(u.var, domain u), (v.var, domain v), (name, d)]

theorem yields_sub (hk : k.Belongs) (hw : w.Belongs) (hu : w.Includes u.automaton)
    (hv : w.Includes v.automaton) (d : Domain) :
    Yields (k.sub d u v) w fun r w' => w'.Includes r.automaton :=
  yields_operation hk hw hu hv d fun domain name =>
    [(v.var, domain v), (name, d), (u.var, domain u)]

theorem yields_added {acc : Option Value} {power : Value} (hk : k.Belongs) (hw : w.Belongs)
    (hacc : ∀ v, acc = some v → w.Includes v.automaton) (hpower : w.Includes power.automaton)
    (d : Domain) :
    Yields (match acc with
      | none => pure power
      | some a => k.add d a power) w fun v w' => w'.Includes v.automaton := by
  cases acc with
  | none => exact .pure hpower
  | some v => exact yields_add hk hw (hacc v rfl) hpower d

theorem yields_multiple (hk : k.Belongs) (d : Domain) (m : Nat) :
    ∀ {w : Workspace} {acc : Option Value} {power : Value}, w.Belongs →
      (∀ v, acc = some v → w.Includes v.automaton) → w.Includes power.automaton →
      Yields (k.multiple d acc power m) w fun v w' => w'.Includes v.automaton := by
  induction m using Nat.strong_induction_on with
  | _ m ih =>
    intro w acc power hw hacc hpower
    rw [Engine.multiple.eq_def]
    have hadded := yields_added hk hw hacc hpower d
    refine .ite (fun _ => hadded) fun hm => ?_
    -- Whether or not the power was added, it is doubled next.
    have hrest : ∀ {w₁ : Workspace} {acc : Option Value}, w ≤ w₁ →
        (∀ v, acc = some v → w₁.Includes v.automaton) → Yields (do
          let power ← k.add d power power
          k.multiple d acc power (m / 2)) w₁ fun v w' => w'.Includes v.automaton := by
      intro w₁ acc hle hacc
      have hw₁ := hw.mono hle
      have hpower₁ := hpower.mono hw hle
      refine (yields_add hk hw₁ hpower₁ hpower₁ d).bind fun power' w₂ hle₂ hpower' => ?_
      exact ih (m / 2) (by omega) (hw₁.mono hle₂) (fun v hv => (hacc v hv).mono hw₁ hle₂) hpower'
    split
    · refine (hadded.map (Q := fun acc w₁ => ∀ v, acc = some v → w₁.Includes v.automaton)
        fun v w₁ _ hv => ?_).bind fun acc w₁ hle hacc => hrest hle hacc
      rintro _ ⟨⟩
      exact hv
    · exact hrest le_rfl hacc

theorem yields_zero (hk : k.Belongs) (hw : w.Belongs) (d : Domain) :
    Yields (k.zero d) w fun v w' => w'.Includes v.automaton := by
  unfold Engine.zero
  refine (yields_temporary "c").bind fun (name, p) w₁ hle₁ _ => ?_
  have hw₁ := hw.mono hle₁
  refine (yields_liftAlphabet (Yields.liftFault (P := fun m x => x.diagrams.Sound ∧
    Automaton.Built x.diagrams {q | q ∈ [p]} 1 (· = 0) (fun _ _ _ => False) m)
      ((Automaton.gives_start (by omega)).mono fun m hm => ⟨hw₁.sound, hm⟩))).bind
        fun m w₂ _ ⟨hs, hm⟩ => ?_
  refine (yields_liftAlphabet (Yields.liftDiagram (Diagram.yields_makeVariable hs p))).bind
    fun e w₃ hle₃ he => ?_
  have hs₃ := hs.mono hle₃.alphabet.1
  refine (yields_liftDiagram (Binary.yields_addZeros hs₃ (hm.mono hs hle₃.alphabet.1) he)).bind
    fun m w₄ hle₄ hm => ?_
  have hw₄ : w₄.Belongs := ((hw₁.mono ‹_›).mono hle₃).mono hle₄
  have hzero : w₄.Includes (m.withProps [p]) :=
    hm.belongs (Automaton.paddingClosed_numbers fun τ => τ p = 0)
  split
  · exact .pure hzero
  · rename_i c hc
    refine (yields_call hk hw₄ c).bind fun b w₅ hle₅ hb => ?_
    refine (yields_liftAlphabet (yields_belongs_intersect (hw₄.mono hle₅).sound
      (hzero.mono hw₄ hle₅) hb)).bind fun c w₆ _ hc => ?_
    exact .pure hc

omit [LanguageFamily] in
theorem literals_isOne (P : Literal → Prop) (d : Domain) (name other : String) :
    (Engine.isOne d name other).Literals P :=
  literals_conjoin _ ⟨⟨trivial, trivial⟩, ⟨trivial, trivial⟩, trivial, trivial⟩

theorem yields_one (hk : k.Belongs) (hw : w.Belongs) (d : Domain) :
    Yields (k.one d) w fun v w' => w'.Includes v.automaton := by
  unfold Engine.one
  refine (yields_temporary "c").bind fun (name, p) w₁ hle₁ _ => ?_
  refine (yields_temporaryName "y").bind fun y w₂ hle₂ _ => ?_
  refine (hk.formula _ w₂ ((hw.mono hle₁).mono hle₂) (literals_isOne _ d name y)).bind
    fun a w₃ _ ha => ?_
  exact .pure (ha.withProps [p])

theorem yields_remember (hw : w.Belongs) (hv : w.Includes v.automaton) (d : Domain) (n : Nat) :
    Yields (do
      change fun p => { p with constants := ((n, d), v) :: p.constants }
      return v) w fun v w' => w'.Includes v.automaton := by
  refine Yields.bind (yields_change (fun hw => ?_) id) fun _ w₁ hle _ => .pure (hv.mono hw hle)
  refine { hw with constants := fun c hc => ?_ }
  rcases List.mem_cons.1 hc with rfl | hc
  · exact hv
  · exact hw.constants c hc

theorem yields_constant (hk : k.Belongs) (d : Domain) (n : Nat) :
    ∀ {w : Workspace}, w.Belongs →
      Yields (k.constant d n) w fun v w' => w'.Includes v.automaton := by
  induction n using Nat.strong_induction_on with
  | _ n ih =>
    intro w hw
    rw [Engine.constant.eq_def]
    refine (yields_ask _).bind fun constants w₁ _ h => ?_
    obtain ⟨rfl, rfl⟩ := h
    split
    · rename_i v hv
      obtain ⟨before, after, hconstants, -⟩ := List.lookup_eq_some_iff.1 hv
      exact yields_rebind hw (hw.constants ((n, d), v) (by simp [hconstants]))
    · split
      · exact (yields_zero hk hw d).bind fun v w₂ hle hv => yields_remember (hw.mono hle) hv d n
      · split
        · exact (yields_one hk hw d).bind fun v w₂ hle hv => yields_remember (hw.mono hle) hv d n
        · split
          · refine (ih (n / 2) (by omega) hw).bind fun v w₂ hle₂ hv => ?_
            have hw₂ := hw.mono hle₂
            exact (yields_add hk hw₂ hv hv d).bind fun v w₃ hle₃ hv =>
              yields_remember (hw₂.mono hle₃) hv d n
          · rename_i hzero _ hpower
            have hpos : 0 < Nat.pow 2 n.log2 := Nat.two_pow_pos _
            have hlt : Nat.pow 2 n.log2 < n :=
              Nat.lt_of_le_of_ne (Nat.log2_self_le hzero) (Ne.symm hpower)
            refine (ih _ hlt hw).bind fun u w₂ hle₂ hu => ?_
            have hw₂ := hw.mono hle₂
            refine (ih _ (by omega) hw₂).bind fun v w₃ hle₃ hv => ?_
            have hw₃ := hw₂.mono hle₃
            exact (yields_add hk hw₃ (hu.mono hw₂ hle₃) hv d).bind fun v w₄ hle₄ hv =>
              yields_remember (hw₃.mono hle₄) hv d n

theorem yields_scale (hk : k.Belongs) (hw : w.Belongs) (d : Domain) (n : Nat) (x : Expr) :
    Yields (k.scale d n x) w fun v w' => w'.Includes v.automaton := by
  unfold Engine.scale
  refine .ite (fun _ => yields_constant hk d 0 hw) fun _ => ?_
  exact (hk.value x w hw).bind fun v w₁ hle hv =>
    yields_multiple hk d n (hw.mono hle) (fun u hu => nomatch hu) hv

theorem yields_values {β : Type} {P : β → Workspace → Prop} (hk : k.Belongs) (hw : w.Belongs)
    (x y : Expr) {f : Value → Value → M β}
    (hf : ∀ u v w', w ≤ w' → w'.Includes u.automaton → w'.Includes v.automaton →
      Yields (f u v) w' P) :
    Yields (do f (← k.value x) (← k.value y)) w P := by
  refine (hk.value x w hw).bind fun u w₁ hle₁ hu => ?_
  have hw₁ := hw.mono hle₁
  refine (hk.value y w₁ hw₁).bind fun v w₂ hle₂ hv => ?_
  exact hf u v w₂ (le_trans hle₁ hle₂) (hu.mono hw₁ hle₂) hv

theorem yields_evaluateValue (hk : k.Belongs) (hw : w.Belongs) (x : Expr) :
    Yields (k.evaluateValue x) w fun v w' => w'.Includes v.automaton := by
  unfold Engine.evaluateValue
  dsimp only
  split
  · exact (yields_constant hk _ _ hw)
  split
  · rename_i v _
    refine (yields_propOf v).bind fun p w₁ hle _ => .pure ?_
    exact (Automaton.belongs_universal (hw.mono hle).sound).withProps [p]
  · exact yields_values hk hw _ _ fun u v w₂ hle hu hv => yields_add hk (hw.mono hle) hu hv _
  · exact yields_values hk hw _ _ fun u v w₂ hle hu hv => yields_sub hk (hw.mono hle) hu hv _
  · split
    · exact yields_scale hk hw _ _ _
    · exact yields_scale hk hw _ _ _
    · exact .throw
  · exact .throw
  · exact .throw

/-! ### Formulas -/

theorem yields_evaluateSome (hk : k.Belongs) (hw : w.Belongs) (hx : w.IncludesLiterals x)
    (v : String) (guard : Option Call) :
    Yields (k.evaluateSome v guard x) w fun a w' => w'.Includes a := by
  unfold Engine.evaluateSome
  refine (yields_ask _).bind fun r w₁ _ h => ?_
  obtain ⟨rfl, rfl⟩ := h
  have hfull : w₁.IncludesLiterals
      (conjoin (guard.toList ++ w₁.program.restrictions.visible v) x) :=
    literals_conjoin _ hx
  refine yields_withScope hw (fun w₂ hle₂ => ?_) fun r u v hu huv hr => hr.mono hu huv
  have hmain : ∀ w₃, w₁ ≤ w₃ → Yields (do
      let p ← Alphabet.fresh v
      withFrame ⟨.transparent, v, [(v, p)]⟩ do
        (← k.formula (conjoin (guard.toList ++ w₁.program.restrictions.visible v) x)).project
          (.ofList [p]) : M Automaton) w₃ fun a w' => w'.Includes a := by
    intro w₃ hle₃
    refine (yields_fresh v).bind fun p w₄ hle₄ hp => ?_
    have hw₄ := (hw.mono hle₃).mono hle₄
    refine yields_withFrame hw₄ (fun u q hq => ?_) (fun w₅ hle₅ => ?_)
      fun r u v hu huv hr => hr.mono hu huv
    · cases List.mem_singleton.1 hq
      exact hp
    have hw₅ := hw₄.mono hle₅
    refine (hk.formula _ w₅ hw₅ (hfull.mono hw (le_trans hle₃ (le_trans hle₄ hle₅)))).bind
      fun a w₆ hle₆ ha => ?_
    exact yields_liftAlphabet (yields_belongs_project (hw₅.mono hle₆).sound ha _)
  -- A guard only adds a restriction, and restrictions have no literals that count.
  cases guard with
  | none => exact hmain w₂ hle₂
  | some c => exact (yields_restrictBy _).bind fun _ w₃ hle₃ _ => hmain w₃ (le_trans hle₂ hle₃)

theorem yields_evaluateLiteral {l : Literal} (hw : w.Belongs) (hl : w.Includes l.automaton) :
    Yields (Engine.evaluateLiteral l) w fun a w' => w'.Includes a := by
  unfold Engine.evaluateLiteral
  refine (Yields.mapM (fun _ _ _ => True) (fun _ _ _ _ _ h => h) l.vars w
    fun (v, p) _ w' _ => (yields_propOf v).bind fun _ _ _ _ => .pure trivial).bind
      fun pairs w₁ hle _ => ?_
  exact yields_liftDiagram (yields_renameBy (hw.mono hle).sound (hl.mono hw hle) pairs)

theorem yields_evaluateComparison (hk : k.Belongs) (hw : w.Belongs) (op : Comparison) (x y : Expr) :
    Yields (k.evaluateComparison op x y) w fun a w' => w'.Includes a := by
  unfold Engine.evaluateComparison
  refine yields_values hk hw x y fun u v w₁ hle₁ hu hv => ?_
  have hw₁ := hw.mono hle₁
  refine (yields_ask id).bind fun p w₂ hle₂ _ => ?_
  refine (yields_relation hk (hw₁.mono hle₂) _ _).bind fun a w₃ hle₃ ha => ?_
  have hle := le_trans hle₂ hle₃
  refine yields_liftAlphabet (yields_combine (hw₁.mono hle).sound ha fun r hr => ?_)
  rcases List.mem_pair.1 hr with rfl | rfl
  · exact hu.mono hw₁ hle
  · exact hv.mono hw₁ hle

theorem yields_formulas {P : α → Workspace → Prop} (hk : k.Belongs) (hw : w.Belongs)
    (hx : w.IncludesLiterals x) (hy : w.IncludesLiterals y) {f : Automaton → Automaton → M α}
    (hf : ∀ a b w', w ≤ w' → w'.Includes a → w'.Includes b → Yields (f a b) w' P) :
    Yields (do f (← k.formula x) (← k.formula y)) w P := by
  refine (hk.formula x w hw hx).bind fun a w₁ hle₁ ha => ?_
  have hw₁ := hw.mono hle₁
  refine (hk.formula y w₁ hw₁ (hy.mono hw hle₁)).bind fun b w₂ hle₂ hb => ?_
  exact hf a b w₂ (le_trans hle₁ hle₂) (ha.mono hw₁ hle₂) hb

theorem yields_evaluateIff (hk : k.Belongs) (hw : w.Belongs) (hx : w.IncludesLiterals x)
    (hy : w.IncludesLiterals y) : Yields (k.evaluateIff x y) w fun a w' => w'.Includes a := by
  unfold Engine.evaluateIff
  refine yields_formulas hk hw hx hy fun a b w₀ hle₀ ha hb => ?_
  have hw₀ := hw.mono hle₀
  refine (yields_liftAlphabet (yields_belongs_intersect hw₀.sound ha hb)).bind
    fun both w₁ hle₁ hboth => ?_
  have hw₁ := hw₀.mono hle₁
  refine (yields_liftDiagram (yields_belongs_complement hw₁.sound (ha.mono hw₀ hle₁))).bind
    fun a' w₂ hle₂ ha' => ?_
  have hw₂ := hw₁.mono hle₂
  refine (yields_liftDiagram (yields_belongs_complement hw₂.sound
    (hb.mono hw₀ (le_trans hle₁ hle₂)))).bind fun b' w₃ hle₃ hb' => ?_
  have hw₃ := hw₂.mono hle₃
  refine (yields_liftAlphabet (yields_belongs_intersect hw₃.sound
    (Workspace.Includes.mono ha' hw₂ hle₃) hb')).bind fun neither w₄ hle₄ hneither => ?_
  exact yields_liftAlphabet (yields_belongs_union (hw₃.mono hle₄).sound
    (Workspace.Includes.mono hboth hw₁ (le_trans hle₂ (le_trans hle₃ hle₄))) hneither)

omit [LanguageFamily] in
theorem literals_rangesAgree (P : Literal → Prop) (len n r : String) (s e : Expr) (u : String)
    (t f : Expr) : (Engine.rangesAgree len n r s e u t f).Literals P :=
  ⟨⟨⟨trivial, trivial⟩, trivial, trivial⟩, ⟨trivial, trivial⟩, trivial, trivial⟩

theorem yields_evaluateFormula (hk : k.Belongs) (hw : w.Belongs) (hx : w.IncludesLiterals x) :
    Yields (k.evaluateFormula x) w fun a w' => w'.Includes a := by
  obtain ⟨f, d⟩ := x
  unfold Engine.evaluateFormula
  cases f with
  | truth b =>
    cases b with
    | true => exact .pure (Automaton.belongs_universal hw.sound)
    | false => exact .pure Automaton.belongs_empty
  | and y z =>
    refine (hk.formula y w hw hx.1).bind fun a w₁ hle₁ ha => ?_
    have hw₁ := hw.mono hle₁
    refine (yields_liftFault _).bind fun empty w₂ hle₂ _ => ?_
    have hw₂ := hw₁.mono hle₂
    have ha₂ := ha.mono hw₁ hle₂
    refine .ite (fun _ => .pure ha₂) fun _ => ?_
    refine (hk.formula z w₂ hw₂ (Workspace.IncludesLiterals.mono hx.2 hw (le_trans hle₁ hle₂))).bind
      fun b w₃ hle₃ hb => ?_
    exact yields_liftAlphabet (yields_belongs_intersect (hw₂.mono hle₃).sound
      (ha₂.mono hw₂ hle₃) hb)
  | or y z =>
    exact yields_formulas hk hw hx.1 hx.2 fun a b w₂ hle ha hb =>
      yields_liftAlphabet (yields_belongs_union (hw.mono hle).sound ha hb)
  | not y =>
    exact (hk.formula y w hw hx).bind fun a w₁ hle ha =>
      yields_liftDiagram (yields_belongs_complement (hw.mono hle).sound ha)
  | forSome v g y => exact yields_evaluateSome (x := y) hk hw hx v g
  | call c => exact yields_call hk hw c
  | automaton l => exact yields_evaluateLiteral hw hx
  | index r i => exact yields_call hk hw ⟨r, [i]⟩
  | rangeEq r s e u t f =>
    refine (yields_temporaryName "len").bind fun len w₁ hle₁ _ => ?_
    refine (yields_temporaryName "n").bind fun n w₂ hle₂ _ => ?_
    exact hk.formula _ w₂ ((hw.mono hle₁).mono hle₂) (literals_rangesAgree _ len n r s e u t f)
  | compare op y z =>
    dsimp only
    split
    · exact yields_evaluateComparison hk hw _ y z
    · exact yields_evaluateIff hk hw hx.1 hx.2
    · exact .throw
  | var v => exact .throw
  | num n => exact .throw
  | arith op y z => exact .throw

/-! ### Finding domains -/

section

variable {truth : Expr → M Truth}

/-- Answering questions keeps all that is remembered in the family. -/
def Answers (truth : Expr → M Truth) : Prop :=
  ∀ (x : Expr) (w : Workspace), w.Belongs → w.IncludesLiterals x →
    Yields (truth x) w fun _ _ => True

theorem yields_implies (htruth : Answers truth) (hw : w.Belongs) (d e : Domain) :
    Yields (Domain.implies truth d e) w fun _ _ => True := by
  have hprobe : ∀ (d : Domain) x, d.probe? = some x → w.IncludesLiterals x := fun d x hx => by
    obtain ⟨c, -, rfl⟩ := Option.map_eq_some_iff.1 hx
    exact c.literals_toExpr
  have htrue : ∀ x, w.IncludesLiterals x → Yields (Domain.isTrue truth x) w fun _ _ => True :=
    fun x hx => (htruth x w hw hx).bind fun _ _ _ _ => .pure trivial
  unfold Domain.implies
  split
  · exact .pure trivial
  · rename_i y _ hy
    exact htrue y (hprobe e y hy)
  · rename_i x y hx hy
    exact htrue (.or (.not x) y) ⟨hprobe d x hx, hprobe e y hy⟩

theorem yields_unify (htruth : Answers truth) (hw : w.Belongs) (d e : Domain) :
    Yields (Domain.unify truth d e) w fun _ _ => True := by
  unfold Domain.unify
  split
  · exact .pure trivial
  · exact .pure trivial
  · exact .pure trivial
  · exact (yields_implies htruth hw _ _).bind fun _ _ _ _ =>
      .ite (fun _ => .pure trivial) fun _ => .throw
  · exact (yields_implies htruth hw _ _).bind fun _ _ _ _ =>
      .ite (fun _ => .pure trivial) fun _ => .throw
  · refine .ite (fun _ => .pure trivial) fun _ => ?_
    refine (yields_implies htruth hw _ _).bind fun inner w₁ hle₁ _ => ?_
    refine (yields_implies htruth (hw.mono hle₁) _ _).bind fun outer w₂ _ _ => ?_
    exact .ite (fun _ => .pure trivial) fun _ => .ite (fun _ => .pure trivial) fun _ => .throw

theorem yields_arithmeticDomain (htruth : Answers truth) (hw : w.Belongs) (stated : Option Domain)
    (operands : Domain) : Yields (arithmeticDomain truth stated operands) w fun _ _ => True := by
  unfold arithmeticDomain
  split
  · exact yields_unify htruth hw _ _
  · exact .pure trivial

/-- Finding the domains of `x` keeps what is remembered, and the literals of `x`. -/
def Infers (truth : Expr → M Truth) (x : Expr) : Prop :=
  ∀ w : Workspace, w.Belongs →
    Yields (inferExpr truth x) w fun y w' => w.IncludesLiterals x → w'.IncludesLiterals y

/-- The domains of two expressions one after the other. -/
theorem Infers.both {P : α → Workspace → Prop} (hx : Infers truth x) (hy : Infers truth y)
    (hw : w.Belongs) {f : Expr → Expr → M α}
    (hf : ∀ x' y' w', w ≤ w' → (w.IncludesLiterals x → w'.IncludesLiterals x') →
      (w.IncludesLiterals y → w'.IncludesLiterals y') → Yields (f x' y') w' P) :
    Yields (do f (← inferExpr truth x) (← inferExpr truth y)) w P := by
  refine (hx w hw).bind fun x' w₁ hle₁ hx' => ?_
  have hw₁ := hw.mono hle₁
  refine (hy w₁ hw₁).bind fun y' w₂ hle₂ hy' => ?_
  exact hf x' y' w₂ (le_trans hle₁ hle₂) (fun h => (hx' h).mono hw₁ hle₂)
    fun h => hy' (h.mono hw hle₁)

mutual

theorem infers_expr (htruth : Answers truth) : ∀ x : Expr, Infers truth x
  | ⟨f, d⟩ => fun w hw => by
    rw [inferExpr]
    exact yields_inferForm htruth f d hw

theorem yields_inferForm (htruth : Answers truth) :
    ∀ {w : Workspace} (f : Form) (d : Option Domain), w.Belongs →
      Yields (inferForm truth d f) w fun y w' => w.IncludesLiterals ⟨f, d⟩ → w'.IncludesLiterals y
  | w, .var v, d, hw => by
    rw [inferForm]
    split
    · exact .pure fun _ => trivial
    · refine (yields_ask _).bind fun r _ _ _ => (yields_liftError _).bind fun e _ _ _ => ?_
      exact .pure fun _ => trivial
  | w, .num n, d, hw => .pure fun _ => trivial
  | w, .truth b, d, hw => .pure fun _ => trivial
  | w, .automaton l, d, hw => .pure id
  | w, .arith op x y, d, hw => by
    rw [inferForm]
    refine (infers_expr htruth x).both (infers_expr htruth y) hw fun x' y' w₁ hle₁ _ _ => ?_
    have hw₁ := hw.mono hle₁
    refine (yields_unify htruth hw₁ _ _).bind fun e w₂ hle₂ _ => ?_
    refine (yields_arithmeticDomain htruth (hw₁.mono hle₂) d e).bind fun _ _ _ _ => ?_
    exact .pure fun _ => trivial
  | w, .compare op x y, d, hw => by
    rw [inferForm]
    refine (infers_expr htruth x).both (infers_expr htruth y) hw fun x' y' w₁ hle₁ hx hy => ?_
    refine .ite (fun _ => .pure fun h => ⟨hx h.1, hy h.2⟩) fun _ => ?_
    have hw₁ := hw.mono hle₁
    refine (yields_unify htruth hw₁ _ _).bind fun e w₂ hle₂ _ => .pure fun h => ?_
    exact ⟨Expr.literals_settle ((hx h.1).mono hw₁ hle₂),
      Expr.literals_settle ((hy h.2).mono hw₁ hle₂)⟩
  | w, .and x y, d, hw => by
    rw [inferForm]
    exact (infers_expr htruth x).both (infers_expr htruth y) hw fun x' y' w₁ _ hx hy =>
      .pure fun h => ⟨hx h.1, hy h.2⟩
  | w, .or x y, d, hw => by
    rw [inferForm]
    exact (infers_expr htruth x).both (infers_expr htruth y) hw fun x' y' w₁ _ hx hy =>
      .pure fun h => ⟨hx h.1, hy h.2⟩
  | w, .not x, d, hw => by
    rw [inferForm]
    exact (infers_expr htruth x w hw).bind fun x' w₁ _ hx => .pure hx
  | w, .forSome v g x, d, hw => by
    rw [inferForm]
    refine yields_withScope hw (fun w₁ hle₁ => ?_) fun y u v hu huv hy h => (hy h).mono hu huv
    have hbody : ∀ w₂, w ≤ w₂ → Yields (do return ⟨.forSome v g (← inferExpr truth x), d⟩ : M Expr)
        w₂ fun y w' => w.IncludesLiterals ⟨.forSome v g x, d⟩ → w'.IncludesLiterals y := by
      refine fun w₂ hle₂ => (infers_expr htruth x w₂ (hw.mono hle₂)).bind fun x' w₃ _ hx => ?_
      exact .pure fun h => hx (Workspace.IncludesLiterals.mono (e := x) h hw hle₂)
    cases g with
    | none => exact hbody w₁ hle₁
    | some c => exact (yields_restrictBy _).bind fun _ w₂ hle₂ _ => hbody w₂ (le_trans hle₁ hle₂)
  | w, .call ⟨n, xs⟩, d, hw => by
    rw [inferForm, inferCall]
    refine Yields.bind (P := fun _ _ => True) ?_ fun _ _ _ _ => .pure fun _ => trivial
    exact (yields_inferArgs htruth xs hw).bind fun _ _ _ _ => .pure trivial
  | w, .index r i, d, hw => by
    rw [inferForm]
    exact (infers_expr htruth i w hw).bind fun i' w₁ _ _ => .pure fun _ => trivial
  | w, .rangeEq r s e u t f, d, hw => by
    rw [inferForm]
    refine (infers_expr htruth s).both (infers_expr htruth e) hw fun s' e' w₁ hle₁ _ _ => ?_
    refine (infers_expr htruth t).both (infers_expr htruth f) (hw.mono hle₁) fun _ _ _ _ _ _ => ?_
    exact .pure fun _ => trivial

theorem yields_inferArgs (htruth : Answers truth) : ∀ {w : Workspace} (xs : List Expr), w.Belongs →
    Yields (inferArgs truth xs) w fun _ _ => True
  | w, [], hw => .pure trivial
  | w, x :: xs, hw => by
    rw [inferArgs]
    refine (infers_expr htruth x w hw).bind fun x' w₁ hle₁ _ => ?_
    exact (yields_inferArgs htruth xs (hw.mono hle₁)).bind fun _ _ _ _ => .pure trivial

end

end

/-! ### Truth -/

theorem yields_infer (hk : k.Belongs) (hw : w.Belongs) (hx : w.IncludesLiterals x) :
    Yields (infer k.truth x) w fun y w' => w'.IncludesLiterals y := by
  unfold infer
  exact (infers_expr hk.truth x w hw).bind fun y w₁ _ hy => .pure (Expr.literals_close (hy hx))

theorem yields_truth (hw : w.Belongs) (ha : w.Includes a) :
    Yields (liftM a.truth : M Truth) w fun _ _ => True := by
  obtain ⟨L, ha, -⟩ := ha
  exact (yields_liftDiagram (Automaton.yields_truth hw.sound ha)).mono fun _ _ _ _ => trivial

theorem yields_evaluateTruth (hk : k.Belongs) (hw : w.Belongs) (hx : w.IncludesLiterals x) :
    Yields (k.evaluateTruth x) w fun _ _ => True := by
  unfold Engine.evaluateTruth
  refine yields_withFrame hw nofun (fun w₁ hle₁ => ?_) fun _ _ _ _ _ h => h
  have hw₁ := hw.mono hle₁
  refine (yields_infer hk hw₁ (hx.mono hw hle₁)).bind fun y w₂ hle₂ hy => ?_
  have hw₂ := hw₁.mono hle₂
  refine (hk.formula y w₂ hw₂ hy).bind fun a w₃ hle₃ ha => ?_
  exact yields_truth (hw₂.mono hle₃) ha

theorem belongs_ofDepth (n : Nat) : (Engine.ofDepth n).Belongs := by
  induction n with
  | zero => exact ⟨fun _ _ _ _ => .throw, fun _ _ _ => .throw, fun _ _ _ _ => .throw⟩
  | succ n ih =>
    exact ⟨fun _ _ hw hx => yields_evaluateFormula ih hw hx,
      fun x _ hw => yields_evaluateValue ih hw x,
      fun _ _ hw hx => yields_evaluateTruth ih hw hx⟩

theorem belongs_standard : Engine.standard.Belongs := belongs_ofDepth Engine.limit

end

end Belonging

end RegularArithmetic
