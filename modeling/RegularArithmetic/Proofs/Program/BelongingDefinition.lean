import RegularArithmetic.Proofs.Program.BelongingEvaluation

/-!
Definitions keep all that is remembered in the family, also when they fail, if the literals
in the body are. The relations of base 2 are about numbers, and so are in the family.
-/

set_option autoImplicit false

namespace RegularArithmetic

attribute [local instance] Workspace.preserving

namespace Program

/-- The automaton that a question is about; the variables that are not bound are free in it. -/
def Engine.query (k : Engine) (x : Expr) : M Automaton :=
  withFrame Engine.queryFrame do k.formula (← infer k.truth x)

theorem withFrame_bind {α β : Type} (f : Frame) (y : M α) (g : α → Diagram.M β) :
    (withFrame f (y >>= fun r => liftM (g r)) : M β) = withFrame f y >>= fun r => liftM (g r) := by
  funext w
  simp only [withFrame, followedBy, change, liftM, monadLift, MonadLift.monadLift, bind,
    EStateM.bind]
  cases y ⟨w.alphabet, { w.program with frames := f :: w.program.frames }⟩ with
  | error e w₁ => rfl
  | ok r w₁ =>
    obtain ⟨⟨diagrams, names, literals, budget⟩, program⟩ := w₁
    dsimp only
    cases g r diagrams <;> rfl

/-- A question is answered by the truth of its automaton. -/
theorem evaluateTruth_eq (k : Engine) (x : Expr) :
    k.evaluateTruth x = k.query x >>= fun a => liftM a.truth := by
  rw [Engine.query, ← withFrame_bind, Engine.evaluateTruth]
  simp only [bind_assoc]

end Program

namespace Belonging

open Program Workspace

open Automaton (LanguageFamily)

variable [LanguageFamily]

variable {α : Type} {w w' : Workspace} {a : Automaton} {r : Relation} {x : Expr}

theorem belongs_removePredicate (hw : w.Belongs) (name : String) :
    Belongs ⟨w.alphabet, w.program.removePredicate name⟩ where
  sound := hw.sound
  predicates other q hq := by
    simp only [removePredicate, Std.TreeMap.getElem?_erase] at hq
    split at hq
    · cases hq
    · exact hw.predicates other q hq
  constants := hw.constants

theorem yields_inferred (hw : w.Belongs) (hx : w.IncludesLiterals x) :
    Yields (inferred x) w fun y w' => w'.IncludesLiterals y :=
  yields_infer belongs_standard hw hx

theorem yields_define {q : Predicate} (hw : w.Belongs) (hq : w.IncludesLiterals q.body) :
    Yields (define q) w fun _ _ => True := by
  unfold define
  refine (yields_liftError _).bind fun guards w₁ _ h => ?_
  obtain ⟨-, rfl⟩ := h
  refine (yields_withScope hw (fun w₂ hle => yields_inferred (hw.mono hle) (hq.mono hw hle))
    fun y u v hu huv hy => hy.mono hu huv).bind fun y w₂ hle₂ hy => ?_
  have hw₂ := hw.mono hle₂
  refine (yields_ask _).bind fun config w₃ _ h => ?_
  obtain ⟨-, rfl⟩ := h
  have hbody : w₃.IncludesLiterals (if config.optimize then (y.simplify.run 0).1 else y) := by
    split
    · exact Expr.literals_simplify 0 hy
    · exact hy
  refine Yields.bind (yields_change (fun hw₃ => ?_) id) fun _ w₄ hle₄ _ => ?_
  · exact hw₃.adopt ⟨hbody, fun r hr => nomatch hr⟩
  · have hmemo := yields_memoOf belongs_standard (hw₂.mono hle₄) q.name
    refine Yields.tryCatch (hmemo.map fun _ _ _ _ => trivial) fun e w₅ _ => ?_
    exact Yields.bind (yields_change (fun hw₅ => belongs_removePredicate hw₅ q.name) id)
      fun _ _ _ _ => .throw

theorem yields_literalOf (name : String) (r : Relation) (args : List String) :
    Yields (literalOf name r args) w fun l _ => l.automaton = r.automaton := by
  unfold literalOf
  refine (yields_liftAlphabet (P := fun _ _ => True) ?_).bind fun stamp w₁ _ _ => .pure rfl
  exact ⟨⟨le_rfl, List.prefix_refl _⟩, trivial⟩

theorem yields_defineRelation (hw : w.Belongs) (hr : w.Includes r.automaton) (name : String)
    (args : List String) : Yields (defineRelation name args r) w fun _ _ => True := by
  unfold defineRelation
  refine (yields_literalOf name r args).bind fun l w₁ hle h => ?_
  have hl : w₁.Includes l.automaton := h ▸ hr.mono hw hle
  exact yields_define (q := .ofBody name args [] (.automaton l)) (hw.mono hle) hl

theorem yields_relationOfMeaning {y : Alphabet.M Relation} {n : Nat} {R : List Nat → Prop}
    (h : Yields y w.alphabet fun r x => r.args.length = n ∧ r.Means x.diagrams fun _ => R) :
    Yields (liftM y : M Relation) w fun r w' => w'.Includes r.automaton :=
  (yields_liftAlphabet h).mono fun _ _ _ hr => Automaton.belongs_of_means hr.2

theorem yields_defineMade {y : Alphabet.M Relation} {n : Nat} {R : List Nat → Prop}
    (hw : w.Belongs)
    (hy : Yields y w.alphabet fun r x => r.args.length = n ∧ r.Means x.diagrams fun _ => R)
    (name : String) (args : List String) {next : M Unit}
    (hnext : ∀ w', w ≤ w' → Yields next w' fun _ _ => True) :
    Yields (do
      defineRelation name args (← (y : M Relation))
      next) w fun _ _ => True := by
  refine (yields_relationOfMeaning hy).bind fun r w₁ hle₁ hr => ?_
  refine (yields_defineRelation (hw.mono hle₁) hr name args).bind fun _ w₂ hle₂ _ => ?_
  exact hnext w₂ (le_trans hle₁ hle₂)

theorem yields_installBinary (hw : w.Belongs) : Yields installBinary w fun _ _ => True := by
  unfold installBinary
  refine yields_defineMade hw (Binary.yields_add hw.sound) "bin_add" _ fun w₁ hle₁ => ?_
  have hw₁ := hw.mono hle₁
  refine yields_defineMade hw₁ (Binary.yields_equal hw₁.sound) "bin_equal" _ fun w₂ hle₂ => ?_
  have hw₂ := hw₁.mono hle₂
  refine yields_defineMade hw₂ (Binary.yields_less hw₂.sound) "bin_less" _ fun w₃ hle₃ => ?_
  have hw₃ := hw₂.mono hle₃
  refine yields_defineMade hw₃ (Binary.yields_zero hw₃.sound) "bin_zero" _ fun w₄ _ => ?_
  exact yields_change_of_eq fun _ => ⟨rfl, rfl, rfl⟩

/-! ### Questions -/

theorem yields_truthOf (hw : w.Belongs) (hx : w.IncludesLiterals x) :
    Yields (truthOf x) w fun _ _ => True :=
  belongs_standard.truth x w hw hx

theorem yields_query {k : Engine} (hk : k.Belongs) (hw : w.Belongs) (hx : w.IncludesLiterals x) :
    Yields (k.query x) w fun a w' => w'.Includes a := by
  unfold Engine.query
  refine yields_withFrame hw nofun (fun w₁ hle₁ => ?_) fun a u v hu huv ha => ha.mono hu huv
  have hw₁ := hw.mono hle₁
  refine (yields_infer hk hw₁ (hx.mono hw hle₁)).bind fun y w₂ hle₂ hy => ?_
  exact hk.formula y w₂ (hw₁.mono hle₂) hy

theorem yields_automatonOf (hw : w.Belongs) (name : String) :
    Yields (automatonOf name) w fun a w' => w'.Includes a := by
  unfold automatonOf
  exact (yields_relationOf belongs_standard hw name).bind fun r w₁ _ hr => .pure hr

theorem yields_predicateTruth (hw : w.Belongs) (name : String) :
    Yields (predicateTruth name) w fun _ _ => True := by
  unfold predicateTruth
  exact (yields_automatonOf hw name).bind fun a w₁ hle ha => yields_truth (hw.mono hle) ha

theorem yields_constantOf (hw : w.Belongs) (d : Domain) (n : Nat) :
    Yields (constantOf d n) w fun r w' => w'.Includes r.automaton := by
  unfold constantOf
  exact (yields_constant belongs_standard d n hw).bind fun v w₁ _ hv => .pure hv

theorem yields_witness (hw : w.Belongs) (hx : w.IncludesLiterals x) :
    Yields (witness x) w fun _ _ => True := by
  unfold witness
  refine yields_withFrame hw nofun (fun w₁ hle₁ => ?_) fun _ _ _ _ _ h => h
  have hw₁ := hw.mono hle₁
  refine (yields_inferred hw₁ (hx.mono hw hle₁)).bind fun y w₂ hle₂ hy => ?_
  refine (belongs_standard.formula y w₂ (hw₁.mono hle₂) hy).bind fun a w₃ _ _ => ?_
  refine (yields_ask _).bind fun vars w₄ _ _ => ?_
  refine (yields_liftDiagram (P := fun _ _ => True) (Diagram.Yields.ask fun _ _ => trivial)).bind
    fun word w₅ _ _ => ?_
  split
  · exact .pure trivial
  · exact .pure trivial

end Belonging

end RegularArithmetic
