import RegularArithmetic.Proofs.Automaton.Padding
import RegularArithmetic.Proofs.Program.Frames
import RegularArithmetic.Proofs.Program.Literals

/-!
The automata that a program remembers are in the family, and so are the literals that its
predicates are made of. Calls keep this up: whatever they compute is in the family too. The
variables that they bind have propositions of the alphabet.
-/

set_option autoImplicit false

namespace RegularArithmetic

namespace Workspace

variable {x y : Alphabet} {p : Program}

def Bounded (w : Workspace) : Prop :=
  ∀ f ∈ w.program.frames, ∀ v p, (v, p) ∈ f.vars → p ≤ w.alphabet.size

theorem Bounded.mono_alphabet (h : Bounded ⟨x, p⟩) (hxy : x ≤ y) : Bounded ⟨y, p⟩ :=
  fun f hf v q hq => (h f hf v q hq).trans (Alphabet.size_mono hxy)

theorem Bounded.push {f : Frame} (h : Bounded ⟨x, p⟩) (hf : ∀ v q, (v, q) ∈ f.vars → q ≤ x.size) :
    Bounded ⟨x, { p with frames := f :: p.frames }⟩ :=
  List.forall_mem_cons.2 ⟨hf, h⟩

/-- A variable may be bound to a proposition of the alphabet. -/
theorem Bounded.bind {v : String} {q : Nat} (h : Bounded ⟨x, p⟩) (hq : q ≤ x.size) {fs : List Frame}
    (hfs : ∀ f ∈ fs, ∀ e ∈ f.vars, e = (v, q) ∨ ∃ f' ∈ p.frames, e ∈ f'.vars) :
    Bounded ⟨x, { p with frames := fs }⟩ := by
  intro f hf u r hr
  rcases hfs f hf (u, r) hr with heq | ⟨f', hf', hr'⟩
  · cases heq
    exact hq
  · exact h f' hf' u r hr'

end Workspace

open Automaton (LanguageFamily)

variable [LanguageFamily]

/-- The memo of the predicate is in the family, and so are the literals in its body, from
which a memo is made. -/
structure Predicate.Belongs (s : Diagram.Store) (q : Predicate) : Prop where
  body : q.body.Literals fun l => l.automaton.Belongs s
  memo : ∀ r, q.memo = some r → r.automaton.Belongs s

theorem Predicate.Belongs.mono_store {s t : Diagram.Store} {q : Predicate} (h : q.Belongs s)
    (hs : s.Sound) (hst : s ≤ t) : q.Belongs t where
  body := h.body.mono fun _ hl => hl.mono_store hs hst
  memo r hr := (h.memo r hr).mono_store hs hst

namespace Workspace

def Includes (w : Workspace) (a : Automaton) : Prop := a.Belongs w.alphabet.diagrams

def IncludesLiterals (w : Workspace) (x : Expr) : Prop := x.Literals fun l => w.Includes l.automaton

/-- All that is remembered is in the family. -/
structure Belongs (w : Workspace) : Prop where
  sound : w.alphabet.diagrams.Sound
  predicates : ∀ (name : String) q, w.program.predicates[name]? = some q →
    q.Belongs w.alphabet.diagrams
  constants : ∀ p ∈ w.program.constants, w.Includes p.2.automaton

/-- The alphabet has grown, all that is remembered is still in the family, and variables
still have propositions of the alphabet. -/
structure Preserves (w w' : Workspace) : Prop where
  alphabet : w.alphabet ≤ w'.alphabet
  belongs : w.Belongs → w'.Belongs
  bounded : w.Bounded → w'.Bounded

/-- Workspaces in the order in which they keep what is remembered in the family. -/
@[reducible] def preserving : Preorder Workspace where
  le := Preserves
  le_refl _ := ⟨le_rfl, id, id⟩
  le_trans _ _ _ h h' :=
    ⟨le_trans h.alphabet h'.alphabet, h'.belongs ∘ h.belongs, h'.bounded ∘ h.bounded⟩

attribute [local instance] preserving

variable {w w' : Workspace} {x y : Alphabet} {p : Program} {a : Automaton}

theorem Includes.mono (h : w.Includes a) (hw : w.Belongs) (hle : w ≤ w') : w'.Includes a :=
  h.mono_store hw.sound hle.alphabet.1

theorem IncludesLiterals.mono {e : Expr} (h : w.IncludesLiterals e) (hw : w.Belongs)
    (hle : w ≤ w') : w'.IncludesLiterals e :=
  Expr.Literals.mono (fun _ hl => Includes.mono hl hw hle) h

theorem size_mono (hle : w ≤ w') : w.alphabet.size ≤ w'.alphabet.size :=
  Alphabet.size_mono hle.alphabet

theorem Belongs.mono_alphabet (h : Belongs ⟨x, p⟩) (hxy : x ≤ y) : Belongs ⟨y, p⟩ where
  sound := h.sound.mono hxy.1
  predicates name q hq := (h.predicates name q hq).mono_store h.sound hxy.1
  constants c hc := (h.constants c hc).mono_store h.sound hxy.1

theorem Belongs.mono (h : w.Belongs) (hle : w ≤ w') : w'.Belongs := hle.belongs h

theorem Belongs.of_eq {p' : Program} (h : Belongs ⟨x, p⟩)
    (hpredicates : p'.predicates = p.predicates) (hconstants : p'.constants = p.constants) :
    Belongs ⟨x, p'⟩ where
  sound := h.sound
  predicates name q hq := h.predicates name q (hpredicates ▸ hq)
  constants c hc := h.constants c (hconstants ▸ hc)

theorem Belongs.adopt {q : Predicate} (h : Belongs ⟨x, p⟩) (hq : q.Belongs x.diagrams) :
    Belongs ⟨x, p.adopt q⟩ where
  sound := h.sound
  predicates name q' hq' := by
    simp only [Program.adopt, Std.TreeMap.getElem?_insert] at hq'
    split at hq'
    · cases hq'
      exact hq
    · exact h.predicates name q' hq'
  constants := h.constants

end Workspace

attribute [local instance] Workspace.preserving

namespace Belonging

open Program Workspace

variable {α β : Type} {w w' : Workspace} {a : Automaton}

section

variable {P : α → Workspace → Prop}

theorem yields_liftAlphabet {x : Alphabet.M α} {P : α → Alphabet → Prop}
    (h : Yields x w.alphabet P) : Yields (liftM x : M α) w fun r w' => P r w'.alphabet := by
  obtain ⟨alphabet, program⟩ := w
  refine .intro (fun r w' hr => ?_) fun e w' he => ?_
  · simp only [liftM, monadLift, MonadLift.monadLift] at hr
    split at hr <;> cases hr
    rename_i heq
    obtain ⟨hle, hP⟩ := h.of_ok heq
    exact ⟨⟨hle, fun hw => hw.mono_alphabet hle, fun hw => hw.mono_alphabet hle⟩, hP⟩
  · simp only [liftM, monadLift, MonadLift.monadLift] at he
    split at he <;> cases he
    rename_i heq
    have hle := h.of_error heq
    exact ⟨hle, fun hw => hw.mono_alphabet hle, fun hw => hw.mono_alphabet hle⟩

theorem yields_liftDiagram {x : Diagram.M α} {P : α → Diagram.Store → Prop}
    (h : Yields x w.alphabet.diagrams P) :
    Yields (liftM x : M α) w fun r w' => P r w'.alphabet.diagrams :=
  yields_liftAlphabet h.liftDiagram

theorem yields_liftFault (x : Except Fault α) : Yields (liftM x : M α) w fun _ _ => True :=
  yields_liftAlphabet (P := fun _ _ => True) (Yields.liftFault fun _ _ => trivial)

theorem yields_liftError (x : Except Error α) : Yields (liftM x : M α) w fun r w' =>
    x = .ok r ∧ w' = w := by
  cases x with
  | ok r => exact .pure ⟨rfl, rfl⟩
  | error e => exact .throw

theorem yields_ask (q : Program → α) : Yields (ask q) w fun r w' => r = q w.program ∧ w' = w :=
  ⟨le_rfl, rfl, rfl⟩

theorem yields_change {f : Program → Program}
    (hf : w.Belongs → Belongs ⟨w.alphabet, f w.program⟩)
    (hframes : w.Bounded → Bounded ⟨w.alphabet, f w.program⟩) :
    Yields (change f) w fun _ _ => True :=
  ⟨⟨le_refl w.alphabet, hf, hframes⟩, trivial⟩

theorem yields_change_of_eq {f : Program → Program}
    (hf : ∀ p, (f p).predicates = p.predicates ∧ (f p).constants = p.constants ∧
      (f p).frames = p.frames) :
    Yields (change f) w fun _ _ => True := by
  obtain ⟨hpredicates, hconstants, hframes⟩ := hf w.program
  refine yields_change (fun hw => hw.of_eq hpredicates hconstants) fun hw => ?_
  rw [Bounded, hframes]
  exact hw

theorem yields_reframe {g : List Frame → List Frame}
    (hg : w.Bounded → Bounded ⟨w.alphabet, { w.program with frames := g w.program.frames }⟩) :
    Yields (change fun p => { p with frames := g p.frames }) w fun _ _ => True :=
  yields_change (fun hw => hw.of_eq rfl rfl) hg

theorem yields_followedBy {x : M α} {after : M Unit} (hw : w.Belongs) (hx : Yields x w P)
    (hafter : ∀ w', Yields after w' fun _ _ => True)
    (hP : ∀ r u v, u.Belongs → u ≤ v → P r u → P r v) : Yields (followedBy x after) w P := by
  simp only [Yields, followedBy]
  cases hrun : x w with
  | ok r w₁ =>
    obtain ⟨hle, hr⟩ := hx.of_ok hrun
    dsimp only
    cases hrun' : after w₁ with
    | ok _ w₂ =>
      have hle' := ((hafter w₁).of_ok hrun').1
      exact ⟨le_trans hle hle', hP r w₁ w₂ (hw.mono hle) hle' hr⟩
    | error e w₂ => exact le_trans hle ((hafter w₁).of_error hrun')
  | error e w₁ =>
    have hle := hx.of_error hrun
    dsimp only
    cases hrun' : after w₁ with
    | ok _ w₂ => exact le_trans hle ((hafter w₁).of_ok hrun').1
    | error e' w₂ => exact le_trans hle ((hafter w₁).of_error hrun')

theorem yields_exitScope : Yields exitScope w fun _ _ => True := by
  unfold exitScope
  refine (yields_ask _).bind fun r _ _ _ => (yields_liftFault _).bind fun _ _ _ _ => ?_
  exact yields_change_of_eq fun _ => ⟨rfl, rfl, rfl⟩

theorem yields_restrictBy (f : Restrictions → Except Error Restrictions) :
    Yields (restrictBy f) w fun _ _ => True := by
  unfold restrictBy
  refine (yields_ask _).bind fun r _ _ _ => (yields_liftError _).bind fun _ _ _ _ => ?_
  exact yields_change_of_eq fun _ => ⟨rfl, rfl, rfl⟩

theorem yields_withScope {x : M α} {s : Scope} (hw : w.Belongs)
    (hx : ∀ w', w ≤ w' → Yields x w' P) (hP : ∀ r u v, u.Belongs → u ≤ v → P r u → P r v) :
    Yields (withScope s x) w P := by
  unfold withScope
  refine Yields.bind (yields_change_of_eq fun _ => ⟨rfl, rfl, rfl⟩) fun _ w' hle _ => ?_
  exact yields_followedBy (hw.mono hle) (hx w' hle) (fun _ => yields_exitScope) hP

theorem yields_withFrame {x : M α} {f : Frame} (hw : w.Belongs)
    (hf : ∀ v p, (v, p) ∈ f.vars → p ≤ w.alphabet.size)
    (hx : ∀ w', w ≤ w' → Yields x w' P) (hP : ∀ r u v, u.Belongs → u ≤ v → P r u → P r v) :
    Yields (withFrame f x) w P := by
  unfold withFrame
  refine Yields.bind (yields_reframe fun h => h.push hf) fun _ w' hle _ => ?_
  refine yields_followedBy (hw.mono hle) (hx w' hle) (fun w'' => ?_) hP
  exact yields_reframe fun h f hf => h f (List.mem_of_mem_drop hf)

theorem yields_fresh (hint : String) : Yields (liftM (Alphabet.fresh hint) : M Nat) w
    fun p w' => p ≤ w'.alphabet.size :=
  (yields_liftAlphabet (RegularArithmetic.yields_fresh hint)).mono
    fun _ _ _ ⟨hp, hsize, _⟩ => (hp.trans hsize.symm).le

theorem yields_propOf (v : String) : Yields (propOf v) w fun _ _ => True := by
  unfold propOf
  refine (yields_ask _).bind fun frames w₁ _ _ => ?_
  split
  · exact .pure trivial
  · exact .throw
  · refine (yields_fresh v).bind fun p _ _ hp => ?_
    refine Yields.bind (yields_reframe fun h => ?_) fun _ _ _ _ => .pure trivial
    exact h.bind hp fun f hf e he => mem_bindFree hf he

theorem yields_temporaryName (hint : String) : Yields (temporaryName hint) w fun _ _ => True := by
  unfold temporaryName
  refine Yields.bind (yields_change_of_eq fun _ => ⟨rfl, rfl, rfl⟩) fun _ _ _ _ => ?_
  refine (yields_ask _).bind fun _ _ _ _ => ?_
  exact .pure trivial

theorem yields_temporary (hint : String) : Yields (temporary hint) w fun _ _ => True := by
  unfold temporary
  refine (yields_temporaryName hint).bind fun name _ _ _ => (yields_fresh name).bind
    fun p _ _ hp => ?_
  refine Yields.bind (yields_reframe fun h => ?_) fun _ _ _ _ => .pure trivial
  exact h.bind hp fun f hf e he => mem_bindInnermost hf he

end

end Belonging

/-- Whatever the engine computes from admitted expressions is in the family. -/
structure Program.Engine.Belongs (k : Program.Engine) : Prop where
  formula : ∀ (x : Expr) (w : Workspace), w.Belongs → w.IncludesLiterals x →
    Yields (k.formula x) w fun a w' => w'.Includes a
  value : ∀ (x : Expr) (w : Workspace), w.Belongs →
    Yields (k.value x) w fun v w' => w'.Includes v.automaton
  truth : ∀ (x : Expr) (w : Workspace), w.Belongs → w.IncludesLiterals x →
    Yields (k.truth x) w fun _ _ => True

namespace Belonging

open Program Workspace

variable {α β : Type} {w w' : Workspace} {a : Automaton}

section

variable {k : Engine} {x : Alphabet}

theorem yields_renameBy {s : Diagram.Store} (hs : s.Sound) (ha : a.Belongs s)
    (pairs : List (Nat × Nat)) : Yields (renameBy a pairs) s fun b t => b.Belongs t :=
  (Automaton.yields_belongs_rename hs ha _).bind fun _ _ _ hb => .pure (hb.withProps _)

theorem yields_combine {vs : List Value} (hs : x.diagrams.Sound) (ha : a.Belongs x.diagrams)
    (hvs : ∀ v ∈ vs, v.automaton.Belongs x.diagrams) :
    Yields (combine a vs) x fun b y => b.Belongs y.diagrams := by
  unfold combine
  let Joined (_ : List Value) (b : Automaton) (y : Alphabet) : Prop := x ≤ y ∧ b.Belongs y.diagrams
  refine Yields.bind (Yields.foldlM Joined ⟨le_rfl, ha⟩ ?_) fun b y _ ⟨hle, hb⟩ => ?_
  · rintro done v rest hl b y ⟨hle, hb⟩
    have hv := (hvs v (by simp [hl])).mono_store hs hle.1
    exact (Automaton.yields_belongs_intersect (hs.mono hle.1) hb hv).mono fun c z hyz hc =>
      ⟨le_trans hle hyz, hc⟩
  · exact Automaton.yields_belongs_project (hs.mono hle.1) hb _

theorem yields_predicate (name : String) : Yields (Engine.predicate name) w fun q w' =>
    w' = w ∧ w.program.predicates[name]? = some q := by
  unfold Engine.predicate
  refine (yields_ask _).bind fun predicates w₁ _ h => ?_
  obtain ⟨rfl, rfl⟩ := h
  split
  · rename_i q hq
    exact .pure ⟨rfl, hq⟩
  · exact .throw

theorem yields_closureOf {name : String} {q : Predicate}
    (hq : w.program.predicates[name]? = some q) :
    Yields (Engine.closureOf q) w fun _ _ => True := by
  unfold Engine.closureOf
  split
  · exact .pure trivial
  · refine (yields_ask _).bind fun r w₁ _ h => ?_
    obtain ⟨-, rfl⟩ := h
    refine Yields.bind (yields_change (fun hw => ?_) id) fun _ _ _ _ => .pure trivial
    exact hw.adopt ⟨(hw.predicates name q hq).body, (hw.predicates name q hq).memo⟩

theorem yields_evaluateBody (hk : k.Belongs) (hw : w.Belongs) (name : String) :
    Yields (k.evaluateBody name) w fun r w' => w'.Includes r.automaton := by
  unfold Engine.evaluateBody
  refine (yields_predicate name).bind fun q w₁ _ h => ?_
  obtain ⟨rfl, hq⟩ := h
  refine (yields_closureOf hq).bind fun closure w₂ hle₂ _ => ?_
  have hbody := IncludesLiterals.mono (hw.predicates name q hq).body hw hle₂
  have hw₂ := hw.mono hle₂
  refine yields_withScope hw₂ (fun w₃ hle₃ => ?_) fun r u v hu huv hr => hr.mono hu huv
  refine (Yields.mapM (fun _ p w' => p ≤ w'.alphabet.size)
    (fun _ _ _ _ hle h => h.trans (size_mono hle)) q.args w₃
    fun v _ w' _ => yields_fresh v).bind fun formals w₄ hle₄ hformals => ?_
  have hw₄ := (hw₂.mono hle₃).mono hle₄
  refine yields_withFrame hw₄ (fun v p hp => ?_) (fun w₅ hle₅ => ?_)
    fun r u v hu huv hr => hr.mono hu huv
  · obtain ⟨_, -, hsize⟩ := exists_mem_of_forall₂ hformals.flip
      (List.of_mem_zip (List.mem_reverse.1 hp)).2
    exact hsize
  refine (yields_ask _).bind fun r w₆ hle₆ _ => ?_
  have hle := le_trans hle₃ (le_trans hle₄ (le_trans hle₅ hle₆))
  refine (hk.formula _ w₆ (hw₂.mono hle) (literals_conjoin _ (hbody.mono hw₂ hle))).bind
    fun a w₇ _ ha => ?_
  exact .pure (ha.withProps formals)

theorem yields_whileInProgress {y : M α} {P : α → Workspace → Prop} {name : String} (hw : w.Belongs)
    (hy : ∀ w', w ≤ w' → Yields y w' P) (hP : ∀ r u v, u.Belongs → u ≤ v → P r u → P r v) :
    Yields (Engine.whileInProgress name y) w P := by
  unfold Engine.whileInProgress
  refine Yields.bind (yields_change_of_eq fun _ => ⟨rfl, rfl, rfl⟩) fun _ w' hle _ => ?_
  exact yields_followedBy (hw.mono hle) (hy w' hle)
    (fun _ => yields_change_of_eq fun _ => ⟨rfl, rfl, rfl⟩) hP

theorem yields_memoOf (hk : k.Belongs) (hw : w.Belongs) (name : String) :
    Yields (k.memoOf name) w fun r w' => w'.Includes r.automaton := by
  unfold Engine.memoOf
  refine (yields_predicate name).bind fun q w₁ _ h => ?_
  obtain ⟨rfl, hq⟩ := h
  split
  · rename_i r hr
    exact .pure ((hw.predicates name q hq).memo r hr)
  · refine (yields_ask _).bind fun config w₁ hle₁ _ => (yields_ask _).bind fun names w₂ hle₂ _ => ?_
    have hw₂ := (hw.mono hle₁).mono hle₂
    have hmake : Yields (do
        let r ← Engine.whileInProgress name (k.evaluateBody name)
        change (·.adopt { ← Engine.predicate name with memo := some r })
        return r) w₂ fun r w' => w'.Includes r.automaton := by
      refine (yields_whileInProgress hw₂ (fun w' hle => yields_evaluateBody hk (hw₂.mono hle) name)
        fun r u v hu huv hr => hr.mono hu huv).bind fun r w₃ hle₃ hr => ?_
      -- The predicate is looked up again, since its body may have been given a closure by now.
      refine (yields_predicate name).bind fun q' w₄ _ h => ?_
      obtain ⟨rfl, hq'⟩ := h
      have hw₃ := hw₂.mono hle₃
      refine Yields.bind (yields_change (fun hw₃ => ?_) id) fun _ w₅ hle₅ _ =>
        .pure (hr.mono hw₃ hle₅)
      refine hw₃.adopt ⟨(hw₃.predicates name q' hq').body, fun r' hr' => ?_⟩
      cases hr'
      exact hr
    split
    · exact .throw_bind
    · exact hmake

theorem yields_relationOf (hk : k.Belongs) (hw : w.Belongs) (name : String) :
    Yields (k.relationOf name) w fun r w' => w'.Includes r.2.automaton := by
  unfold Engine.relationOf
  refine (yields_ask _).bind fun p w₁ _ h => ?_
  obtain ⟨rfl, rfl⟩ := h
  refine (yields_liftError _).bind fun target w₂ _ h => ?_
  obtain ⟨-, rfl⟩ := h
  exact (yields_memoOf hk hw target).bind fun r w₃ _ hr => .pure hr

theorem yields_callOn (hk : k.Belongs) (hw : w.Belongs) (name : String) (vars : List String) :
    Yields (k.callOn name vars) w fun a w' => w'.Includes a := by
  unfold Engine.callOn
  refine (yields_relationOf hk hw name).bind fun (target, r) w₁ hle₁ hr => ?_
  have hw₁ := hw.mono hle₁
  refine .ite (fun _ => .throw_bind) fun _ => ?_
  refine (Yields.mapM (fun _ _ _ => True) (fun _ _ _ _ _ h => h) vars w₁
    fun v _ w' _ => yields_propOf v).bind fun actuals w₂ hle₂ _ => ?_
  exact yields_liftDiagram (yields_renameBy (hw₁.mono hle₂).sound (hr.mono hw₁ hle₂) _)

theorem yields_argument (hk : k.Belongs) (hw : w.Belongs) (x : Expr) :
    Yields (k.argument x) w fun r w' => ∀ v, r.2 = some v → w'.Includes v.automaton := by
  unfold Engine.argument
  split
  · exact .pure fun v hv => nomatch hv
  · refine .ite (fun _ => .throw_bind) fun _ => ?_
    refine (hk.value x w hw).bind fun v w₁ _ hv => .pure fun v' hv' => ?_
    cases hv'
    exact hv

theorem yields_apply (hk : k.Belongs) (hw : w.Belongs) (c : Call) :
    Yields (k.apply c) w fun a w' => w'.Includes a := by
  unfold Engine.apply
  let Given (_ : Expr) (r : String × Option Value) (w' : Workspace) : Prop :=
    w'.Belongs ∧ ∀ v, r.2 = some v → w'.Includes v.automaton
  refine Yields.bind (Yields.mapM Given (fun _ r u v huv h =>
    ⟨h.1.mono huv, fun x hx => (h.2 x hx).mono h.1 huv⟩) c.args w fun x _ w' hle =>
      (yields_argument hk (hw.mono hle) x).mono fun r u hle' hr =>
        ⟨(hw.mono hle).mono hle', hr⟩) fun args w₁ hle₁ hargs => ?_
  have hw₁ := hw.mono hle₁
  refine (yields_callOn hk hw₁ c.name _).bind fun a w₂ hle₂ ha => ?_
  refine yields_liftAlphabet (yields_combine (hw₁.mono hle₂).sound ha fun v hv => ?_)
  obtain ⟨r, hr, hrv⟩ := List.mem_filterMap.1 hv
  obtain ⟨x, -, -, hgiven⟩ := exists_mem_of_forall₂ hargs.flip hr
  exact (hgiven v hrv).mono hw₁ hle₂

theorem yields_call (hk : k.Belongs) (hw : w.Belongs) (c : Call) :
    Yields (k.call c) w fun a w' => w'.Includes a := by
  unfold Engine.call
  refine (yields_ask _).bind fun p w₁ _ h => ?_
  obtain ⟨rfl, rfl⟩ := h
  refine (yields_liftError _).bind fun c' w₂ _ h => ?_
  obtain ⟨-, rfl⟩ := h
  exact yields_apply hk hw c'

theorem yields_relation (hk : k.Belongs) (hw : w.Belongs) (name : String)
    (vars : List (String × Domain)) :
    Yields (k.relation name vars) w fun a w' => w'.Includes a := by
  unfold Engine.relation
  refine (yields_ask _).bind fun p w₁ _ h => ?_
  obtain ⟨rfl, rfl⟩ := h
  refine (yields_liftError _).bind fun c' w₂ _ h => ?_
  obtain ⟨-, rfl⟩ := h
  exact yields_apply hk hw c'

end

end Belonging

end RegularArithmetic
