import RegularArithmetic.Proofs.Alphabet
import RegularArithmetic.Proofs.Binary
import RegularArithmetic.Proofs.Meaning.Limits
import RegularArithmetic.Proofs.Program.Aliases
import RegularArithmetic.Proofs.Program.Frames

/-!
The states that an evaluation goes through. The predicates, the restrictions and the frames
outside stay as they are; what is remembered stays true, and variables keep their propositions.
-/

set_option autoImplicit false

namespace RegularArithmetic

open Program (FrameGrows findVar)

/-- The automaton says of its proposition what the operand says of a number. -/
def Automaton.IsOperand (s : Diagram.Store) (a : Automaton) (p : Nat) (x : Operand) : Prop :=
  a.Recognizes s {p} fun w => x.rel w.length (numbers w p)

/-- The automaton of a literal, about the propositions of its variables. -/
def Literal.relation (l : Literal) : Relation := ⟨l.automaton, l.vars.map (·.2)⟩

def Interpretation.limits (I : Interpretation) : Limits := ⟨∅, ∅, I.domains, I.domains, ∅⟩

namespace Workspace

variable {I : Interpretation} {K : Limits} {w w' w'' : Workspace}

/-- A call of the name meets no predicate that was not evaluated yet, other than those whose
evaluation is in progress and that must not meet themselves. -/
def Settled (w : Workspace) (name : String) : Prop :=
  ∀ target q, w.program.resolveAlias name = .ok target →
    w.program.predicates[target]? = some q → q.memo = none →
    w.program.config.detectCycles = true ∧ target ∈ w.program.inProgress

/-- What is remembered is true: the memos of the names that `I` says something about are the
relations that it says, and the constants in the domains that it speaks of are what `I` says, which
knows only of remembered ones. -/
structure Right (I : Interpretation) (w : Workspace) : Prop where
  sound : w.alphabet.diagrams.Sound
  declarations : w.program.declarations = []
  names : I.domains ∪ {"adder", "equal", "less"} ⊆ I.names
  relations : ∀ name ∈ I.names, ∀ target q r, w.program.resolveAlias name = .ok target →
    w.program.predicates[target]? = some q → q.memo = some r →
    r.Means w.alphabet.diagrams (I.holds name)
  settled : ∀ name ∈ I.domains, w.Settled name
  constants : ∀ n d v, ((n, d), v) ∈ w.program.constants → d.Closed I.limits →
    v.automaton.IsOperand w.alphabet.diagrams v.prop (.constant I (d.sense I) n)
  temporary : ∀ d n x, I.known d n = some x → x.temporary = true
  known : ∀ d n, I.known d n ≠ none → w.program.constants.lookup (n, d) ≠ none

structure Later (w w' : Workspace) : Prop where
  alphabet : w.alphabet ≤ w'.alphabet
  temporaries : w.program.temporaries ≤ w'.program.temporaries
  config : w'.program.config = w.program.config
  predicates : w'.program.predicates = w.program.predicates
  context : w'.program.context = w.program.context
  declarations : w'.program.declarations = w.program.declarations
  restrictions : w'.program.restrictions = w.program.restrictions
  inProgress : w'.program.inProgress = w.program.inProgress
  frames : List.Forall₂ (FrameGrows w.alphabet.size w'.alphabet.size w.program.temporaries
    w'.program.temporaries) w.program.frames w'.program.frames
  right : ∀ I, w.Right I → w'.Right I

theorem forall₂_refl {n n' k k' : Nat} (fs : List Frame) :
    List.Forall₂ (FrameGrows n n' k k') fs fs :=
  List.forall₂_same.2 fun f _ => .refl f

theorem forall₂_trans {R S T : Frame → Frame → Prop} (hT : ∀ f g h, R f g → S g h → T f h)
    {fs gs hs : List Frame} (h : List.Forall₂ R fs gs) (h' : List.Forall₂ S gs hs) :
    List.Forall₂ T fs hs := by
  induction h generalizing hs with
  | nil =>
    cases h'
    exact .nil
  | cons hfg _ ih =>
    cases h' with
    | cons hgh h' => exact .cons (hT _ _ _ hfg hgh) (ih h')

instance : Preorder Workspace where
  le := Later
  le_refl w := ⟨le_rfl, le_rfl, rfl, rfl, rfl, rfl, rfl, rfl, forall₂_refl _, fun _ h => h⟩
  le_trans w w' w'' h h' := {
    alphabet := le_trans h.alphabet h'.alphabet
    temporaries := le_trans h.temporaries h'.temporaries
    config := h'.config.trans h.config
    predicates := h'.predicates.trans h.predicates
    context := h'.context.trans h.context
    declarations := h'.declarations.trans h.declarations
    restrictions := h'.restrictions.trans h.restrictions
    inProgress := h'.inProgress.trans h.inProgress
    frames := forall₂_trans (fun _ _ _ hfg hgh => hfg.trans hgh (Alphabet.size_mono h.alphabet)
      (Alphabet.size_mono h'.alphabet) h.temporaries h'.temporaries) h.frames h'.frames
    right := fun I hI => h'.right I (h.right I hI) }

/-- All variables in scope have propositions that exist. -/
structure Framed (w : Workspace) : Prop where
  nonempty : w.program.frames ≠ []
  vars : ∀ f ∈ w.program.frames, ∀ v p, (v, p) ∈ f.vars → p ≤ w.alphabet.size

/-- The limits make sense in the state: no name is a temporary one of the future, all relations
are settled and `I` says something about them, and all literals are what `I` says. -/
structure Suits (I : Interpretation) (K : Limits) (w : Workspace) : Prop where
  names : K.names ⊆ I.names
  vars : ∀ v ∈ K.vars, ¬IsFuture w.program.temporaries v
  binders : ∀ v ∈ K.binders, ¬IsFuture w.program.temporaries v
  settled : ∀ name ∈ K.names, w.Settled name
  context : "adder" ∈ K.names ∧ "equal" ∈ K.names ∧ "less" ∈ K.names
  domains : K.domains ⊆ K.names ∧ K.domains ⊆ I.domains
  literals : ∀ l ∈ K.literals, l.relation.Means w.alphabet.diagrams (I.literal l)

/-- The restrictions of the variables that may be quantified are within the limits. -/
structure Restricted (K : Limits) (w : Workspace) : Prop where
  within : ∀ v ∈ K.binders, ∀ c ∈ w.program.restrictions.visible v, c.Within (K.bind v)
  vars : ∀ v, w.program.restrictions.visible v ≠ [] → ¬IsFuture w.program.temporaries v

/-- The state is one in which expressions within the limits can be evaluated. -/
structure Ready (I : Interpretation) (K : Limits) (w : Workspace) : Prop where
  right : w.Right I
  framed : w.Framed
  suits : w.Suits I K
  restricted : w.Restricted K

theorem Framed.mono (h : w.Framed) (hle : w ≤ w') : w'.Framed where
  nonempty hnil := by
    have hlength := hle.frames.length_eq
    rw [hnil] at hlength
    exact h.nonempty (List.length_eq_zero_iff.1 hlength)
  vars f' hf' v p hp := by
    obtain ⟨f, hf, hgrows⟩ := exists_mem_of_forall₂ hle.frames.flip hf'
    obtain ⟨extra, hvars, -, hextra⟩ := hgrows.vars
    rw [hvars] at hp
    rcases List.mem_append.1 hp with hp | hp
    · exact (hextra v p hp).1.2
    · exact (h.vars f hf v p hp).trans (Alphabet.size_mono hle.alphabet)

theorem Framed.le_size (h : w.Framed) {v : String} {p : Nat}
    (hp : findVar v w.program.frames = .bound p) : p ≤ w.alphabet.size := by
  obtain ⟨f, hf, hv⟩ := Program.exists_of_findVar hp
  exact h.vars f hf v p hv

/-- The variable is new and has a new proposition, which no variable of before has. -/
structure Introduces (w w' : Workspace) (name : String) (p : Nat) : Prop where
  bound : findVar name w'.program.frames = .bound p
  named : ¬IsFuture w'.program.temporaries name
  lt : w.alphabet.size < p
  le_size : p ≤ w'.alphabet.size
  other : ∀ v q, ¬IsFuture w.program.temporaries v → findVar v w'.program.frames = .bound q →
    q ≤ w.alphabet.size

theorem resolveAlias_eq (hle : w ≤ w') (name : String) :
    w'.program.resolveAlias name = w.program.resolveAlias name :=
  Program.resolveAlias_congr hle.predicates hle.context name

theorem Settled.mono {name : String} (h : w.Settled name) (hle : w ≤ w') : w'.Settled name := by
  intro target q htarget hq hmemo
  rw [resolveAlias_eq hle] at htarget
  rw [hle.predicates] at hq
  rw [hle.config, hle.inProgress]
  exact h target q htarget hq hmemo

theorem Suits.mono (h : w.Suits I K) (hs : w.alphabet.diagrams.Sound) (hle : w ≤ w') :
    w'.Suits I K where
  names := h.names
  vars v hv hfuture := h.vars v hv (hfuture.mono hle.temporaries)
  binders v hv hfuture := h.binders v hv (hfuture.mono hle.temporaries)
  settled name hname := (h.settled name hname).mono hle
  context := h.context
  domains := h.domains
  literals l hl := (h.literals l hl).mono_store hs hle.alphabet.1

theorem Restricted.mono (h : w.Restricted K) (hle : w ≤ w') : w'.Restricted K where
  within v hv c hc := by
    rw [hle.restrictions] at hc
    exact h.within v hv c hc
  vars v hv hfuture := by
    rw [hle.restrictions] at hv
    exact h.vars v hv (hfuture.mono hle.temporaries)

theorem Restricted.visible_eq_nil (h : w.Restricted K) {v : String}
    (hv : IsFuture w.program.temporaries v) : w.program.restrictions.visible v = [] := by
  by_contra hne
  exact h.vars v hne hv

theorem Ready.mono (h : w.Ready I K) (hle : w ≤ w') : w'.Ready I K :=
  ⟨hle.right I h.right, h.framed.mono hle, h.suits.mono h.right.sound hle, h.restricted.mono hle⟩

theorem Ready.sound (h : w.Ready I K) : w.alphabet.diagrams.Sound := h.right.sound

end Workspace

/-- The same limits, but for the free variables and the quantified ones. -/
def Limits.about (K : Limits) (vs bs : Set String) : Limits := ⟨vs, bs, K.names, K.domains, ∅⟩

/-- What the constants of the domains that `I` speaks of are made with. -/
def Interpretation.needs (I : Interpretation) : Limits :=
  ⟨∅, ∅, I.domains ∪ {"adder", "equal", "less"}, I.domains, ∅⟩

namespace Workspace

variable {I : Interpretation} {K : Limits} {w : Workspace}

theorem Ready.about (h : w.Ready I K) {vs bs : Set String}
    (hvs : ∀ v ∈ vs, ¬IsFuture w.program.temporaries v)
    (hbs : ∀ v ∈ bs, ¬IsFuture w.program.temporaries v ∧ w.program.restrictions.visible v = []) :
    w.Ready I (K.about vs bs) where
  right := h.right
  framed := h.framed
  suits := ⟨h.suits.names, hvs, fun v hv => (hbs v hv).1, h.suits.settled, h.suits.context,
    h.suits.domains, fun l hl => absurd hl (Set.notMem_empty l)⟩
  restricted := ⟨fun v hv c hc => by simp [(hbs v hv).2] at hc, h.restricted.vars⟩

theorem Right.ready_needs (h : w.Right I) (hframed : w.Framed)
    (hcontext : w.Settled "adder" ∧ w.Settled "equal" ∧ w.Settled "less")
    (hvars : ∀ v, w.program.restrictions.visible v ≠ [] → ¬IsFuture w.program.temporaries v) :
    w.Ready I I.needs where
  right := h
  framed := hframed
  suits := {
    names := h.names
    vars := fun v hv => absurd hv (Set.notMem_empty v)
    binders := fun v hv => absurd hv (Set.notMem_empty v)
    settled := by
      rintro name (hname | rfl | rfl | rfl)
      · exact h.settled name hname
      · exact hcontext.1
      · exact hcontext.2.1
      · exact hcontext.2.2
    context := ⟨.inr (.inl rfl), .inr (.inr (.inl rfl)), .inr (.inr (.inr rfl))⟩
    domains := ⟨Set.subset_union_left, subset_rfl⟩
    literals := fun l hl => absurd hl (Set.notMem_empty l) }
  restricted := ⟨fun v hv => absurd hv (Set.notMem_empty v), hvars⟩

theorem Right.ready {I' : Interpretation} (h' : w.Right I') (h : w.Ready I K) :
    w.Ready I' I'.needs :=
  h'.ready_needs h.framed ⟨h.suits.settled _ h.suits.context.1,
    h.suits.settled _ h.suits.context.2.1, h.suits.settled _ h.suits.context.2.2⟩
    h.restricted.vars

theorem Right.mono_alphabet {x y : Alphabet} {p : Program} (h : Right I ⟨x, p⟩) (hxy : x ≤ y) :
    Right I ⟨y, p⟩ where
  sound := h.sound.mono hxy.1
  declarations := h.declarations
  names := h.names
  relations name hname target q r htarget hq hr :=
    (h.relations name hname target q r htarget hq hr).mono_store h.sound hxy.1
  settled := h.settled
  constants n d v hv hd := (h.constants n d v hv hd).mono_store h.sound hxy.1
  temporary := h.temporary
  known := h.known

theorem later_alphabet {x y : Alphabet} (p : Program) (hxy : x ≤ y) :
    (⟨x, p⟩ : Workspace) ≤ ⟨y, p⟩ where
  alphabet := hxy
  temporaries := le_rfl
  config := rfl
  predicates := rfl
  context := rfl
  declarations := rfl
  restrictions := rfl
  inProgress := rfl
  frames := forall₂_refl _
  right _ h := h.mono_alphabet hxy

end Workspace

namespace Program

variable {α β : Type} {w w' : Workspace}

theorem yields_liftAlphabet {x : Alphabet.M α} {P : α → Alphabet → Prop}
    (h : Yields x w.alphabet P) :
    Yields (liftM x : M α) w fun r w' => P r w'.alphabet ∧ w'.program = w.program := by
  obtain ⟨alphabet, program⟩ := w
  refine .intro (fun r w' hr => ?_) fun e w' he => ?_
  · simp only [liftM, monadLift, MonadLift.monadLift] at hr
    split at hr <;> cases hr
    rename_i heq
    obtain ⟨hle, hP⟩ := h.of_ok heq
    exact ⟨Workspace.later_alphabet _ hle, hP, rfl⟩
  · simp only [liftM, monadLift, MonadLift.monadLift] at he
    split at he <;> cases he
    rename_i heq
    exact Workspace.later_alphabet _ (h.of_error heq)

theorem yields_liftDiagram {x : Diagram.M α} {P : α → Diagram.Store → Prop}
    (h : Yields x w.alphabet.diagrams P) :
    Yields (liftM x : M α) w fun r w' => P r w'.alphabet.diagrams ∧ w'.program = w.program :=
  yields_liftAlphabet h.liftDiagram

theorem yields_liftFault {x : Except Fault α} {P : α → Alphabet → Prop}
    (h : Gives x (P · w.alphabet)) :
    Yields (liftM x : M α) w fun r w' => P r w'.alphabet ∧ w'.program = w.program :=
  yields_liftAlphabet (Yields.liftFault h)

theorem yields_liftError {x : Except Error α} {P : α → Prop} (h : Gives x P) :
    Yields (liftM x : M α) w fun r w' => P r ∧ w' = w := by
  cases x with
  | ok r => exact .pure ⟨h r rfl, rfl⟩
  | error e => exact .throw

theorem yields_ask (q : Program → α) : Yields (ask q) w fun r w' => r = q w.program ∧ w' = w :=
  ⟨le_rfl, rfl, rfl⟩

theorem yields_temporaryName {hint : String} :
    Yields (temporaryName hint) w fun name w' =>
      name = temporaryNameOf hint (w.program.temporaries + 1) ∧
      w' = ⟨w.alphabet, { w.program with temporaries := w.program.temporaries + 1 }⟩ := by
  refine ⟨?_, rfl, rfl⟩
  exact {
    alphabet := le_rfl
    temporaries := Nat.le_succ _
    config := rfl
    predicates := rfl
    context := rfl
    declarations := rfl
    restrictions := rfl
    inProgress := rfl
    frames := Workspace.forall₂_refl _
    right := fun _ h => ⟨h.sound, h.declarations, h.names, h.relations, h.settled, h.constants,
      h.temporary, h.known⟩ }

private theorem later_temporary {x : Alphabet} (hx : w.alphabet ≤ x) {k : Nat}
    (hk : w.program.temporaries ≤ k) {fs : List Frame}
    (hfs : List.Forall₂ (FrameGrows w.alphabet.size x.size w.program.temporaries k)
      w.program.frames fs) : w ≤ ⟨x, { w.program with temporaries := k, frames := fs }⟩ where
  alphabet := hx
  temporaries := hk
  config := rfl
  predicates := rfl
  context := rfl
  declarations := rfl
  restrictions := rfl
  inProgress := rfl
  frames := hfs
  right _ h :=
    have h' := Workspace.Right.mono_alphabet (p := w.program) h hx
    ⟨h'.sound, h'.declarations, h'.names, h'.relations, h'.settled, h'.constants, h'.temporary,
      h'.known⟩

theorem yields_temporary_eq {hint : String} (hhint : hint ∈ hints) :
    Yields (temporary hint) w fun r w' =>
      (r.1 = temporaryNameOf hint (w.program.temporaries + 1) ∧ r.2 = w.alphabet.size + 1) ∧
        w'.alphabet.size = r.2 ∧ w'.program = { w.program with
          temporaries := w.program.temporaries + 1
          frames := bindInnermost r.1 r.2 w.program.frames } := by
  obtain ⟨alphabet, program⟩ := w
  have hfresh := yields_fresh (a := alphabet) (temporaryNameOf hint (program.temporaries + 1))
  have hname : temporaryName hint ⟨alphabet, program⟩ =
    .ok (temporaryNameOf hint (program.temporaries + 1))
      ⟨alphabet, { program with temporaries := program.temporaries + 1 }⟩ := rfl
  simp only [Yields, temporary, bind, EStateM.bind, hname, change, pure, EStateM.pure, liftM,
    monadLift, MonadLift.monadLift]
  cases hx : Alphabet.fresh (temporaryNameOf hint (program.temporaries + 1)) alphabet with
  | ok p x =>
    obtain ⟨hle, hp, hsize, -⟩ := hfresh.of_ok hx
    have hnow : ¬IsFuture (program.temporaries + 1)
        (temporaryNameOf hint (program.temporaries + 1)) := by
      rw [isFuture_temporaryNameOf hhint]
      exact Nat.lt_irrefl _
    have hfuture : IsFuture program.temporaries
        (temporaryNameOf hint (program.temporaries + 1)) := by
      rw [isFuture_temporaryNameOf hhint]
      exact Nat.lt_succ_self _
    have hnew : alphabet.size < p ∧ p ≤ x.size :=
      ⟨hp ▸ Nat.lt_succ_self _, hp ▸ hsize ▸ le_rfl⟩
    exact ⟨later_temporary hle (Nat.le_succ _) (grows_bindInnermost hnew hnow hfuture),
      ⟨rfl, hp⟩, hsize.trans hp.symm, rfl⟩
  | error e x =>
    exact later_temporary (hfresh.of_error hx) (Nat.le_succ _) (Workspace.forall₂_refl _)

theorem yields_temporary_new {hint : String} (hhint : hint ∈ hints)
    (hframes : w.program.frames ≠ []) : Yields (temporary hint) w fun r w' =>
      findVar r.1 w'.program.frames = .bound r.2 ∧ ¬IsFuture w'.program.temporaries r.1 ∧
        w.alphabet.size < r.2 ∧ r.2 ≤ w'.alphabet.size := by
  refine (yields_temporary_eq hhint).mono fun r w' _ ⟨⟨hname, hp⟩, hsize, hprogram⟩ => ?_
  have htemporaries := congrArg Program.temporaries hprogram
  have hframes' := congrArg Program.frames hprogram
  refine ⟨hframes' ▸ findVar_bindInnermost hframes, ?_, hp ▸ Nat.lt_succ_self _, hsize.ge⟩
  rw [htemporaries, hname, isFuture_temporaryNameOf hhint]
  exact Nat.lt_irrefl _

theorem yields_temporary {hint : String} (hhint : hint ∈ hints) (hframed : w.Framed) :
    Yields (temporary hint) w fun r w' => w.Introduces w' r.1 r.2 := by
  refine ((yields_temporary_new hhint hframed.nonempty).and (yields_temporary_eq hhint)).mono ?_
  rintro r w' - ⟨⟨hbound, hnamed, hlt, hsize⟩, ⟨hname, -⟩, -, hprogram⟩
  refine ⟨hbound, hnamed, hlt, hsize, fun v q hv hq => ?_⟩
  have hne : v ≠ r.1 := fun heq => hv (by
    rw [heq, hname, isFuture_temporaryNameOf hhint]
    exact Nat.lt_succ_self _)
  rw [congrArg Program.frames hprogram, findVar_bindInnermost_of_ne hne] at hq
  exact hframed.le_size hq

theorem yields_propOf {v : String} (hv : ¬IsFuture w.program.temporaries v) :
    Yields (propOf v) w fun p w' => findVar v w'.program.frames = .bound p := by
  obtain ⟨alphabet, program⟩ := w
  have hask : (ask (·.frames) : M _) ⟨alphabet, program⟩ = .ok program.frames ⟨alphabet, program⟩ :=
    rfl
  simp only [Yields, propOf, bind, EStateM.bind, hask]
  cases hfind : findVar v program.frames with
  | bound p => exact ⟨le_rfl, hfind⟩
  | unbound owner => exact le_refl (⟨alphabet, program⟩ : Workspace)
  | free =>
    have hfresh := yields_fresh (a := alphabet) v
    simp only [EStateM.bind, liftM, monadLift, MonadLift.monadLift, change]
    cases hx : Alphabet.fresh v alphabet with
    | ok p x =>
      obtain ⟨hle, hp, hsize, -⟩ := hfresh.of_ok hx
      refine ⟨later_temporary hle le_rfl (grows_bindFree ⟨?_, ?_⟩ hv hfind), findVar_bindFree hfind⟩
      · exact hp ▸ Nat.lt_succ_self _
      · exact hp ▸ hsize ▸ le_rfl
    | error e x => exact later_temporary (hfresh.of_error hx) le_rfl (Workspace.forall₂_refl _)

end Program

end RegularArithmetic
