import RegularArithmetic.Proofs.Program.Memory
import RegularArithmetic.Proofs.Session.Padding

/-!
A principle for sessions. What evaluation keeps, and each kind of definition, is kept by whole
sessions, in which definitions may be nested and may depend on what holds.
-/

set_option autoImplicit false

namespace RegularArithmetic

namespace Session

abbrev Over (R : Program → Program → Prop) : Session → Session → Prop :=
  InvImage R fun s => s.workspace.program

variable {α : Type} {s s' : Session}

instance {R : Program → Program → Prop} [IsPreorder Program R] : IsPreorder Session (Over R) where
  refl _ := Std.Refl.refl (r := R) _
  trans _ _ _ := IsTrans.trans (r := R) _ _ _

section

variable {R : Program → Program → Prop}

theorem along_lift {x : Program.M α} (hx : Program.Leads R x) :
    Along (Over R) (liftM x : M α) := by
  rintro ⟨workspace, report, files⟩
  have h := hx workspace
  simp only [endOf, liftM, monadLift, MonadLift.monadLift] at h ⊢
  revert h
  cases x workspace <;> exact id

variable [IsPreorder Program R]

theorem along_readFile (file : String) : Along (Over R) (readFile file) := by
  intro s
  simp only [endOf, readFile]
  cases s.files.read file <;> exact Std.Refl.refl (r := Over R) s

theorem along_writeFile (file text : String) : Along (Over R) (writeFile file text) := by
  rintro ⟨workspace, report, files⟩
  simp only [endOf, writeFile]
  cases files.write file text <;> exact Std.Refl.refl (r := R) workspace.program

theorem along_record (a : Assertion) : Along (Over R) (record a) :=
  fun s => Std.Refl.refl (r := Over R) s

theorem leads_askAlphabet (q : Alphabet → Except Fault α) :
    Program.Leads R (askAlphabet q) := by
  intro w
  simp only [endOf, askAlphabet]
  cases q w.alphabet <;> exact Std.Refl.refl (r := R) w.program

theorem along_loadRelation (file : String) : Along (Over R) (loadRelation file) :=
  (along_readFile file).bind fun _ => along_lift (Program.Leads.liftAlphabet _)

theorem along_makeLiteral (o : Origin) (name : String) (args : List String) :
    Along (Over R) (makeLiteral o name args) :=
  (along_lift (Program.Leads.liftAlphabet _)).bind fun _ =>
    along_lift ((Program.Leads.liftAlphabet _).bind fun _ => .pure _)

/-! What only evaluates leads where evaluation does. -/

variable (hR : ∀ {α : Type} {x : Program.M α}, Program.Stepwise x → Program.Leads R x)

include hR

theorem along_check (expected : Truth) (name : String) : Along (Over R) (check expected name) :=
  (along_lift (hR (Program.stepwise_predicateTruth name))).bind fun _ => along_record _

theorem along_save (name file : String) : Along (Over R) (save name file) := by
  refine (along_lift (hR (Program.steady_standard.relationOf name))).bind fun (target, r) => ?_
  refine (along_lift (Program.Leads.predicate target)).bind fun q => ?_
  exact (along_lift (leads_askAlphabet _)).bind fun text => along_writeFile file text

theorem along_saveAutomaton (name file : String) : Along (Over R) (saveAutomaton name file) := by
  refine (along_lift (hR (Program.stepwise_automatonOf name))).bind fun a => ?_
  exact (along_lift (leads_askAlphabet _)).bind fun text => along_writeFile file text

end

theorem exists_of_lift_eq_ok {x : Program.M α} {r : α}
    (h : (liftM x : M α) s = .ok r s') :
    ∃ w, x s.workspace = .ok r w ∧ s' = ⟨w, s.report, s.files⟩ := by
  simp only [liftM, monadLift, MonadLift.monadLift] at h
  split at h <;> cases h
  exact ⟨_, ‹_›, rfl⟩

theorem Ends.endOf_eq {y : M α} (h : Ends y s s') : endOf y s = s' := by
  obtain ⟨r, h⟩ | ⟨e, h⟩ := h
  · exact endOf_of_eq_ok h
  · exact endOf_of_eq_error h

end Session

variable {P : Definition → Prop} {R : Program → Program → Prop}

mutual

/-- In the session, the step comes to one with `P`. A nested list of definitions comes to those that
it executes in its own session, which starts with the relations of base 2. -/
def Definition.Reaches (P : Definition → Prop) : Definition → Session → Prop
  | .nested ds, ⟨⟨alphabet, program⟩, _, files⟩ => P (.nested ds) ∨
    ∃ s, (Program.installBinary : Session.M Unit) (.blank program.config alphabet files) =
      .ok () s ∧ reachesAny P ds s
  | .ifDefined other yes no, s =>
    if s.workspace.program.predicates.contains other then reachesAny P yes s
    else reachesAny P no s
  | .byTruth x always never sometimes, ⟨w, report, files⟩ =>
    ∃ t w', Program.truthOf x w = .ok t w' ∧
      match t with
      | .always => reachesAny P always ⟨w', report, files⟩
      | .never => reachesAny P never ⟨w', report, files⟩
      | .sometimes => reachesAny P sometimes ⟨w', report, files⟩
  | d, _ => P d

/-- The same of a list of steps, of which each starts where the one before has ended. -/
def reachesAny (P : Definition → Prop) : List Definition → Session → Prop
  | [], _ => False
  | d :: ds, s => d.Reaches P s ∨ ∃ s', Session.execute d s = .ok () s' ∧ reachesAny P ds s'

end

namespace Session

/-- A relation between earlier and later programs that evaluation keeps, and all steps keep but
those with `P`. What a nested session has come to is compared with the empty program that it came
from. -/
structure Sustained (P : Definition → Prop) (R : Program → Program → Prop) : Prop where
  evaluates : ∀ {α : Type} {x : Program.M α}, Program.Stepwise x → Program.Leads R x
  restricts : ∀ p r, R p { p with restrictions := r }
  defines : ∀ q, ¬P (.predicate q) → Program.Leads R (Program.define q)
  loads : ∀ file name args r, ¬P (.load file name args) →
    Program.Leads R (Program.defineRelation name args r)
  declares : ∀ d p, ¬P (.declaration d) → R p (p.addDeclaration d)
  redirects : ∀ name target p, ¬P (.context name target) → R p (p.setAlias name target)
  installs : ∀ ds, ¬P (.nested ds) → Program.Leads R Program.installBinary
  merges : ∀ config p p', R (.blank config) p' → R p (merge p p')

namespace Sustained

theorem mono {Q : Definition → Prop} (h : Sustained P R) (hPQ : ∀ d, P d → Q d) :
    Sustained Q R where
  evaluates := h.evaluates
  restricts := h.restricts
  defines q hq := h.defines q fun hp => hq (hPQ _ hp)
  loads file name args r hq := h.loads file name args r fun hp => hq (hPQ _ hp)
  declares d p hq := h.declares d p fun hp => hq (hPQ _ hp)
  redirects name target p hq := h.redirects name target p fun hp => hq (hPQ _ hp)
  installs ds hq := h.installs ds fun hp => hq (hPQ _ hp)
  merges := h.merges

variable {s : Session} [IsPreorder Program R]

section

variable (h : Sustained P R)

include h

theorem restrictBy (f : Restrictions → Except Error Restrictions) :
    Program.Leads R (Program.restrictBy f) :=
  (Program.Leads.ask _).bind fun _ => (Program.Leads.liftError _).bind fun r =>
    Program.Leads.change fun p => h.restricts p r

omit [IsPreorder Program R] in
theorem clear : Program.Leads R clear := Program.Leads.change fun p => h.restricts p .none

theorem load {file name : String} {args : List String} (hP : ¬P (.load file name args)) :
    Along (Over R) (load file name args) :=
  (along_loadRelation file).bind fun r =>
    .ite (.throw _) (along_lift (h.loads file name args r hP))

theorem inNested {ds : List Definition} {x : M Unit} (hP : ¬P (.nested ds))
    (hx : ∀ s₁, (Program.installBinary : M Unit) (blank s.workspace.program.config
      s.workspace.alphabet s.files) = .ok () s₁ → Over R s₁ (endOf x s₁)) :
    Over R s (endOf (inNested x) s) := by
  obtain ⟨⟨alphabet, program⟩, report, files⟩ := s
  have hinner : Over R (blank program.config alphabet files) (endOf (do
      (Program.installBinary : M Unit)
      x
      (Session.clear : M Unit)) (blank program.config alphabet files)) := by
    refine Along.bind_at (along_lift (h.installs ds hP) _) fun _ s₁ hs₁ => ?_
    exact Along.bind_at (hx s₁ hs₁) fun _ s₂ _ => along_lift h.clear s₂
  simp only [endOf, Session.inNested]
  cases hrun : (do
      (Program.installBinary : M Unit)
      x
      (Session.clear : M Unit)) (blank program.config alphabet files) with
  | error e s₁ => exact Std.Refl.refl (r := R) program
  | ok _ s₁ =>
    rw [endOf_of_eq_ok hrun] at hinner
    exact h.merges program.config program _ hinner

end

mutual

theorem execute (h : Sustained P R) : ∀ (d : Definition) (s : Session), ¬d.Reaches P s →
    Over R s (endOf (execute d) s)
  | .predicate q, s, hP => by
    rw [Session.execute]
    exact along_lift (h.defines q hP) s
  | .restrict vars name params, s, _ => by
    rw [Session.execute]
    exact Along.forM (fun v => along_lift (h.restrictBy _)) vars s
  | .forget vars, s, _ => by
    rw [Session.execute]
    exact Along.forM (fun v => along_lift (h.restrictBy _)) vars s
  | .declaration d, s, hP => by
    rw [Session.execute]
    exact along_lift (Program.Leads.change fun p => h.declares d p hP) s
  | .context name target, s, hP => by
    rw [Session.execute]
    exact along_lift (Program.Leads.change fun p => h.redirects name target p hP) s
  | .assertion expected name, s, _ => by
    rw [Session.execute]
    exact along_check h.evaluates expected name s
  | .save name file, s, _ => by
    rw [Session.execute]
    exact along_save h.evaluates name file s
  | .load file name args, s, hP => by
    rw [Session.execute]
    exact h.load hP s
  | .nested ds, s, hP => by
    rw [Session.execute]
    exact h.inNested (fun hds => hP (.inl hds)) fun s₁ hs₁ =>
      executeAll h ds s₁ fun hds => hP (.inr ⟨s₁, hs₁, hds⟩)
  | .ifDefined other yes no, s, hP => by
    rw [Session.execute]
    refine Along.bind_at (along_lift (Program.Leads.ask _) s) fun defined s₁ hs₁ => ?_
    obtain ⟨w, report, files⟩ := s
    cases hs₁
    split
    · rename_i hdefined
      exact executeAll h yes _ fun hyes => hP ((if_pos hdefined).mpr hyes)
    · rename_i hdefined
      exact executeAll h no _ fun hno => hP ((if_neg hdefined).mpr hno)
  | .byTruth x always never sometimes, s, hP => by
    rw [Session.execute]
    refine Along.bind_at (along_lift (h.evaluates (Program.stepwise_truthOf x)) s)
      fun t s₁ hs₁ => ?_
    obtain ⟨w, report, files⟩ := s
    obtain ⟨w', hw', rfl⟩ := exists_of_lift_eq_ok hs₁
    cases t with
    | always => exact executeAll h always _ fun ht => hP ⟨_, w', hw', ht⟩
    | never => exact executeAll h never _ fun ht => hP ⟨_, w', hw', ht⟩
    | sometimes => exact executeAll h sometimes _ fun ht => hP ⟨_, w', hw', ht⟩

theorem executeAll (h : Sustained P R) : ∀ (ds : List Definition) (s : Session),
    ¬reachesAny P ds s → Over R s (endOf (executeAll ds) s)
  | [], s, _ => Along.pure (R := Over R) () s
  | d :: ds, s, hP => by
    rw [Session.executeAll]
    exact Along.bind_at (execute h d s fun hd => hP (.inl hd)) fun _ s₁ hs₁ =>
      executeAll h ds s₁ fun hds => hP (.inr ⟨s₁, hs₁, hds⟩)

end

end Sustained

/-- In the session, the command comes to a step with `P`. -/
def Command.Reaches (P : Definition → Prop) : Command → Session → Prop
  | .run ds, s => reachesAny P ds s
  | .define q, _ => P (.predicate q)
  | .declare d, _ => P (.declaration d)
  | .direct name target, _ => P (.context name target)
  | _, _ => False

namespace Sustained

variable {s : Session} [IsPreorder Program R]

theorem run (h : Sustained P R) {ds : List Definition} (hP : ¬reachesAny P ds s) :
    Over R s (endOf (run ds) s) := by
  refine Along.bind_at (h.executeAll ds s hP) fun _ s₁ _ => ?_
  exact Along.bind_at (along_lift h.clear s₁) fun _ s₂ _ => Std.Refl.refl (r := Over R) s₂

theorem perform (h : Sustained P R) (c : Command) (hP : ¬c.Reaches P s) :
    Over R s (endOf c.perform s) := by
  have hstep : ∀ {α : Type} {x : Program.M α}, Program.Stepwise x →
      Along (Over R) (liftM x : M α) := fun hx => along_lift (h.evaluates hx)
  have hchange : ∀ {f : Program → Program}, (∀ p, R p (f p)) →
      Along (Over R) (liftM (Program.change f) : M Unit) := fun hf =>
    along_lift (Program.Leads.change hf)
  cases c with
  | run ds =>
    change Over R s (endOf (Functor.map _ (Session.run ds)) s)
    rw [endOf_map]
    exact h.run hP
  | define q => exact along_lift (h.defines q hP) s
  | truth x => exact (hstep (Program.stepwise_truthOf x)).map _ s
  | witness x => exact (hstep (Program.stepwise_witness x)).map _ s
  | infer x => exact (hstep (Program.stepwise_inferred x)).map _ s
  | predicateTruth name => exact (hstep (Program.stepwise_predicateTruth name)).map _ s
  | automaton name => exact (hstep (Program.stepwise_automatonOf name)).map _ s
  | call name vars => exact (hstep (Program.stepwise_callOn name vars)).map _ s
  | constant d n => exact (hstep (Program.stepwise_constantOf d n)).map _ s
  | declare d => exact hchange (fun p => h.declares d p hP) s
  | direct name target => exact hchange (fun p => h.redirects name target p hP) s
  | restrict r => exact hchange (fun p => h.restricts p r) s
  | limit budget => exact along_lift (Program.Leads.liftAlphabet _) s
  | save name file => exact along_saveAutomaton h.evaluates name file s
  | load file => exact (along_loadRelation file).map _ s
  | provide file text => exact (along_writeFile file text).tryCatch (fun _ => .throw _) s

end Sustained

mutual

theorem not_reaches_false : ∀ (d : Definition) (s : Session), ¬d.Reaches (fun _ => False) s
  | .nested ds, ⟨⟨_, _⟩, _, _⟩, h => h.elim id fun ⟨s, _, hs⟩ => not_reachesAny_false ds s hs
  | .ifDefined _ yes no, s, h => by
    rw [Definition.Reaches] at h
    split at h
    · exact not_reachesAny_false yes s h
    · exact not_reachesAny_false no s h
  | .byTruth _ always never sometimes, ⟨_, _, _⟩, ⟨t, _, _, h⟩ => by
    cases t with
    | always => exact not_reachesAny_false always _ h
    | never => exact not_reachesAny_false never _ h
    | sometimes => exact not_reachesAny_false sometimes _ h
  | .predicate _, _, h | .restrict .., _, h | .forget _, _, h | .declaration _, _, h
  | .context .., _, h | .assertion .., _, h | .save .., _, h | .load .., _, h => h

theorem not_reachesAny_false : ∀ (ds : List Definition) (s : Session),
    ¬reachesAny (fun _ => False) ds s
  | [], _, h => h
  | d :: ds, s, h => h.elim (not_reaches_false d s) fun ⟨s', _, hs'⟩ =>
    not_reachesAny_false ds s' hs'

end

theorem Command.not_reaches_false (s : Session) : ∀ c : Command, ¬c.Reaches (fun _ => False) s
  | .run ds => not_reachesAny_false ds s
  | .define _ | .truth _ | .witness _ | .infer _ | .predicateTruth _ | .automaton _ | .call ..
  | .constant .. | .declare _ | .direct .. | .restrict _ | .limit _ | .save .. | .load _
  | .provide .. => id

theorem Reached.sustained [IsPreorder Program R] {config : Config} {ls : List Literal} {s : Session}
    (h : Reached config ls s) (hR : Sustained (fun _ => False) R) :
    R (.blank config) s.workspace.program := by
  induction h with
  | @start s h =>
    unfold Session.start at h
    split at h
    · cases h
    · rename_i alphabet _
      split at h
      · rename_i s' hinstall
        cases h
        have hled := along_lift (hR.installs [] id) (blank config alphabet .empty)
        rwa [endOf_of_eq_ok hinstall] at hled
      · cases h
  | @perform ls s s' c _ _ hrun ih =>
    exact IsTrans.trans _ _ _ ih (hrun.endOf_eq ▸ hR.perform c (c.not_reaches_false s))
  | @literal ls s s' l o name args _ hrun ih =>
    have hled := along_makeLiteral (R := R) o name args s
    exact IsTrans.trans _ _ _ ih (endOf_of_eq_ok hrun ▸ hled)
  | @noLiteral ls s s' e o name args _ hrun ih =>
    have hled := along_makeLiteral (R := R) o name args s
    exact IsTrans.trans _ _ _ ih (endOf_of_eq_error hrun ▸ hled)

end Session

end RegularArithmetic
