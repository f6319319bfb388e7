import RegularArithmetic.Proofs.Program.Memory
import RegularArithmetic.Proofs.Typing.Declarations

/-!
What a definition that fails leaves behind. All that the program had is as it was, apart from the
name of the definition. Once its guards and its body are accepted, a predicate takes the place of
another of its name, which is not put back when the evaluation fails.
-/

set_option autoImplicit false

namespace RegularArithmetic.Program

/-- The program later on: names lead where they did, and the same declarations hold. -/
structure Governed (p p' : Program) : Prop where
  config : p'.config = p.config
  context : p'.context = p.context
  declarations : p'.declarations = p.declarations

instance : IsPreorder Program Governed where
  refl _ := ⟨rfl, rfl, rfl⟩
  trans _ _ _ h h' := ⟨h'.config.trans h.config, h'.context.trans h.context,
    h'.declarations.trans h.declarations⟩

variable {α : Type} {k : Engine} {x : M α} {p p' : Program} {w w' : Workspace} {name : String}
  {q : Predicate} {r : Relation} {e : Failure} {S : Set String}

theorem governed_change {f : Program → Program}
    (hf : ∀ p, (f p).config = p.config ∧ (f p).context = p.context ∧
      (f p).declarations = p.declarations) : Leads Governed (change f) :=
  Leads.change fun p => ⟨(hf p).1, (hf p).2.1, (hf p).2.2⟩

theorem governed_temporaryName (hint : String) : Leads Governed (temporaryName hint) :=
  Along.bind (governed_change fun _ => ⟨rfl, rfl, rfl⟩) fun _ => (Leads.ask _).bind fun _ => .pure _

theorem governed_temporary (hint : String) : Leads Governed (temporary hint) :=
  (governed_temporaryName hint).bind fun _ => (Leads.liftAlphabet _).bind fun _ =>
    Along.bind (governed_change fun _ => ⟨rfl, rfl, rfl⟩) fun _ => .pure _

theorem governed_propOf (v : String) : Leads Governed (propOf v) := by
  refine (Leads.ask _).bind fun frames => ?_
  split
  · exact .pure _
  · exact .throw _
  · exact (Leads.liftAlphabet _).bind fun _ =>
      Along.bind (governed_change fun _ => ⟨rfl, rfl, rfl⟩) fun _ => .pure _

theorem Stepwise.governed (h : Stepwise x) : Leads Governed x := by
  induction h with
  | pure r => exact .pure r
  | throw f => exact .throw f
  | bind _ _ hx hg => exact Along.bind hx hg
  | reads _ _ hg => exact fun w => hg w.program w
  | alphabet _ => exact Leads.liftAlphabet _
  | temporaryName hint => exact governed_temporaryName hint
  | @temporary hint _ => exact governed_temporary hint
  | propOf v => exact governed_propOf v
  | remember key v => exact governed_change fun _ => ⟨rfl, rfl, rfl⟩
  | inScope s hx ih =>
    rw [hx.quiet.withScope_eq]
    exact Leads.enclosed ih fun p q h => ⟨h.config, h.context, h.declarations⟩
  | inFrame f _ ih => exact Leads.enclosed ih fun p q h => ⟨h.config, h.context, h.declarations⟩
  | memoOf name _ h =>
    exact Leads.memoOf (fun p q => ⟨rfl, rfl, rfl⟩)
      (fun p q h => ⟨h.config, h.context, h.declarations⟩) h

theorem governed_define (q : Predicate) : Leads Governed (define q) := by
  have hmemo : Leads Governed (tryCatch (discard (Engine.standard.memoOf q.name)) fun e => do
      change (·.removePredicate q.name)
      throw e) :=
    ((steady_standard.memoOf q.name).governed.map _).tryCatch fun e =>
      Along.bind (governed_change fun _ => ⟨rfl, rfl, rfl⟩) fun _ => .throw e
  unfold define
  refine (Leads.liftError _).bind fun guards => ?_
  refine ((stepwise_inferred q.body).inScope guards).governed.bind fun body => ?_
  exact (Leads.ask _).bind fun config =>
    Along.bind (governed_change fun _ => ⟨rfl, rfl, rfl⟩) fun _ => hmemo

/-! ### Programs between definitions -/

/-- All predicates are found under their names and have been evaluated, and shapes of one name are
declared once. -/
structure Complete (p : Program) : Prop where
  registered : p.Registered
  evaluated : ∀ (name : String) q, p.predicates[name]? = some q → q.memo ≠ none
  declared : (Declaration.names p.declarations).Nodup

namespace Complete

/-- Where memos are spared, nothing about predicates changes at all. -/
theorem getElem?_eq (h : p.Complete) (hspares : Spares S p p') (hname : name ∈ S) :
    p'.predicates[name]? = p.predicates[name]? :=
  hspares.getElem?_eq h.registered hname (h.evaluated name)

theorem mono (h : p.Complete) (hspares : Spares Set.univ p p')
    (hdeclarations : p'.declarations = p.declarations) : p'.Complete where
  registered := hspares.registered h.registered
  evaluated name q hq := by
    rw [h.getElem?_eq hspares (Set.mem_univ name)] at hq
    exact h.evaluated name q hq
  declared := hdeclarations ▸ h.declared

theorem of_eq (h : p.Complete) (hpredicates : p'.predicates = p.predicates)
    (hdeclarations : p'.declarations = p.declarations) : p'.Complete :=
  h.mono (.of_eq hpredicates) hdeclarations

end Complete

theorem complete_blank (config : Config) : (blank config).Complete where
  registered name q hq := by simp [blank] at hq
  evaluated name q hq := by simp [blank] at hq
  declared := List.nodup_nil

def KeepsComplete (p p' : Program) : Prop := p.Complete → p'.Complete

instance : IsPreorder Program KeepsComplete where
  refl _ := id
  trans _ _ _ h h' hp := h' (h hp)

theorem Stepwise.keepsComplete (h : Stepwise x) : Leads KeepsComplete x := fun w hw =>
  hw.mono (h.spares w) (h.governed w).declarations

theorem predicate_eq_ok_iff :
    Engine.predicate name w = .ok q w' ↔ w.program.predicates[name]? = some q ∧ w' = w := by
  constructor
  · intro hrun
    cases hq : w.program.predicates[name]? with
    | none =>
      simp only [Engine.predicate, ask, Bind.bind, EStateM.bind, hq] at hrun
      cases hrun
    | some q' =>
      cases (predicate_eq_ok hq).symm.trans hrun
      exact ⟨rfl, rfl⟩
  · rintro ⟨hq, rfl⟩
    exact predicate_eq_ok hq

theorem exists_memo_of_memoOf (hk : k.Steady) (hw : w.program.Registered)
    (hrun : k.memoOf name w = .ok r w') :
    ∃ q, w'.program.predicates[name]? = some q ∧ q.memo = some r := by
  obtain ⟨q, w₁, hq, hrest⟩ := exists_of_bind_eq_ok hrun
  obtain ⟨hq, rfl⟩ := predicate_eq_ok_iff.1 hq
  cases hmemo : q.memo with
  | some r' =>
    simp only [hmemo] at hrest
    cases hrest
    exact ⟨q, hq, hmemo⟩
  | none =>
    simp only [hmemo] at hrest
    obtain ⟨config, w₂, hconfig, hrest⟩ := exists_of_bind_eq_ok hrest
    obtain ⟨names, w₃, hnames, hrest⟩ := exists_of_bind_eq_ok hrest
    cases hconfig
    cases hnames
    split at hrest
    · cases hrest
    · obtain ⟨r', w₂, hmade, hrest⟩ := exists_of_bind_eq_ok hrest
      obtain ⟨q₂, w₃, hq₂, hadopt⟩ := exists_of_bind_eq_ok hrest
      obtain ⟨hq₂, rfl⟩ := predicate_eq_ok_iff.1 hq₂
      cases hadopt
      -- What is in progress meanwhile leaves predicates under their names.
      obtain ⟨hbody, -⟩ := spares_evaluateBody (w := entering name w₁)
        (fun q closure => (hk.evaluateUnder name q closure).spares) hq hmemo
      have hspares := spares_whileInProgress (w := w₁) ⟨hbody.registered, hbody.predicates⟩
      rw [endOf_of_eq_ok hmade] at hspares
      have hname : q₂.name = name := (hspares.registered hw name q₂ hq₂).name_eq
      have hadopted := predicates_adopt w₃.program { q₂ with memo := some r }
      exact ⟨{ q₂ with memo := some r }, hname ▸ hadopted, rfl⟩

/-- The guards of the predicate are well-formed, and domains are found for its body, so that it
takes the place of another of its name. -/
def Accepts (w : Workspace) (q : Predicate) : Prop :=
  ∃ scope y v, guardScope q.guards = .ok scope ∧ withScope scope (inferred q.body) w = .ok y v

theorem spares_of_not_accepts (h : ¬Accepts w q) :
    (∃ e, define q w = .error e (endOf (define q) w)) ∧
      Spares Set.univ w.program (endOf (define q) w).program := by
  cases hguards : guardScope q.guards with
  | error e =>
    have hrun : define q w = .error (.error e) w := by
      simp only [define, Bind.bind, EStateM.bind, hguards]
      rfl
    rw [endOf_of_eq_error hrun]
    exact ⟨⟨_, hrun⟩, .of_eq rfl⟩
  | ok scope =>
    have hspares := ((stepwise_inferred q.body).inScope scope).spares w
    cases hinfer : withScope scope (inferred q.body) w with
    | ok y v => exact absurd ⟨scope, y, v, hguards, hinfer⟩ h
    | error e v =>
      have hrun : define q w = .error e v := by
        simp only [define, Bind.bind, EStateM.bind, hguards, liftM, monadLift,
          MonadLift.monadLift, Pure.pure, EStateM.pure, hinfer]
      rw [endOf_of_eq_error hinfer] at hspares
      rw [endOf_of_eq_error hrun]
      exact ⟨⟨_, hrun⟩, hspares⟩

theorem predicates_define_of_accepts (hw : w.program.Registered) (h : Accepts w q) :
    (∀ w', define q w = .ok () w' →
      ∃ q', w'.program.predicates[q.name]? = some q' ∧ q'.memo ≠ none) ∧
    ∀ e w', define q w = .error e w' → w'.program.predicates[q.name]? = none := by
  obtain ⟨scope, y, v, hscope, hinfer⟩ := h
  constructor
  · intro w' hrun
    rw [Workspace.define_eq hscope hinfer] at hrun
    split at hrun
    · rename_i r w₁ hmemo
      cases hrun
      have hspares := ((stepwise_inferred q.body).inScope scope).spares w
      rw [endOf_of_eq_ok hinfer] at hspares
      have hprepared := (Spares.of_eq rfl).adopt (S := ∅) (p := v.program) (q := v.prepared q y)
        (fun _ => ⟨rfl, nofun⟩) fun _ hmem => absurd hmem (Set.notMem_empty _)
      obtain ⟨q', hq', hr⟩ := exists_memo_of_memoOf steady_standard
        (hprepared.registered (hspares.registered hw)) hmemo
      refine ⟨q', hq', ?_⟩
      rw [hr]
      exact nofun
    · cases hrun
  · intro e w' hrun
    exact Workspace.predicates_of_define_error hscope hinfer hrun

theorem keepsComplete_define (q : Predicate) : Leads KeepsComplete (define q) := by
  intro w h
  have hdeclarations := (governed_define q w).declarations
  by_cases haccepts : Accepts w q
  · obtain ⟨hok, herror⟩ := predicates_define_of_accepts h.registered haccepts
    have hkeeps := keeps_define (S := {name | name ≠ q.name}) (fun hne => hne rfl) w
    refine ⟨hkeeps.spares.registered h.registered, fun name q' hq' => ?_,
      hdeclarations ▸ h.declared⟩
    by_cases hname : name = q.name
    · subst hname
      cases hrun : define q w with
      | ok _ w' =>
        rw [endOf_of_eq_ok hrun] at hq'
        obtain ⟨q'', hq'', hmemo⟩ := hok w' hrun
        cases hq'.symm.trans hq''
        exact hmemo
      | error e w' =>
        rw [endOf_of_eq_error hrun, herror e w' hrun] at hq'
        cases hq'
    · rw [h.getElem?_eq hkeeps.spares hname] at hq'
      exact h.evaluated name q' hq'
  · exact h.mono (spares_of_not_accepts haccepts).2 hdeclarations

/-- What a definition leaves of the program if it fails. Only the name of the predicate may be
affected: if the definition was accepted, the name is that of no predicate any more. -/
structure Refused (q : Predicate) (w w' : Workspace) : Prop where
  governed : Governed w.program w'.program
  undisturbed : Undisturbed w.program w'.program
  others : ∀ name ≠ q.name, w'.program.predicates[name]? = w.program.predicates[name]?
  accepted : Accepts w q → w'.program.predicates[q.name]? = none
  unaccepted : ¬Accepts w q → w'.program.predicates[q.name]? = w.program.predicates[q.name]?

theorem refused_of_define_error (h : w.program.Complete) (hrun : define q w = .error e w') :
    Refused q w w' where
  governed := endOf_of_eq_error hrun ▸ governed_define q w
  undisturbed := endOf_of_eq_error hrun ▸ quiet_define q w
  others name hname := by
    have hkeeps := keeps_define (S := {name | name ≠ q.name}) (fun hne => hne rfl) w
    rw [endOf_of_eq_error hrun] at hkeeps
    exact h.getElem?_eq hkeeps.spares hname
  accepted haccepts := (predicates_define_of_accepts h.registered haccepts).2 e w' hrun
  unaccepted hnot := by
    have hspares := (spares_of_not_accepts hnot).2
    rw [endOf_of_eq_error hrun] at hspares
    exact h.getElem?_eq hspares (Set.mem_univ q.name)

theorem Refused.getElem?_eq (h : Refused q w w') (hnew : w.program.predicates[q.name]? = none)
    (name : String) : w'.program.predicates[name]? = w.program.predicates[name]? := by
  by_cases hname : name = q.name
  · subst hname
    by_cases haccepts : Accepts w q
    · rw [h.accepted haccepts, hnew]
    · exact h.unaccepted haccepts
  · exact h.others name hname

end RegularArithmetic.Program
