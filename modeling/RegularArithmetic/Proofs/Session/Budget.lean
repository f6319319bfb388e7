import RegularArithmetic.Session.Run
import RegularArithmetic.Proofs.Interchange.Reader
import RegularArithmetic.Proofs.Program.Budget

/-!
Sessions under two state budgets. The one with the higher budget does what the one with the lower
budget does, up to the point where the lower budget is exceeded; an error that there is under the
higher budget is therefore there under the lower one, or that one is exceeded before.
-/

set_option autoImplicit false

namespace RegularArithmetic

open Budgeted (within)

/-- The settings with another budget. -/
def Config.within (c : Config) (limit : Option Nat) : Config := { c with budget := limit }

/-- The session with another budget. -/
def Session.within (s : Session) (limit : Option Nat) : Session :=
  ⟨s.workspace.within limit, s.report, s.files⟩

instance : Budgeted Session := ⟨Session.within⟩

namespace Session

variable {α : Type}

theorem frugal_lift {x : Program.M α} (hx : Frugal x) : Frugal (liftM x : M α) := by
  rintro ⟨workspace, report, files⟩ limit limit' hle
  have h := hx workspace limit limit' hle
  simp only [liftM, monadLift, MonadLift.monadLift, Budgeted.within, Session.within] at h ⊢
  revert h
  generalize x (workspace.within limit) = e
  generalize x (workspace.within limit') = e'
  rintro (⟨n, m, t, _⟩ | ⟨r, t⟩ | ⟨f, t⟩)
  · exact .exceeded n m (⟨t, report, files⟩ : Session) _
  · exact .ok r (⟨t, report, files⟩ : Session)
  · exact .error f (⟨t, report, files⟩ : Session)

theorem frugal_readFile (name : String) : Frugal (readFile name) := by
  rintro ⟨workspace, report, files⟩ limit limit' -
  simp only [readFile, Budgeted.within, Session.within]
  cases files.read name with
  | ok text => exact .ok text (⟨workspace, report, files⟩ : Session)
  | error e => exact .error (.error e) (⟨workspace, report, files⟩ : Session)

theorem frugal_writeFile (name text : String) : Frugal (writeFile name text) := by
  rintro ⟨workspace, report, files⟩ limit limit' -
  simp only [writeFile, Budgeted.within, Session.within]
  cases files.write name text with
  | ok files' => exact .ok () (⟨workspace, report, files'⟩ : Session)
  | error e => exact .error (.error e) (⟨workspace, report, files⟩ : Session)

theorem frugal_record (a : Assertion) : Frugal (record a) := fun s _ _ _ =>
  .ok () (⟨s.workspace, ⟨s.report.assertions ++ [a]⟩, s.files⟩ : Session)

theorem frugal_askAlphabet {q : Alphabet → Except Fault α}
    (hq : ∀ a limit, q (Alphabet.within a limit) = q a) :
    Frugal (askAlphabet q) := by
  intro w limit limit' _
  have hask : ∀ limit, q (Budgeted.within w limit : Workspace).alphabet = q w.alphabet :=
    hq w.alphabet
  simp only [askAlphabet, hask]
  cases q w.alphabet with
  | ok r => exact .ok r w
  | error e => exact .error (.fault e) w

theorem frugal_restrictBy (f : Restrictions → Except Error Restrictions) :
    Frugal (Program.restrictBy f) :=
  .ask_bind (fun _ _ => rfl) fun _ => (Frugal.liftError _).bind fun _ => .change fun _ _ => rfl

theorem frugal_check (expected : Truth) (name : String) : Frugal (check expected name) :=
  (frugal_lift (Program.stepwise_predicateTruth name).frugal).bind fun _ => frugal_record _

theorem frugal_save (name file : String) : Frugal (save name file) := by
  have hrelation := (Program.steady_standard.relationOf name).frugal
  refine (frugal_lift hrelation).bind fun (target, r) => ?_
  refine (frugal_lift (Frugal.predicate target)).bind fun q => ?_
  refine (frugal_lift (frugal_askAlphabet fun _ _ => rfl)).bind fun text => ?_
  exact frugal_writeFile file text

theorem frugal_load (file name : String) (args : List String) : Frugal (load file name args) := by
  refine Frugal.bind ?_ fun r => ?_
  · refine (frugal_readFile file).bind fun text => ?_
    exact frugal_lift (Automaton.frugal_ofText text).liftAlphabet
  · split
    · exact .throw _
    · exact frugal_lift (Program.frugal_defineRelation name args r)

theorem frugal_clear : Frugal clear := .change fun _ _ => rfl

theorem merge_within (p q : Program) (limit : Option Nat) :
    merge (p.within limit) (q.within limit) = (merge p q).within limit := by
  have hfold : ∀ {β : Type} (f : Program → β → Program),
      (∀ p b, f (p.within limit) b = (f p b).within limit) → ∀ (l : List β) (p : Program),
        l.foldl f (p.within limit) = (l.foldl f p).within limit := by
    intro β f hf l
    induction l with
    | nil => exact fun _ => rfl
    | cons b l ih =>
      intro p
      rw [List.foldl_cons, List.foldl_cons, hf, ih]
  unfold merge
  simp only [show (q.within limit).predicates = q.predicates from rfl,
    show (q.within limit).declarations = q.declarations from rfl,
    show (q.within limit).context = q.context from rfl]
  rw [hfold _ fun _ _ => rfl, hfold _ fun _ _ => rfl, hfold _ fun _ _ => rfl]

theorem frugal_inNested {x : M Unit} (hx : Frugal x) : Frugal (inNested x) := by
  have hinner : Frugal (do
      (Program.installBinary : M Unit)
      x
      (clear : M Unit)) :=
    (frugal_lift Program.frugal_installBinary).bind fun _ => hx.bind fun _ =>
      frugal_lift frugal_clear
  rintro ⟨⟨alphabet, program⟩, report, files⟩ limit limit' hle
  have h := hinner (blank program.config alphabet files) limit limit' hle
  have hblank : ∀ limit, Budgeted.within (blank program.config alphabet files) limit =
      blank (program.within limit).config (alphabet.within limit) files := fun _ => rfl
  rw [hblank, hblank] at h
  change Ending limit limit'
    (inNested x ⟨⟨alphabet.within limit, program.within limit⟩, report, files⟩)
    (inNested x ⟨⟨alphabet.within limit', program.within limit'⟩, report, files⟩)
  simp only [inNested]
  revert h
  generalize (do
      (Program.installBinary : M Unit)
      x
      (clear : M Unit)) (blank (program.within limit).config (alphabet.within limit) files) = e
  generalize (do
      (Program.installBinary : M Unit)
      x
      (clear : M Unit)) (blank (program.within limit').config (alphabet.within limit') files) = e'
  rintro (⟨n, m, t, _⟩ | ⟨_, t⟩ | ⟨f, t⟩)
  · exact .exceeded n m _ _
  · obtain ⟨⟨alphabet', p⟩, r, files'⟩ := t
    have hmerge := fun limit => merge_within program p limit
    simp only [Budgeted.within, Session.within, Workspace.within, hmerge]
    exact .ok () (⟨⟨alphabet', merge program p⟩, ⟨report.assertions ++ r.assertions⟩, files'⟩ :
      Session)
  · obtain ⟨⟨alphabet', p⟩, r, files'⟩ := t
    exact .error f (⟨⟨alphabet', program⟩, report, files'⟩ : Session)

mutual

theorem frugal_execute : ∀ d : Definition, Frugal (execute d)
  | .predicate q => by
    rw [execute]
    exact frugal_lift (Program.frugal_define q)
  | .restrict vars name params => by
    rw [execute]
    exact Frugal.forM (fun v => frugal_lift (frugal_restrictBy _)) vars
  | .forget vars => by
    rw [execute]
    exact Frugal.forM (fun v => frugal_lift (frugal_restrictBy _)) vars
  | .declaration d => by
    rw [execute]
    exact frugal_lift (.change fun _ _ => rfl)
  | .context name target => by
    rw [execute]
    exact frugal_lift (.change fun _ _ => rfl)
  | .assertion expected name => by
    rw [execute]
    exact frugal_check expected name
  | .save name file => by
    rw [execute]
    exact frugal_save name file
  | .load file name args => by
    rw [execute]
    exact frugal_load file name args
  | .nested ds => by
    rw [execute]
    exact frugal_inNested (frugal_executeAll ds)
  | .ifDefined name yes no => by
    rw [execute]
    refine (frugal_lift (.ask fun _ _ => rfl)).bind fun defined => ?_
    cases defined with
    | true => exact frugal_executeAll yes
    | false => exact frugal_executeAll no
  | .byTruth x always never sometimes => by
    rw [execute]
    refine (frugal_lift (Program.stepwise_truthOf x).frugal).bind fun t => ?_
    cases t with
    | always => exact frugal_executeAll always
    | never => exact frugal_executeAll never
    | sometimes => exact frugal_executeAll sometimes

theorem frugal_executeAll : ∀ ds : List Definition, Frugal (executeAll ds)
  | [] => .pure ()
  | d :: ds => by
    rw [executeAll]
    exact (frugal_execute d).bind fun _ => frugal_executeAll ds

end

theorem frugal_run (ds : List Definition) : Frugal (run ds) := by
  refine (frugal_executeAll ds).bind fun _ => (frugal_lift frugal_clear).bind fun _ => ?_
  exact fun s _ _ _ => .ok s.report s

/-- What becomes of definitions in a new session: the report and the session, or the failure. -/
def outcome (config : Config) (ds : List Definition) : Except Failure (Report × Session) :=
  match start config with
  | .error e => .error e
  | .ok s =>
    match run ds s with
    | .ok r s => .ok (r, s)
    | .error e _ => .error e

/-- What a computation of a session gives, with the session that it ends in. -/
private def answer (x : EStateM.Result Failure Session Report) :
    Except Failure (Report × Session) :=
  match x with
  | .ok r s => .ok (r, s)
  | .error e _ => .error e

private theorem outcome_eq (config : Config) (ds : List Definition) : outcome config ds =
    match Alphabet.empty? config.bits with
    | .error f => .error (.fault f)
    | .ok alphabet => answer ((do
        (Program.installBinary : M Unit)
        run ds) (blank config alphabet .empty)) := by
  rw [outcome, start]
  cases Alphabet.empty? config.bits with
  | error f => rfl
  | ok alphabet =>
    simp only [bind, EStateM.bind]
    cases (liftM Program.installBinary : M Unit) (blank config alphabet .empty) with
    | ok _ s =>
      dsimp only
      cases run ds s <;> rfl
    | error e s => rfl

private theorem answer_of_ending {limit limit' : Option Nat}
    {x y : EStateM.Result Failure Session Report} (h : Ending limit limit' x y) :
    (∀ r s, answer x = .ok (r, s) → answer y = .ok (r, s.within limit')) ∧
    ∀ e, answer y = .error e → answer x = .error e ∨
      ∃ n m, answer x = .error (.error (.budgetExceeded n m)) := by
  cases h with
  | exceeded n m t e => exact ⟨fun _ _ h => (nomatch h), fun _ _ => .inr ⟨n, m, rfl⟩⟩
  | ok r t =>
    refine ⟨fun r s h => ?_, fun _ h => nomatch h⟩
    cases h
    rfl
  | error f t => exact ⟨fun _ _ h => (nomatch h), fun e h => .inl h⟩

/-- What succeeds under a budget succeeds under a higher one, with the same report and the same
session; and what fails under the higher budget fails under the lower one, with the same failure
unless the lower budget is exceeded before. -/
theorem outcome_of_noLower {limit limit' : Option Nat} (hle : NoLower limit limit')
    (config : Config) (ds : List Definition) :
    (∀ r s, outcome (config.within limit) ds = .ok (r, s) →
      outcome (config.within limit') ds = .ok (r, s.within limit')) ∧
    ∀ e, outcome (config.within limit') ds = .error e →
      outcome (config.within limit) ds = .error e ∨
        ∃ n m, outcome (config.within limit) ds = .error (.error (.budgetExceeded n m)) := by
  simp only [outcome_eq, show ∀ l, (config.within l).bits = config.bits from fun _ => rfl]
  cases Alphabet.empty? config.bits with
  | error f => exact ⟨fun _ _ h => (nomatch h), fun e h => .inl h⟩
  | ok alphabet =>
    exact answer_of_ending ((frugal_lift Program.frugal_installBinary).bind
      (fun _ => frugal_run ds) (blank config alphabet .empty) limit limit' hle)

def halfBody : Expr :=
  .forSome "y" none (.equal (.var "x") (.arith .add (.var "y") (.var "y")))

/-- The even numbers are defined, and are found to be some. -/
def evenDefinitions : List Definition :=
  [.predicate (.ofBody "even" ["x"] [] halfBody), .assertion .sometimes "even"]

/-- Two states are enough for the even numbers, and more change nothing. -/
theorem outcome_of_noLower_even : NoLower (some 2) (some 5) ∧
    ∃ r s, outcome (Config.within ⟨2, none, true, true⟩ (some 2)) evenDefinitions = .ok (r, s) ∧
      r.assertions = [⟨"even", .sometimes, .sometimes⟩] ∧
      outcome (Config.within ⟨2, none, true, true⟩ (some 5)) evenDefinitions =
        .ok (r, s.within (some 5)) := by
  have hle : NoLower (some 2) (some 5) := by
    rintro m ⟨⟩
    exact ⟨2, rfl, by decide⟩
  have hrun : ((outcome (Config.within ⟨2, none, true, true⟩ (some 2)) evenDefinitions).toOption.any
      fun (r, _) => r.assertions = [⟨"even", .sometimes, .sometimes⟩]) = true := by
    decide +kernel
  cases h : outcome (Config.within ⟨2, none, true, true⟩ (some 2)) evenDefinitions with
  | error e =>
    rw [h] at hrun
    cases hrun
  | ok rs =>
    rw [h] at hrun
    exact ⟨hle, rs.1, rs.2, rfl, of_decide_eq_true hrun,
      (outcome_of_noLower hle ⟨2, none, true, true⟩ evenDefinitions).1 rs.1 rs.2 h⟩

end Session

end RegularArithmetic
