import RegularArithmetic.Proofs.Program.Undisturbed

/-!
A state budget changes nothing about evaluation and definitions, unless it is exceeded. Whatever
is opened is closed again in that case too, so that the error is not covered by another one.
-/

set_option autoImplicit false

namespace RegularArithmetic

open Budgeted (within)

/-- The program and its alphabet with another budget. -/
def Workspace.within (w : Workspace) (limit : Option Nat) : Workspace :=
  ⟨w.alphabet.within limit, w.program.within limit⟩

instance : Budgeted Workspace := ⟨Workspace.within⟩

def Program.Unbudgeted (f : Program → Program) : Prop :=
  ∀ p limit, f (Program.within p limit) = (f p).within limit

theorem Program.Unbudgeted.run {f : Program → Program} (hf : Unbudgeted f) (w : Workspace)
    (limit : Option Nat) : change f (Budgeted.within w limit) =
      .ok () (Budgeted.within (⟨w.alphabet, f w.program⟩ : Workspace) limit) := by
  change EStateM.Result.ok () (Workspace.mk (w.alphabet.within limit) (f (w.program.within limit)))
    = _
  rw [hf]
  rfl

namespace Frugal

open Program (M Unbudgeted)

variable {α β : Type} {x : M α}

theorem liftAlphabet {x : Alphabet.M α} (hx : Frugal x) : Frugal (liftM x : M α) := by
  rintro ⟨alphabet, program⟩ limit limit' hle
  have h := hx alphabet limit limit' hle
  simp only [liftM, monadLift, MonadLift.monadLift, within, Workspace.within] at h ⊢
  revert h
  generalize x (alphabet.within limit) = e
  generalize x (alphabet.within limit') = e'
  rintro (⟨n, m, t, _⟩ | ⟨r, t⟩ | ⟨f, t⟩)
  · exact .exceeded n m (⟨t, _⟩ : Workspace) _
  · exact .ok r (⟨t, program⟩ : Workspace)
  · exact .error f (⟨t, program⟩ : Workspace)

theorem liftError (x : Except Error α) : Frugal (liftM x : M α) := by
  cases x with
  | ok r => exact .pure r
  | error e => exact .throw (.error e)

/-- What is read of the program does not depend on the budget. -/
theorem reads {g : Program → M α} (hg : ∀ p limit, g (p.within limit) = g p)
    (h : ∀ p, Frugal (g p)) : Frugal fun w : Workspace => g w.program w := by
  intro w limit limit' hle
  have hread : ∀ limit, (fun w : Workspace => g w.program w) (within w limit) =
      g w.program (within w limit) := fun limit => by
    rw [← hg w.program limit]
    rfl
  rw [hread, hread]
  exact h w.program w limit limit' hle

theorem ask_bind {q : Program → β} {g : β → M α}
    (hq : ∀ p limit, g (q (p.within limit)) = g (q p)) (h : ∀ p, Frugal (g (q p))) :
    Frugal (Program.ask q >>= g) :=
  reads (g := fun p => g (q p)) hq h

theorem ask {q : Program → β} (hq : ∀ p limit, q (p.within limit) = q p) :
    Frugal (Program.ask q) :=
  reads (g := fun p => Pure.pure (q p)) (fun p limit => by rw [hq]) fun _ => .pure _

theorem change {f : Program → Program} (hf : Unbudgeted f) :
    Frugal (Program.change f) := by
  intro w limit limit' _
  rw [hf.run, hf.run]
  exact .ok () _

theorem followedBy_change {leave : Program → Program} (hx : Frugal x)
    (hleave : Unbudgeted leave) :
    Frugal (Program.followedBy x (Program.change leave)) := by
  intro w limit limit' hle
  have h := hx w limit limit' hle
  simp only [Program.followedBy]
  revert h
  generalize x (within w limit) = e
  generalize x (within w limit') = e'
  rintro (⟨n, m, t, _⟩ | ⟨r, t⟩ | ⟨f, t⟩)
  · exact .exceeded n m (⟨t.alphabet, leave t.program⟩ : Workspace) _
  · simp only [hleave.run]
    exact .ok r _
  · simp only [hleave.run]
    exact .error f _

theorem cleanup {f : Program → Program} (hx : Frugal x)
    (hf : Unbudgeted f) :
    Frugal (tryCatch x fun e => do
      Program.change f
      MonadExcept.throw e) := by
  intro w limit limit' hle
  have h := hx w limit limit' hle
  simp only [tryCatch, tryCatchThe, MonadExceptOf.tryCatch, EStateM.tryCatch]
  revert h
  generalize x (within w limit) = e
  generalize x (within w limit') = e'
  rintro (⟨n, m, t, _⟩ | ⟨r, t⟩ | ⟨e, t⟩)
  · exact .exceeded n m (⟨t.alphabet, f t.program⟩ : Workspace) _
  · exact .ok r t
  · simp only [EStateM.Backtrackable.restore, EStateM.dummyRestore, Bind.bind, EStateM.bind, hf.run]
    exact .error e (⟨t.alphabet, f t.program⟩ : Workspace)

theorem temporaryName (hint : String) : Frugal (Program.temporaryName hint) :=
  Frugal.bind (.change fun _ _ => rfl) fun _ => .ask_bind (fun _ _ => rfl) fun _ => .pure _

theorem temporary (hint : String) : Frugal (Program.temporary hint) :=
  (temporaryName hint).bind fun name => (liftAlphabet (.fresh name)).bind fun _ =>
    Frugal.bind (.change fun _ _ => rfl) fun _ => .pure _

theorem propOf (v : String) : Frugal (Program.propOf v) := by
  refine .ask_bind (fun _ _ => rfl) fun p => ?_
  cases Program.findVar v p.frames with
  | bound q => exact .pure q
  | unbound owner => exact .throw _
  | free =>
    exact (liftAlphabet (.fresh v)).bind fun q =>
      Frugal.bind (.change fun _ _ => rfl) fun _ => .pure q

theorem predicate (name : String) : Frugal (Program.Engine.predicate name) := by
  refine .ask_bind (fun _ _ => rfl) fun p => ?_
  split
  · exact .pure _
  · exact .throw _

theorem closureOf (q : Predicate) : Frugal (Program.Engine.closureOf q) := by
  unfold Program.Engine.closureOf
  split
  · exact .pure _
  · exact .ask_bind (fun _ _ => rfl) fun p => Frugal.bind (.change fun _ _ => rfl) fun _ => .pure _

/-- A memo that is made under a budget is the one that is made without. -/
theorem memoOf {k : Program.Engine} (name : String)
    (h : ∀ q closure, Frugal (k.evaluateUnder name q closure)) : Frugal (k.memoOf name) := by
  have hbody : Frugal (k.evaluateBody name) := by
    rw [Program.Engine.evaluateBody_eq]
    exact (predicate name).bind fun q => (closureOf q).bind fun closure => h q closure
  have hmake : Frugal (do
      let r ← Program.Engine.whileInProgress name (k.evaluateBody name)
      Program.change (·.adopt { ← Program.Engine.predicate name with memo := some r })
      return r) :=
    (Frugal.bind (.change fun _ _ => rfl) fun _ =>
      hbody.followedBy_change fun _ _ => rfl).bind fun r => (predicate name).bind fun q =>
        Frugal.bind (.change fun _ _ => rfl) fun _ => .pure r
  unfold Program.Engine.memoOf
  refine (predicate name).bind fun q => ?_
  split
  · exact .pure _
  · refine .ask_bind (fun _ _ => rfl) fun p => .ask_bind (fun _ _ => rfl) fun p' => ?_
    split
    · exact .throw _
    · exact hmake

end Frugal

namespace Program

variable {α : Type} {x : M α}

theorem Stepwise.frugal (h : Stepwise x) : Frugal x := by
  induction h with
  | pure r => exact .pure r
  | throw f => exact .throw f
  | bind _ _ hx hg => exact hx.bind hg
  | reads hg _ h => exact .reads hg h
  | alphabet hx => exact hx.liftAlphabet
  | temporaryName hint => exact .temporaryName hint
  | @temporary hint _ => exact .temporary hint
  | propOf v => exact .propOf v
  | remember key v => exact .change fun _ _ => rfl
  | inScope s h hx =>
    rw [h.quiet.withScope_eq]
    exact Frugal.bind (.change fun _ _ => rfl) fun _ => hx.followedBy_change fun _ _ => rfl
  | inFrame f _ hx =>
    exact Frugal.bind (.change fun _ _ => rfl) fun _ => hx.followedBy_change fun _ _ => rfl
  | memoOf name _ h => exact .memoOf name h

def LeavesBudget {α : Type} (x : M α) : Prop :=
  ∀ w r w', x w = .ok r w' → w'.alphabet.budget = w.alphabet.budget

namespace LeavesBudget

variable {β : Type}

theorem pure (r : α) : LeavesBudget (Pure.pure r : M α) := by
  rintro w _ _ ⟨⟩
  rfl

theorem throw (f : Failure) : LeavesBudget (MonadExcept.throw f : M α) := by
  rintro w _ _ ⟨⟩

theorem bind {g : α → M β} (hx : LeavesBudget x) (hg : ∀ r, LeavesBudget (g r)) :
    LeavesBudget (x >>= g) := by
  intro w r w' hrun
  obtain ⟨a, w₁, hfirst, hrest⟩ := exists_of_bind_eq_ok hrun
  exact (hg a w₁ r w' hrest).trans (hx w a w₁ hfirst)

theorem change (f : Program → Program) : LeavesBudget (change f) := by
  rintro w _ _ ⟨⟩
  rfl

theorem ask (q : Program → α) : LeavesBudget (ask q) := by
  rintro w _ _ ⟨⟩
  rfl

theorem liftAlphabet {x : Alphabet.M α} (hx : Frugal x) : LeavesBudget (liftM x : M α) := by
  rintro ⟨alphabet, program⟩ r w' hrun
  simp only [liftM, monadLift, MonadLift.monadLift] at hrun
  split at hrun
  · rename_i hok
    cases hrun
    exact hx.budget_eq hok
  · cases hrun

theorem followedBy_change (hx : LeavesBudget x) (f : Program → Program) :
    LeavesBudget (followedBy x (Program.change f)) := by
  intro w r w' hrun
  rw [followedBy] at hrun
  cases hfirst : x w with
  | ok a w₁ =>
    rw [hfirst] at hrun
    cases hrun
    exact hx w r w₁ hfirst
  | error e w₁ =>
    rw [hfirst] at hrun
    cases hrun

theorem temporaryName (hint : String) : LeavesBudget (temporaryName hint) :=
  (change _).bind fun _ => (ask _).bind fun _ => .pure _

theorem temporary (hint : String) : LeavesBudget (temporary hint) :=
  (temporaryName hint).bind fun name => (liftAlphabet (.fresh name)).bind fun _ =>
    (change _).bind fun _ => .pure _

theorem propOf (v : String) : LeavesBudget (propOf v) := by
  refine (ask _).bind fun frames => ?_
  split
  · exact .pure _
  · exact .throw _
  · exact (liftAlphabet (.fresh v)).bind fun _ => (change _).bind fun _ => .pure _

theorem predicate (name : String) : LeavesBudget (Engine.predicate name) := by
  refine (ask _).bind fun ps => ?_
  split
  · exact .pure _
  · exact .throw _

theorem memoOf {k : Engine} (name : String)
    (h : ∀ q closure, LeavesBudget (k.evaluateUnder name q closure)) :
    LeavesBudget (k.memoOf name) := by
  have hclosure : ∀ q, LeavesBudget (Engine.closureOf q) := fun q => by
    unfold Engine.closureOf
    split
    · exact .pure _
    · exact (ask _).bind fun _ => (change _).bind fun _ => .pure _
  have hbody : LeavesBudget (k.evaluateBody name) :=
    (predicate name).bind fun q => (hclosure q).bind fun closure => h q closure
  have hmake : LeavesBudget (do
      let r ← Engine.whileInProgress name (k.evaluateBody name)
      Program.change (·.adopt { ← Engine.predicate name with memo := some r })
      return r) :=
    ((change _).bind fun _ => hbody.followedBy_change _).bind fun r =>
      (predicate name).bind fun _ => (change _).bind fun _ => .pure r
  refine (predicate name).bind fun q => ?_
  split
  · exact .pure _
  · refine (ask _).bind fun config => (ask _).bind fun names => ?_
    split
    · exact .throw _
    · exact hmake

end LeavesBudget

theorem Stepwise.leavesBudget (h : Stepwise x) : LeavesBudget x := by
  induction h with
  | pure r => exact .pure r
  | throw f => exact .throw f
  | bind _ _ hx hg => exact hx.bind hg
  | reads _ _ h => exact fun w => h w.program w
  | alphabet hx => exact .liftAlphabet hx
  | temporaryName hint => exact .temporaryName hint
  | @temporary hint _ => exact .temporary hint
  | propOf v => exact .propOf v
  | remember key v => exact .change _
  | inScope s h hx =>
    rw [h.quiet.withScope_eq]
    exact (LeavesBudget.change _).bind fun _ => hx.followedBy_change _
  | inFrame f _ hx => exact (LeavesBudget.change _).bind fun _ => hx.followedBy_change _
  | memoOf name _ h => exact .memoOf name h

theorem frugal_define (q : Predicate) : Frugal (define q) := by
  have hmemo : Frugal (tryCatch (discard (Engine.standard.memoOf q.name)) fun e => do
      change (·.removePredicate q.name)
      throw e) :=
    ((steady_standard.memoOf q.name).frugal.map _).cleanup (f := (·.removePredicate q.name))
      fun _ _ => rfl
  refine (Frugal.liftError _).bind fun guards => ?_
  refine ((stepwise_inferred q.body).inScope guards).frugal.bind fun body => ?_
  exact .ask_bind (fun _ _ => rfl) fun p => Frugal.bind (.change fun _ _ => rfl) fun _ => hmemo

theorem frugal_literalOf (name : String) (r : Relation) (args : List String) :
    Frugal (literalOf name r args) :=
  (Frugal.liftAlphabet .freshLiteral).bind fun _ => .pure _

theorem frugal_defineRelation (name : String) (args : List String) (r : Relation) :
    Frugal (defineRelation name args r) :=
  (frugal_literalOf name r args).bind fun _ => frugal_define _

theorem frugal_installBinary : Frugal installBinary := by
  refine (Frugal.liftAlphabet Binary.frugal_add).bind fun r => (frugal_defineRelation _ _ r).bind
    fun _ => ?_
  refine (Frugal.liftAlphabet Binary.frugal_equal).bind fun r => (frugal_defineRelation _ _ r).bind
    fun _ => ?_
  refine (Frugal.liftAlphabet Binary.frugal_less).bind fun r => (frugal_defineRelation _ _ r).bind
    fun _ => ?_
  refine (Frugal.liftAlphabet Binary.frugal_zero).bind fun r => (frugal_defineRelation _ _ r).bind
    fun _ => ?_
  exact .change fun _ _ => rfl

end Program

end RegularArithmetic
