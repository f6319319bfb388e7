import RegularArithmetic.Proofs.Meaning.Plain
import RegularArithmetic.Proofs.Program.Stepwise

/-!
What a request to a program leaves as it was, also when it ends in an error at any depth: the
restrictions, the predicates in progress, and the frames, which may only gain variables.
-/

set_option autoImplicit false

namespace RegularArithmetic

/-- The frame later on. It may have gained variables, with propositions, which are numbered from
one; but a variable with a name of the user's keeps its proposition. -/
structure Frame.Extends (f f' : Frame) : Prop where
  kind : f'.kind = f.kind
  owner : f'.owner = f.owner
  vars : f.vars <:+ f'.vars
  gained : ∀ v p, (v, p) ∈ f'.vars → (v, p) ∈ f.vars ∨ 0 < p
  lookup : ∀ v p, IsOwn v → f.vars.lookup v = some p → f'.vars.lookup v = some p

namespace Frame.Extends

variable {f g h : Frame}

theorem refl (f : Frame) : f.Extends f :=
  ⟨rfl, rfl, List.suffix_refl _, fun _ _ => .inl, fun _ _ _ => id⟩

theorem trans (hfg : f.Extends g) (hgh : g.Extends h) : f.Extends h where
  kind := hgh.kind.trans hfg.kind
  owner := hgh.owner.trans hfg.owner
  vars := hfg.vars.trans hgh.vars
  gained v p h := (hgh.gained v p h).elim (hfg.gained v p) .inr
  lookup v p hv hp := hgh.lookup v p hv (hfg.lookup v p hv hp)

/-- A variable may be bound if it is the evaluator's, or was not bound in the frame. -/
theorem bind {v : String} {p : Nat} (hv : IsOwn v → f.vars.lookup v = none) (hp : 0 < p) :
    f.Extends { f with vars := (v, p) :: f.vars } where
  kind := rfl
  owner := rfl
  vars := List.suffix_cons _ _
  gained u q h := by
    rcases List.mem_cons.1 h with hnew | hold
    · cases hnew
      exact .inr hp
    · exact .inl hold
  lookup u q hu hq := by
    rw [List.lookup_cons]
    cases huv : u == v with
    | false => exact hq
    | true =>
      obtain rfl := eq_of_beq huv
      rw [hv hu] at hq
      cases hq

end Frame.Extends

/-- The program later on: all that is in force, in progress or bound still is. -/
structure Program.Undisturbed (p p' : Program) : Prop where
  restrictions : p'.restrictions = p.restrictions
  inProgress : p'.inProgress = p.inProgress
  frames : List.Forall₂ Frame.Extends p.frames p'.frames

namespace Program.Undisturbed

variable {p q r : Program}

theorem refl (p : Program) : p.Undisturbed p := ⟨rfl, rfl, List.forall₂_same.2 fun f _ => .refl f⟩

theorem trans (h : p.Undisturbed q) (h' : q.Undisturbed r) : p.Undisturbed r where
  restrictions := h'.restrictions.trans h.restrictions
  inProgress := h'.inProgress.trans h.inProgress
  frames := Workspace.forall₂_trans (fun _ _ _ hfg hgh => hfg.trans hgh) h.frames h'.frames

end Program.Undisturbed

instance : IsPreorder Program Program.Undisturbed where
  refl := .refl
  trans _ _ _ := .trans

/-- The computation leaves the program undisturbed, whether it gives a value or fails. -/
abbrev Program.Quiet {α : Type} (x : M α) : Prop := Leads Undisturbed x

namespace Program

variable {α : Type} {x : M α} {fs : List Frame} {v : String}

def leaveScope (p : Program) : Program :=
  { p with restrictions := ⟨p.restrictions.everywhere, p.restrictions.scopes.drop 1⟩ }

theorem extends_bindInnermost {p : Nat} (hv : ¬IsOwn v) (hp : 0 < p) :
    List.Forall₂ Frame.Extends fs (bindInnermost v p fs) := by
  cases fs with
  | nil => exact .nil
  | cons f fs => exact .cons (.bind (absurd · hv) hp) (List.forall₂_same.2 fun f _ => .refl f)

theorem extends_bindFree {p : Nat} (h : findVar v fs = .free) (hp : 0 < p) :
    List.Forall₂ Frame.Extends fs (bindFree v p fs) := by
  induction fs with
  | nil => cases h
  | cons f fs ih =>
    rw [findVar] at h
    split at h
    · cases h
    · rename_i hnone
      split at h
      · rename_i hkind
        rw [bindFree, if_neg (by simp [hkind])]
        exact .cons (.refl f) (ih h)
      · cases h
      · rename_i hkind
        rw [bindFree, if_pos hkind]
        exact .cons (.bind (fun _ => hnone) hp) (List.forall₂_same.2 fun f _ => .refl f)

namespace Quiet

theorem change {f : Program → Program}
    (hf : ∀ p, (f p).restrictions = p.restrictions ∧ (f p).inProgress = p.inProgress ∧
      (f p).frames = p.frames) : Quiet (Program.change f) :=
  Leads.change fun p => ⟨(hf p).1, (hf p).2.1, by
    rw [(hf p).2.2]
    exact List.forall₂_same.2 fun f _ => .refl f⟩

theorem temporaryName (hint : String) : Quiet (temporaryName hint) :=
  Along.bind (change fun _ => ⟨rfl, rfl, rfl⟩) fun _ => (Leads.ask _).bind fun _ => .pure _

theorem temporary (hint : String) : Quiet (temporary hint) := by
  rintro ⟨alphabet, program⟩
  simp only [endOf, Program.temporary, Program.temporaryName, Program.change, Program.ask,
    Bind.bind, EStateM.bind, Pure.pure, EStateM.pure, liftM, monadLift, MonadLift.monadLift,
    fresh_eq]
  have hreserved := reserved_temporaryNameOf hint (program.temporaries + 1)
  exact ⟨rfl, rfl, extends_bindInnermost (fun hown => hown hreserved) (Nat.succ_pos _)⟩

theorem propOf (v : String) : Quiet (propOf v) := by
  rintro ⟨alphabet, program⟩
  simp only [endOf, Program.propOf, Program.ask, Bind.bind, EStateM.bind]
  cases hfind : findVar v program.frames with
  | bound p => exact .refl program
  | unbound owner => exact .refl program
  | free =>
    simp only [liftM, monadLift, MonadLift.monadLift, EStateM.bind, fresh_eq, Program.change]
    exact ⟨rfl, rfl, extends_bindFree hfind (Nat.succ_pos _)⟩

/-- What was computed in a scope has left it open, so that leaving it is no error. -/
theorem withScope_eq (s : Scope) (hx : Quiet x) : withScope s x = (do
    Program.change fun p => { p with restrictions := p.restrictions.enter s }
    followedBy x (Program.change leaveScope)) := by
  funext w
  have hexit : ∀ {w'}, (w.under (w.program.restrictions.enter s)).program.Undisturbed w'.program →
      exitScope w' = Program.change leaveScope w' := by
    intro w' h
    have hr : w'.program.restrictions = w.program.restrictions.enter s := h.restrictions
    rw [exitScope_eq hr]
    simp only [Program.change, leaveScope, hr]
    rfl
  have hend := hx (w.under (w.program.restrictions.enter s))
  change followedBy x exitScope (w.under (w.program.restrictions.enter s)) =
    followedBy x (Program.change leaveScope) (w.under (w.program.restrictions.enter s))
  rw [followedBy, followedBy]
  rw [endOf] at hend
  cases hrun : x (w.under (w.program.restrictions.enter s)) with
  | ok r w' =>
    rw [hrun] at hend
    simp only [hexit hend]
  | error e w' =>
    rw [hrun] at hend
    simp only [hexit hend]

theorem withScope (s : Scope) (hx : Quiet x) : Quiet (withScope s x) := by
  rw [hx.withScope_eq]
  refine Leads.enclosed hx fun p q h => ⟨?_, h.inProgress, h.frames⟩
  have hr : q.restrictions = p.restrictions.enter s := h.restrictions
  simp only [leaveScope, hr]
  rfl

theorem withFrame (f : Frame) (hx : Quiet x) : Quiet (withFrame f x) := by
  refine Leads.enclosed hx fun p q h => ⟨h.restrictions, h.inProgress, ?_⟩
  have hframes := h.frames
  revert hframes
  generalize q.frames = fs
  intro hframes
  cases hframes with
  | cons _ hrest => exact hrest

end Quiet

theorem Stepwise.quiet (h : Stepwise x) : Quiet x := by
  induction h with
  | pure r => exact .pure r
  | throw f => exact .throw f
  | bind _ _ hx hg => exact Along.bind hx hg
  | reads _ _ hg => exact fun w => hg w.program w
  | alphabet _ => exact Leads.liftAlphabet _
  | temporaryName hint => exact .temporaryName hint
  | @temporary hint _ => exact .temporary hint
  | propOf v => exact .propOf v
  | remember key v => exact .change fun _ => ⟨rfl, rfl, rfl⟩
  | inScope s _ hx => exact .withScope s hx
  | inFrame f _ hx => exact .withFrame f hx
  | memoOf name _ h =>
    refine Leads.memoOf (fun p q => ⟨rfl, rfl, List.forall₂_same.2 fun f _ => .refl f⟩) ?_ h
    intro p q hq
    refine ⟨hq.restrictions, ?_, hq.frames⟩
    rw [hq.inProgress]
    rfl

theorem quiet_define (q : Predicate) : Quiet (define q) := by
  have hmemo : Quiet (tryCatch (discard (Engine.standard.memoOf q.name)) fun e => do
      change (·.removePredicate q.name)
      throw e) :=
    ((steady_standard.memoOf q.name).quiet.map _).tryCatch fun e =>
      Along.bind (Quiet.change fun _ => ⟨rfl, rfl, rfl⟩) fun _ => .throw e
  unfold define
  refine (Leads.liftError _).bind fun guards => ?_
  refine ((stepwise_inferred q.body).inScope guards).quiet.bind fun body => ?_
  exact (Leads.ask _).bind fun config =>
    Along.bind (Quiet.change fun _ => ⟨rfl, rfl, rfl⟩) fun _ => hmemo

/-- What a program can be asked for. -/
inductive Request where
  | infer (x : Expr)
  | truth (x : Expr)
  | witness (x : Expr)
  | define (q : Predicate)
  | call (name : String) (vars : List String)
  | automaton (name : String)
  | predicateTruth (name : String)
  | constant (d : Domain) (n : Nat)

/-- What is done for a request; the answer is not kept. -/
def Request.perform : Request → M Unit
  | .infer x => discard (inferred x)
  | .truth x => discard (truthOf x)
  | .witness x => discard (Program.witness x)
  | .define q => Program.define q
  | .call name vars => discard (callOn name vars)
  | .automaton name => discard (automatonOf name)
  | .predicateTruth name => discard (Program.predicateTruth name)
  | .constant d n => discard (constantOf d n)

theorem quiet_perform (r : Request) : Quiet r.perform := by
  cases r with
  | infer x => exact (stepwise_inferred x).quiet.map _
  | truth x => exact (stepwise_truthOf x).quiet.map _
  | witness x => exact (stepwise_witness x).quiet.map _
  | define q => exact quiet_define q
  | call name vars => exact (stepwise_callOn name vars).quiet.map _
  | automaton name => exact (stepwise_automatonOf name).quiet.map _
  | predicateTruth name => exact (stepwise_predicateTruth name).quiet.map _
  | constant d n => exact (stepwise_constantOf d n).quiet.map _

/-- In every state and however it ends, a request leaves the program undisturbed. -/
theorem undisturbed_perform (r : Request) (w : Workspace) :
    w.program.Undisturbed (endOf r.perform w).program :=
  quiet_perform r w

end Program

end RegularArithmetic
