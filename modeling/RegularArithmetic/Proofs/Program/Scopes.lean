import RegularArithmetic.Program.Engine
import RegularArithmetic.Proofs.Program.State

/-!
Computing inside a scope or a frame. Outside, the state afterwards is a later one of the state
before; the scope is left and the frame dropped, also after a failure.
-/

set_option autoImplicit false

namespace RegularArithmetic

namespace Workspace

variable {I : Interpretation} {w w' : Workspace}

/-- The same state under other restrictions. -/
def under (w : Workspace) (r : Restrictions) : Workspace :=
  ⟨w.alphabet, { w.program with restrictions := r }⟩

/-- The same state with other frames. -/
def framing (w : Workspace) (fs : List Frame) : Workspace :=
  ⟨w.alphabet, { w.program with frames := fs }⟩

theorem Right.under (h : w.Right I) (r : Restrictions) : (w.under r).Right I :=
  ⟨h.sound, h.declarations, h.names, h.relations, h.settled, h.constants, h.temporary, h.known⟩

theorem Right.framing (h : w.Right I) (fs : List Frame) : (w.framing fs).Right I :=
  ⟨h.sound, h.declarations, h.names, h.relations, h.settled, h.constants, h.temporary, h.known⟩

theorem le_of_under {r : Restrictions} (h : w.under r ≤ w') :
    w ≤ w'.under w.program.restrictions where
  alphabet := h.alphabet
  temporaries := h.temporaries
  config := h.config
  predicates := h.predicates
  context := h.context
  declarations := h.declarations
  restrictions := rfl
  inProgress := h.inProgress
  frames := h.frames
  right I hI := Right.under (h.right I (hI.under r)) _

theorem le_of_framing {f : Frame} (h : w.framing (f :: w.program.frames) ≤ w') :
    w ≤ w'.framing (w'.program.frames.drop 1) where
  alphabet := h.alphabet
  temporaries := h.temporaries
  config := h.config
  predicates := h.predicates
  context := h.context
  declarations := h.declarations
  restrictions := h.restrictions
  inProgress := h.inProgress
  frames := by
    have hframes := h.frames
    revert hframes
    generalize hfs : w'.program.frames = fs
    intro hframes
    cases hframes with
    | cons _ hrest => simpa [Workspace.framing, hfs] using hrest
  right I hI := Right.framing (h.right I (hI.framing _)) _

end Workspace

namespace Program

variable {α : Type} {w : Workspace} {x : M α} {P : α → Workspace → Prop}

theorem exitScope_eq {r : Restrictions} {s : Scope} (h : w.program.restrictions = r.enter s) :
    exitScope w = .ok () (w.under r) := by
  simp only [exitScope, ask, change, bind, EStateM.bind, h]
  rfl

theorem yields_withScope {s : Scope}
    (h : Yields x (w.under (w.program.restrictions.enter s)) P) :
    Yields (withScope s x) w fun r w'' => ∃ w', w.under (w.program.restrictions.enter s) ≤ w' ∧
      P r w' ∧ w'' = w'.under w.program.restrictions := by
  have hrun : withScope s x w = followedBy x exitScope (w.under (w.program.restrictions.enter s)) :=
    rfl
  have hexit : ∀ {w'}, w.under (w.program.restrictions.enter s) ≤ w' →
      exitScope w' = .ok () (w'.under w.program.restrictions) := fun hle =>
    exitScope_eq hle.restrictions
  rw [Yields, hrun, followedBy]
  cases hx : x (w.under (w.program.restrictions.enter s)) with
  | ok r w' =>
    obtain ⟨hle, hP⟩ := h.of_ok hx
    simp only [hexit hle]
    exact ⟨Workspace.le_of_under hle, w', hle, hP, rfl⟩
  | error e w' =>
    have hle := h.of_error hx
    simp only [hexit hle]
    exact Workspace.le_of_under hle

theorem withFrame_eq_ok_iff {f : Frame} {r : α} {w' : Workspace} :
    withFrame f x w = .ok r w' ↔ ∃ w₁, x (w.framing (f :: w.program.frames)) = .ok r w₁ ∧
      w' = w₁.framing (w₁.program.frames.drop 1) := by
  have hrun : withFrame f x w = followedBy x
      (change fun p => { p with frames := p.frames.drop 1 }) (w.framing (f :: w.program.frames)) :=
    rfl
  rw [hrun, followedBy]
  cases hx : x (w.framing (f :: w.program.frames)) with
  | ok a w₁ =>
    constructor
    · rintro ⟨⟩
      exact ⟨w₁, rfl, rfl⟩
    · rintro ⟨w₂, ⟨⟩, rfl⟩
      rfl
  | error e w₁ =>
    constructor
    · rintro ⟨⟩
    · rintro ⟨w₂, ⟨⟩, -⟩

theorem yields_withFrame {f : Frame}
    (h : Yields x (w.framing (f :: w.program.frames)) P) :
    Yields (withFrame f x) w fun r w'' => ∃ w', w.framing (f :: w.program.frames) ≤ w' ∧
      P r w' ∧ w'' = w'.framing (w'.program.frames.drop 1) := by
  have hrun : withFrame f x w = followedBy x
      (change fun p => { p with frames := p.frames.drop 1 }) (w.framing (f :: w.program.frames)) :=
    rfl
  rw [Yields, hrun, followedBy]
  cases hx : x (w.framing (f :: w.program.frames)) with
  | ok r w' =>
    obtain ⟨hle, hP⟩ := h.of_ok hx
    exact ⟨Workspace.le_of_framing hle, w', hle, hP, rfl⟩
  | error e w' => exact Workspace.le_of_framing (h.of_error hx)

/-- The scope of a quantifier, which holds its guard. -/
def guardScopeOf (v : String) : Option Call → Scope
  | none => []
  | some c => [(v, [c])]

/-- A guard that is about its variable is the only restriction of a new scope; another one is an
error. -/
theorem withScope_restrictBy (v : String) (g : Option Call) (x : M α) :
    (withScope [] do
      if let some c := g then restrictBy (·.restrict v c)
      x) = if ∀ c ∈ g, c.isAbout v then withScope (guardScopeOf v g) x
        else throw (.error (.malformedRestriction v ((g.map Call.text).getD ""))) := by
  cases g with
  | none => simp [guardScopeOf]
  | some c =>
    have hrestrict : ∀ r : Restrictions, (r.enter []).restrict v c =
        if c.isAbout v then .ok (r.enter [(v, [c])])
        else .error (.malformedRestriction v c.text) := by
      intro r
      by_cases hc : c.isAbout v
      · simp [Restrictions.restrict, Restrictions.enter, Call.requireAbout, hc, bind, Except.bind,
          pure, Except.pure, Scope.add, Scope.update, includeCall]
      · simp [Restrictions.restrict, Call.requireAbout, hc, bind, Except.bind]
    funext w
    have hrun : ∀ s (y : M α), withScope s y w =
        followedBy y exitScope (w.under (w.program.restrictions.enter s)) := fun _ _ => rfl
    have hask : (w.under (w.program.restrictions.enter [])).program.restrictions =
        w.program.restrictions.enter [] := rfl
    by_cases hc : c.isAbout v
    · rw [if_pos (by simpa using hc), hrun, hrun]
      simp only [followedBy, restrictBy, bind, EStateM.bind, ask, hask, hrestrict, if_pos hc, liftM,
        monadLift, MonadLift.monadLift, pure, EStateM.pure, change]
      rfl
    · rw [if_neg (by simpa using hc), hrun]
      simp only [followedBy, restrictBy, bind, EStateM.bind, ask, hask, hrestrict, if_neg hc, liftM,
        monadLift, MonadLift.monadLift, throw, throwThe, MonadExceptOf.throw]
      rfl

theorem yields_withScope_restrictBy {v : String} {g : Option Call}
    (h : Yields (withScope (guardScopeOf v g) x) w P) :
    Yields (withScope [] do
      if let some c := g then restrictBy (·.restrict v c)
      x) w P := by
  rw [withScope_restrictBy]
  exact .ite (fun _ => h) fun _ => .throw

theorem mem_foldl_includeCall {cs acc : List Call} {c : Call} :
    c ∈ cs.foldl includeCall acc ↔ c ∈ acc ∨ c ∈ cs := by
  induction cs generalizing acc with
  | nil => simp
  | cons d cs ih =>
    have hinclude : c ∈ includeCall acc d ↔ c ∈ acc ∨ c = d := by
      unfold includeCall
      split
      · exact ⟨.inl, fun h => h.elim id fun h => h ▸ ‹_›⟩
      · simp
    rw [List.foldl_cons, ih, hinclude, List.mem_cons, or_assoc]

theorem mem_visible {r : Restrictions} {v : String} {c : Call} :
    c ∈ r.visible v ↔ ∃ s ∈ r.layers, c ∈ s.get v := by
  simp [Restrictions.visible, mem_foldl_includeCall]

theorem mem_visible_enter {r : Restrictions} {v u : String} {g : Option Call} {c : Call} :
    c ∈ (r.enter (guardScopeOf v g)).visible u ↔ c ∈ r.visible u ∨ u = v ∧ c ∈ g := by
  have hget : c ∈ (guardScopeOf v g).get u ↔ u = v ∧ c ∈ g := by
    cases g with
    | none => simp [guardScopeOf, Scope.get]
    | some d =>
      by_cases huv : u = v
      · simp [guardScopeOf, Scope.get, huv, eq_comm]
      · simp [guardScopeOf, Scope.get, List.lookup_cons, beq_false_of_ne huv, huv]
  rw [mem_visible, mem_visible, ← hget]
  simp only [Restrictions.layers, Restrictions.enter, List.reverse_cons, List.mem_cons,
    List.mem_append, List.not_mem_nil, or_false]
  constructor
  · rintro ⟨s, (rfl | hs | rfl), hc⟩
    · exact .inl ⟨_, .inl rfl, hc⟩
    · exact .inl ⟨s, .inr hs, hc⟩
    · exact .inr hc
  · rintro (⟨s, (rfl | hs), hc⟩ | hc)
    · exact ⟨_, .inl rfl, hc⟩
    · exact ⟨s, .inr (.inl hs), hc⟩
    · exact ⟨_, .inr (.inr rfl), hc⟩

theorem bounds_enter (I : Interpretation) (r : Restrictions) (v : String) (g : Option Call) :
    (r.enter (guardScopeOf v g)).bounds I = (r.bounds I).restrict v (GuardHolds I g) := by
  funext u n τ
  simp only [Restrictions.bounds, Bounds.restrict, mem_visible_enter, GuardHolds, eq_iff_iff]
  constructor
  · exact fun h => ⟨fun c hc => h c (.inl hc), fun huv c hc => h c (.inr ⟨huv, hc⟩)⟩
  · rintro ⟨hold, hnew⟩ c (hc | ⟨huv, hc⟩)
    · exact hold c hc
    · exact hnew huv c hc

end Program

end RegularArithmetic
