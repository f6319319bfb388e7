import RegularArithmetic.Proofs.Program.Prelude
import RegularArithmetic.Session.Run

/-!
Sessions that define predicates by plain bodies and ask whether plain formulas hold; nothing is
restricted or declared in them. Their answers are true of the natural numbers.
-/

set_option autoImplicit false

namespace RegularArithmetic

namespace Session

open Workspace (aliases aliases_cases idle_blank exists_installBinary_eq_ok)

/-- The names that evaluation finds the relations of base 2 under, and those it is led to. -/
def fixedNames : List String := ["adder", "equal", "less", "bin_add", "bin_equal", "bin_less"]

/-- A predicate is defined, or it is asked whether a formula holds. -/
inductive Request where
  | define (name : String) (args : List String) (body : Expr)
  | ask (x : Expr)

/-- The request is about a plain formula. A body calls only what is defined, so the predicate itself
only where that is noticed as an error. -/
def Request.IsPlain (config : Config) : Request → Prop
  | define name args body => name ∉ fixedNames ∧ args.Nodup ∧ (∀ v ∈ args, IsOwn v) ∧
      body.IsPlain {none} {other | config.detectCycles = true ∨ other ≠ name}
  | ask x => x.IsPlain {none} Set.univ

/-- From a state on in which the names say what `Γ` does, all answers are true: `always` is answered
if all numbers for its variables satisfy a formula, `never` if none do, and `sometimes` otherwise. A
name that is defined says what the body does in the program as it is by then. Requests that fail get
no answer, and the names say what they did. -/
def Truthful : Relations → List Request → Workspace → Prop
  | _, [], _ => True
  | Γ, .define name args body :: rs, w =>
    match Program.define (.ofBody name args [] body) w with
    | .ok _ w' => Truthful (Γ.define name (DefinedBy args (body.Satisfied Γ))) rs w'
    | .error _ w' => Truthful Γ rs w'
  | Γ, .ask x :: rs, w =>
    match Program.truthOf x w with
    | .ok t w' =>
      ((t = .always ↔ ∀ τ, x.Satisfied Γ τ) ∧ (t = .never ↔ ∀ τ, ¬x.Satisfied Γ τ) ∧
        (t = .sometimes ↔ (∃ τ, x.Satisfied Γ τ) ∧ ∃ τ, ¬x.Satisfied Γ τ)) ∧ Truthful Γ rs w'
    | .error _ w' => Truthful Γ rs w'

variable {Γ : Relations} {w w' : Workspace} {config : Config}

theorem workspace_of_lift {α : Type} {x : Program.M α} {r : α} {s s' : Session}
    (h : (liftM x : M α) s = .ok r s') : x s.workspace = .ok r s'.workspace := by
  simp only [liftM, monadLift, MonadLift.monadLift] at h
  split at h
  · rename_i w hx
    cases h
    exact hx
  · cases h

theorem lift_eq_ok {α : Type} {x : Program.M α} {r : α} {s : Session}
    (h : x s.workspace = .ok r w) : (liftM x : M α) s = .ok r ⟨w, s.report, s.files⟩ := by
  obtain ⟨workspace, report, files⟩ := s
  simp only [liftM, monadLift, MonadLift.monadLift, h]

theorem exists_start_of_any {p : Session → Bool} (h : (start config).toOption.any p = true) :
    ∃ s, start config = .ok s ∧ p s = true := by
  cases hstart : start config with
  | error e =>
    rw [hstart] at h
    cases h
  | ok s =>
    rw [hstart] at h
    exact ⟨s, rfl, h⟩

theorem start_eq_ok {alphabet : Alphabet} (halphabet : Alphabet.empty? config.bits = .ok alphabet)
    (hinstall : Program.installBinary ⟨{ alphabet with budget := config.budget }, .blank config⟩ =
      .ok () w) : start config = .ok ⟨w, .empty, .empty⟩ := by
  have hlift := lift_eq_ok (s := blank config alphabet .empty) hinstall
  unfold start
  rw [halphabet]
  dsimp only
  rw [hlift]
  rfl

theorem exists_start : ∃ s, start ⟨6, none, true, true⟩ = .ok s := by
  obtain ⟨alphabet, w, halphabet, hinstall⟩ := exists_installBinary_eq_ok
  exact ⟨_, start_eq_ok halphabet hinstall⟩

theorem idle_start {s : Session} (h : start config = .ok s) :
    s.workspace.Idle .binary aliases config := by
  unfold start at h
  split at h
  · cases h
  · rename_i alphabet halphabet
    have hsound := Alphabet.sound_of_empty? halphabet
    split at h
    · rename_i s' hinstall
      cases h
      have hblank : (blank config alphabet .empty).workspace.Idle .binary ∅ config :=
        idle_blank config hsound
      exact hblank.installBinary (workspace_of_lift hinstall)
    · cases h

theorem direct_of_aliases {p : Program} (h : p.context = aliases) {name : String}
    (hname : name ∉ fixedNames) : p.Direct name where
  target other hother := by
    rw [h] at hother
    obtain ⟨-, rfl⟩ | ⟨-, rfl⟩ | ⟨-, rfl⟩ := aliases_cases hother <;> exact hname (by decide)
  source := by
    rw [h, Option.eq_none_iff_forall_ne_some]
    intro target htarget
    obtain ⟨rfl, -⟩ | ⟨rfl, -⟩ | ⟨rfl, -⟩ := aliases_cases htarget <;> exact hname (by decide)

theorem idle_define (h : w.Idle Γ aliases config) {name : String} {args : List String} {body : Expr}
    (hr : (Request.define name args body).IsPlain config) :
    (∀ w', Program.define (.ofBody name args [] body) w = .ok () w' →
      w'.Idle (Γ.define name (DefinedBy args (body.Satisfied Γ))) aliases config) ∧
    ∀ e w', Program.define (.ofBody name args [] body) w = .error e w' →
      w'.Idle Γ aliases config := by
  obtain ⟨hname, hnodup, hown, hbody⟩ := hr
  have hfixed : name ∉ ["adder", "equal", "less"] := fun hmem =>
    hname (List.mem_append_left _ hmem)
  have hcallable : body.IsPlain {none} (w.callable name) := by rwa [Workspace.callable, h.config]
  obtain ⟨hok, herror⟩ := h.atRest.define_plain (direct_of_aliases h.context hname) hfixed hnodup
    hown hcallable
  refine ⟨fun w' hrun => ?_, fun e w' hrun => ?_⟩
  · obtain ⟨hrest, hkeeps⟩ := hok w' hrun
    exact h.keeps hrest hkeeps
  · obtain ⟨hrest, hkeeps⟩ := herror e w' hrun
    exact h.keeps hrest hkeeps

theorem truthful_of_idle : ∀ {rs : List Request} {Γ : Relations} {w : Workspace},
    w.Idle Γ aliases config → (∀ r ∈ rs, r.IsPlain config) → Truthful Γ rs w
  | [], _, _, _, _ => trivial
  | .define name args body :: rs, Γ, w, h, hrs => by
    obtain ⟨hr, hrs⟩ := List.forall_mem_cons.1 hrs
    obtain ⟨hok, herror⟩ := idle_define h hr
    rw [Truthful]
    split
    · rename_i w' hrun
      exact truthful_of_idle (hok w' hrun) hrs
    · rename_i e w' hrun
      exact truthful_of_idle (herror e w' hrun) hrs
  | .ask x :: rs, Γ, w, h, hrs => by
    obtain ⟨hx, hrs⟩ := List.forall_mem_cons.1 hrs
    have hyields := h.atRest.yields_truthOf hx
    rw [Truthful]
    split
    · rename_i t w' hrun
      obtain ⟨hle, hverdict⟩ := hyields.of_ok hrun
      exact ⟨hverdict.iff, truthful_of_idle (h.mono hle) hrs⟩
    · rename_i e w' hrun
      exact truthful_of_idle (h.mono (hyields.of_error hrun)) hrs

/-- All answers in a plain session are true. -/
theorem truthful_start (config : Config) {rs : List Request} (h : ∀ r ∈ rs, r.IsPlain config) :
    match start config with
    | .ok s => Truthful .binary rs s.workspace
    | .error _ => True := by
  split
  · rename_i s hs
    exact truthful_of_idle (idle_start hs) h
  · trivial

def twiceSome : Expr :=
  .forSome "y" none (.equal (.var "x") (Form.arith .add (.var "y") (.var "y")).plain)

/-- The variable `x` is even. -/
def isEven : Expr := (Form.call ⟨"even", [.var "x"]⟩).plain

/-- Even numbers are defined, and it is asked about them. -/
def askEven : List Request := [.define "even" ["x"] twiceSome, .ask isEven]

theorem truthful_start_askEven : (∀ r ∈ askEven, r.IsPlain ⟨2, none, true, true⟩) ∧
    match start ⟨2, none, true, true⟩ with
    | .ok s => Truthful .binary askEven s.workspace
    | .error _ => True := by
  have hx : IsOwn "x" := by decide
  have hy : IsOwn "y" := by decide
  have hdefine : (Request.define "even" ["x"] twiceSome).IsPlain ⟨2, none, true, true⟩ :=
    ⟨by decide, by decide, by decide, rfl, hy, rfl, rfl, rfl, ⟨rfl, hx⟩, rfl, ⟨rfl, rfl, hy⟩,
      rfl, rfl, hy⟩
  have hask : (Request.ask isEven).IsPlain ⟨2, none, true, true⟩ :=
    ⟨rfl, trivial, ⟨rfl, rfl, hx⟩, trivial⟩
  have h : ∀ r ∈ askEven, r.IsPlain ⟨2, none, true, true⟩ :=
    List.forall_mem_cons.2 ⟨hdefine, List.forall_mem_singleton.2 hask⟩
  exact ⟨h, truthful_start _ h⟩

-- This session starts, defines the predicate and answers.
example :
    (match start ⟨2, none, true, true⟩ with
    | .error _ => none
    | .ok s =>
      match Program.define (.ofBody "even" ["x"] [] twiceSome) s.workspace with
      | .error _ _ => none
      | .ok _ w =>
        match Program.truthOf isEven w with
        | .error _ _ => none
        | .ok t _ => some t) = some Truth.sometimes := by
  decide +kernel

end Session

end RegularArithmetic
