import Mathlib.Data.List.Induction
import Mathlib.Data.List.Nodup
import Mathlib.Tactic.Common
import RegularArithmetic.Program.Basic

/-!
Restrictions after any steps. What is visible of a variable is each of its restrictions once, those
that hold everywhere first and then those of the scopes from the outermost inwards; a snapshot says
the same of every variable. A refused restriction changes nothing, and scopes that are entered and
left again leave no trace.
-/

set_option autoImplicit false

namespace RegularArithmetic

variable {v w : String} {cs ds : List Call}

theorem foldl_includeCall_eq_eraseDups (cs : List Call) :
    cs.foldl includeCall [] = cs.eraseDups := by
  induction cs using List.reverseRecOn with
  | nil => rfl
  | append_singleton cs c ih =>
    rw [List.foldl_append, List.foldl_cons, List.foldl_nil, ih, List.eraseDups_append, includeCall]
    by_cases hc : c ∈ cs
    · simp [List.removeAll, hc]
    · simp [List.removeAll, hc, List.eraseDups_cons]

theorem nodup_includeCall (h : cs.Nodup) (c : Call) : (includeCall cs c).Nodup := by
  unfold includeCall
  split
  · exact h
  · exact h.append (List.nodup_singleton c) (by simpa)

theorem nodup_eraseDups (cs : List Call) : cs.eraseDups.Nodup := by
  rw [← foldl_includeCall_eq_eraseDups]
  exact List.foldlRecOn cs includeCall List.nodup_nil fun _ h c _ => nodup_includeCall h c

theorem foldl_includeCall_of_subset (h : ds ⊆ cs) : ds.foldl includeCall cs = cs := by
  induction ds with
  | nil => rfl
  | cons d ds ih =>
    obtain ⟨hd, hds⟩ := List.cons_subset.1 h
    rw [List.foldl_cons, includeCall, if_pos hd, ih hds]

namespace Scope

variable {s t : Scope}

/-- Each variable has one entry. -/
def IsMap (s : Scope) : Prop := (s.map (·.1)).Nodup

theorem get_cons (v w : String) (cs : List Call) (s : Scope) :
    get ((w, cs) :: s) v = if v = w then cs else s.get v := by
  unfold get
  by_cases h : v = w
  · simp [h]
  · rw [if_neg h, List.lookup_cons, beq_false_of_ne h]

theorem get_update (f : List Call → List Call) (s : Scope) (u : String) :
    (s.update v f).get u = if u = v then f (s.get v) else s.get u := by
  induction s with
  | nil => exact get_cons u v (f []) []
  | cons e s ih =>
    obtain ⟨w, cs⟩ := e
    rw [update]
    by_cases hw : w = v
    · subst hw
      rw [if_pos rfl, get_cons, get_cons, if_pos rfl, get_cons]
      split <;> rfl
    · rw [if_neg hw]
      simp only [get_cons, ih]
      by_cases huw : u = w
      · subst huw
        simp [hw]
      · simp [huw, Ne.symm hw]

theorem get_eq_nil (h : v ∉ s.map (·.1)) : s.get v = [] := by
  induction s with
  | nil => rfl
  | cons e s ih =>
    obtain ⟨hv, hs⟩ := not_or.1 (mt List.mem_cons.2 h)
    rw [get_cons, if_neg hv, ih hs]

theorem mem_keys_update (f : List Call → List Call) :
    w ∈ (s.update v f).map (·.1) ↔ w = v ∨ w ∈ s.map (·.1) := by
  induction s with
  | nil => simp [update]
  | cons e s ih =>
    obtain ⟨u, cs⟩ := e
    rw [update]
    split
    · rename_i hu
      simp [hu]
    · rw [List.map_cons, List.mem_cons, ih, List.map_cons, List.mem_cons, or_left_comm]

theorem IsMap.update (h : s.IsMap) (v : String) (f : List Call → List Call) :
    (s.update v f).IsMap := by
  induction s with
  | nil => exact List.nodup_singleton v
  | cons e s ih =>
    obtain ⟨w, cs⟩ := e
    obtain ⟨hw, hs⟩ := List.nodup_cons.1 h
    rw [Scope.update]
    split
    · exact h
    · rename_i hne
      refine List.nodup_cons.2 ⟨fun hmem => ?_, ih hs⟩
      exact ((mem_keys_update f).1 hmem).elim hne hw

theorem IsMap.forget (h : s.IsMap) (v : String) : (s.forget v).IsMap :=
  h.sublist (List.filter_sublist.map _)

theorem get_join (ht : t.IsMap) (s : Scope) (v : String) :
    (s.join t).get v = (t.get v).foldl includeCall (s.get v) := by
  induction t generalizing s with
  | nil => rfl
  | cons e t ih =>
    obtain ⟨w, cs⟩ := e
    obtain ⟨hw, ht⟩ := List.nodup_cons.1 ht
    change ((s.addAll w cs).join t).get v = _
    rw [ih ht, addAll, get_update, get_cons]
    split
    · rename_i hvw
      subst hvw
      rw [get_eq_nil hw, List.foldl_nil]
    · rfl

end Scope

namespace Restrictions

/-- What can be done to restrictions. -/
inductive Step where
  | enter (s : Scope)
  | exit
  | restrict (v : String) (c : Call)
  | restrictEverywhere (v : String) (c : Call)
  | forget (v : String)
  | clear

/-- The restrictions after a step. A step that is an error or a fault leaves them as they are. -/
def after (r : Restrictions) : Step → Restrictions
  | .enter s => r.enter s
  | .exit => r.exit.toOption.getD r
  | .restrict v c => (r.restrict v c).toOption.getD r
  | .restrictEverywhere v c => (r.restrictEverywhere v c).toOption.getD r
  | .forget v => r.forget v
  | .clear => .none

/-- The restrictions after several steps. -/
def run (r : Restrictions) (l : List Step) : Restrictions := l.foldl after r

variable {r : Restrictions} {c : Call} {l : List Step}

def HasMaps (r : Restrictions) : Prop := r.everywhere.IsMap ∧ ∀ s ∈ r.scopes, s.IsMap

theorem restrict_eq_ok (h : c.isAbout v = true) : r.restrict v c = .ok (match r.scopes with
    | s :: scopes => { r with scopes := s.add v c :: scopes }
    | [] => { r with everywhere := r.everywhere.add v c }) := by
  rw [restrict, Call.requireAbout, if_pos h]
  cases r.scopes <;> rfl

theorem restrict_eq_error (h : ¬c.isAbout v = true) :
    r.restrict v c = .error (.malformedRestriction v c.text) := by
  rw [restrict, Call.requireAbout, if_neg h]
  rfl

theorem restrictEverywhere_eq_ok (h : c.isAbout v = true) :
    r.restrictEverywhere v c = .ok { r with everywhere := r.everywhere.add v c } := by
  rw [restrictEverywhere, Call.requireAbout, if_pos h]
  rfl

theorem restrictEverywhere_eq_error (h : ¬c.isAbout v = true) :
    r.restrictEverywhere v c = .error (.malformedRestriction v c.text) := by
  rw [restrictEverywhere, Call.requireAbout, if_neg h]
  rfl

/-- The one reason to refuse a restriction. -/
def Refusal (v : String) (c : Call) (e : Error) : Prop :=
  ¬c.isAbout v = true ∧ e = .malformedRestriction v c.text

theorem restrict_eq_error_iff {e : Error} : r.restrict v c = .error e ↔ Refusal v c e := by
  by_cases h : c.isAbout v = true
  · simp [restrict_eq_ok h, Refusal, h]
  · simp [restrict_eq_error h, Refusal, h, eq_comm]

theorem restrictEverywhere_eq_error_iff {e : Error} :
    r.restrictEverywhere v c = .error e ↔ Refusal v c e := by
  by_cases h : c.isAbout v = true
  · simp [restrictEverywhere_eq_ok h, Refusal, h]
  · simp [restrictEverywhere_eq_error h, Refusal, h, eq_comm]

/-- A step keeps one entry for each variable. -/
theorem HasMaps.after (h : r.HasMaps) {a : Step} (ha : ∀ s, a = .enter s → s.IsMap) :
    (r.after a).HasMaps := by
  obtain ⟨heverywhere, hscopes⟩ := h
  cases a with
  | enter s => exact ⟨heverywhere, List.forall_mem_cons.2 ⟨ha s rfl, hscopes⟩⟩
  | exit =>
    cases hr : r.scopes with
    | nil => simpa [Restrictions.after, exit, hr] using ⟨heverywhere, hscopes⟩
    | cons s scopes =>
      rw [hr] at hscopes
      simpa [Restrictions.after, exit, hr] using ⟨heverywhere, (List.forall_mem_cons.1 hscopes).2⟩
  | restrict v c =>
    rw [Restrictions.after]
    by_cases hc : c.isAbout v = true
    · rw [restrict_eq_ok hc]
      cases hr : r.scopes with
      | nil => exact ⟨heverywhere.update v _, nofun⟩
      | cons s scopes =>
        rw [hr, List.forall_mem_cons] at hscopes
        exact ⟨heverywhere, List.forall_mem_cons.2 ⟨hscopes.1.update v _, hscopes.2⟩⟩
    · rw [restrict_eq_error hc]
      exact ⟨heverywhere, hscopes⟩
  | restrictEverywhere v c =>
    rw [Restrictions.after]
    by_cases hc : c.isAbout v = true
    · rw [restrictEverywhere_eq_ok hc]
      exact ⟨heverywhere.update v _, hscopes⟩
    · rw [restrictEverywhere_eq_error hc]
      exact ⟨heverywhere, hscopes⟩
  | forget v =>
    exact ⟨heverywhere.forget v, List.forall_mem_map.2 fun s hs => (hscopes s hs).forget v⟩
  | clear => exact ⟨List.nodup_nil, nofun⟩

theorem HasMaps.run (h : r.HasMaps) (hl : ∀ s, .enter s ∈ l → s.IsMap) : (r.run l).HasMaps :=
  List.foldlRecOn l Restrictions.after h fun _ h _ ha => h.after fun s hs => hl s (hs ▸ ha)

theorem visible_eq_eraseDups (r : Restrictions) (v : String) : r.visible v =
    (r.everywhere.get v ++ r.scopes.reverse.flatMap (·.get v)).eraseDups :=
  foldl_includeCall_eq_eraseDups _

theorem visible_enter (r : Restrictions) (s : Scope) (v : String) :
    (r.enter s).visible v = (s.get v).foldl includeCall (r.visible v) := by
  have hlayers : (r.enter s).layers = r.layers ++ [s] := by simp [layers, enter]
  rw [visible, visible, hlayers, List.flatMap_append, List.foldl_append, List.flatMap_singleton]

theorem get_foldl_join {ss : List Scope} (h : ∀ s ∈ ss, s.IsMap) (acc : Scope) (v : String) :
    (ss.foldl Scope.join acc).get v =
      (ss.flatMap (·.get v)).foldl includeCall (acc.get v) := by
  induction ss generalizing acc with
  | nil => rfl
  | cons s ss ih =>
    obtain ⟨hs, hss⟩ := List.forall_mem_cons.1 h
    rw [List.foldl_cons, ih hss, Scope.get_join hs, List.flatMap_cons, List.foldl_append]

theorem get_snapshot (h : r.HasMaps) (v : String) : r.snapshot.get v = r.visible v := by
  have hlayers : ∀ s ∈ r.layers, s.IsMap :=
    List.forall_mem_cons.2 ⟨h.1, fun s hs => h.2 s (List.mem_reverse.1 hs)⟩
  exact get_foldl_join hlayers [] v

/-- So many scopes that the steps entered are open; the steps leave all of them, enter and leave
others, and restrict variables inside of these only. -/
inductive Balanced : Nat → List Step → Prop
  | nil : Balanced 0 []
  | enter {n : Nat} {l : List Step} (s : Scope) : Balanced (n + 1) l → Balanced n (.enter s :: l)
  | exit {n : Nat} {l : List Step} : Balanced n l → Balanced (n + 1) (.exit :: l)
  | restrict {n : Nat} {l : List Step} (v : String) (c : Call) :
    Balanced (n + 1) l → Balanced (n + 1) (.restrict v c :: l)

theorem run_of_balanced {n : Nat} (h : Balanced n l) : ∀ opened : List Scope,
    opened.length = n → run ⟨r.everywhere, opened ++ r.scopes⟩ l = r := by
  induction h with
  | nil =>
    intro opened hopened
    rw [List.length_eq_zero_iff.1 hopened]
    rfl
  | enter s _ ih => exact fun opened hopened => ih (s :: opened) (congrArg (· + 1) hopened)
  | exit _ ih =>
    intro opened hopened
    obtain ⟨s, opened, rfl⟩ := List.exists_cons_of_length_eq_add_one hopened
    exact ih opened (Nat.succ.inj hopened)
  | restrict v c _ ih =>
    intro opened hopened
    obtain ⟨s, opened, rfl⟩ := List.exists_cons_of_length_eq_add_one hopened
    by_cases hc : c.isAbout v = true
    · rw [run, List.foldl_cons, after, restrict_eq_ok hc]
      exact ih (s.add v c :: opened) hopened
    · rw [run, List.foldl_cons, after, restrict_eq_error hc]
      exact ih (s :: opened) hopened

end Restrictions

theorem Program.restrictBy_eq_error_iff {f : Restrictions → Except Error Restrictions}
    {e : Failure} {w w' : Workspace} : restrictBy f w = .error e w' ↔
      ∃ e', f w.program.restrictions = .error e' ∧ e = .error e' ∧ w' = w := by
  simp only [restrictBy, ask, bind, EStateM.bind]
  cases f w.program.restrictions with
  | ok r =>
    refine iff_of_false nofun ?_
    rintro ⟨e', h, -⟩
    cases h
  | error e' =>
    constructor
    · rintro ⟨⟩
      exact ⟨e', rfl, rfl, rfl⟩
    · rintro ⟨_, ⟨⟩, rfl, rfl⟩
      rfl

namespace Restrictions

/-- The restrictions that any steps lead to. Of each variable those are visible that hold
everywhere and then those of the scopes from the outermost inwards, each where it comes first and
only once. A snapshot has the same for it, so that entering a scope with the snapshot changes
nothing that is visible. A restriction is refused only if its call is not about the variable, and
then it changes nothing. Steps that leave the scopes they enter, and restrict variables inside of
these, lead back to the same restrictions. -/
theorem visible_of_run {r : Restrictions} {l : List Step} (hl : ∀ s, .enter s ∈ l → s.IsMap)
    (hr : Restrictions.none.run l = r) (v : String) :
    (r.visible v).Nodup ∧
    r.visible v = (r.everywhere.get v ++ r.scopes.reverse.flatMap (·.get v)).eraseDups ∧
    r.snapshot.get v = r.visible v ∧
    (r.enter r.snapshot).visible v = r.visible v ∧
    (∀ (c : Call) (w w' : Workspace) (e : Failure), w.program.restrictions = r →
      (Program.restrictBy (·.restrict v c) w = .error e w' ↔
        ∃ e', Refusal v c e' ∧ e = .error e' ∧ w' = w) ∧
      (Program.restrictBy (·.restrictEverywhere v c) w = .error e w' ↔
        ∃ e', Refusal v c e' ∧ e = .error e' ∧ w' = w)) ∧
    ∀ block, Balanced 0 block → r.run block = r := by
  have hmaps : r.HasMaps := hr ▸ HasMaps.run ⟨List.nodup_nil, nofun⟩ hl
  have hvisible := visible_eq_eraseDups r v
  refine ⟨hvisible ▸ nodup_eraseDups _, hvisible, get_snapshot hmaps v, ?_, ?_, ?_⟩
  · rw [visible_enter, get_snapshot hmaps, foldl_includeCall_of_subset (List.Subset.refl _)]
  · intro c w w' e _
    simp only [Program.restrictBy_eq_error_iff, restrict_eq_error_iff,
      restrictEverywhere_eq_error_iff, and_self]
  · exact fun block hblock => run_of_balanced hblock [] rfl

def callOn (name v : String) : Call := ⟨name, [.var v]⟩

/-- A restriction that holds everywhere, a scope that has one more for the variable and one for
another, the first one again, and one that is refused. -/
def nestedSteps : List Step :=
  [.restrictEverywhere "x" (callOn "nat" "x"),
    .enter [("x", [callOn "even" "x"]), ("y", [callOn "nat" "y"])],
    .restrict "x" (callOn "nat" "x"), .restrict "x" (callOn "nat" "y")]

/-- Two restrictions of `x` are visible, in this order. Inside the scope another scope is entered
and left again. -/
theorem visible_of_run_nestedSteps :
    (∀ s, .enter s ∈ nestedSteps → s.IsMap) ∧
    ∃ r, Restrictions.none.run nestedSteps = r ∧
      r.visible "x" = [callOn "nat" "x", callOn "even" "x"] ∧
      r.snapshot.get "x" = r.visible "x" ∧ (r.enter r.snapshot).visible "x" = r.visible "x" ∧
      r.run [.enter [], .restrict "x" (callOn "odd" "x"), .exit] = r := by
  have hmaps : ∀ s, .enter s ∈ nestedSteps → s.IsMap := by
    intro s hs
    simp only [nestedSteps, List.mem_cons, Step.enter.injEq, reduceCtorEq, List.not_mem_nil,
      false_or, or_false] at hs
    rw [hs, Scope.IsMap]
    decide
  obtain ⟨-, -, hsnapshot, hseeded, -, hblock⟩ := visible_of_run hmaps rfl "x"
  exact ⟨hmaps, _, rfl, by decide +kernel, hsnapshot, hseeded,
    hblock _ (.enter [] (.restrict _ _ (.exit .nil)))⟩

end Restrictions

end RegularArithmetic
