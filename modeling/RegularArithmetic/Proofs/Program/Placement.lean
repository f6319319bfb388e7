import RegularArithmetic.Proofs.Program.Arithmetic
import RegularArithmetic.Proofs.Program.Undisturbed

/-!
The variable of a value. Evaluation binds new temporary variables and free ones, and leaves all
others where they are; so the variable that was made for a value still has its proposition when the
value is there.
-/

set_option autoImplicit false

namespace RegularArithmetic

/-- The frame later on. A variable has the proposition that it had, unless it was free, or is a
temporary one made after number `k`. -/
structure Frame.Fixes (k : Nat) (f f' : Frame) : Prop where
  kind : f'.kind = f.kind
  lookup : ∀ v, ¬IsFuture k v → (f.kind = .free → f.vars.lookup v ≠ none) →
    f'.vars.lookup v = f.vars.lookup v

namespace Frame.Fixes

variable {k k' : Nat} {f g h : Frame}

theorem refl (k : Nat) (f : Frame) : f.Fixes k f := ⟨rfl, fun _ _ _ => rfl⟩

theorem trans (hk : k ≤ k') (hfg : f.Fixes k g) (hgh : g.Fixes k' h) : f.Fixes k h where
  kind := hgh.kind.trans hfg.kind
  lookup v hv hfree := by
    have hsame := hfg.lookup v hv hfree
    rw [← hsame]
    refine hgh.lookup v (fun hfuture => hv (hfuture.mono hk)) fun hkind => ?_
    rw [hsame]
    exact hfree (hfg.kind ▸ hkind)

/-- A variable may be bound if it is a temporary one, or was free. -/
theorem bind {v : String} {p : Nat} (hv : IsFuture k v ∨ f.kind = .free ∧ f.vars.lookup v = none) :
    f.Fixes k { f with vars := (v, p) :: f.vars } where
  kind := rfl
  lookup u hu hfree := by
    rw [List.lookup_cons]
    cases huv : u == v with
    | false => rfl
    | true =>
      obtain rfl := eq_of_beq huv
      rcases hv with hfuture | ⟨hkind, hnone⟩
      · exact absurd hfuture hu
      · exact absurd hnone (hfree hkind)

end Frame.Fixes

namespace Program

/-- The program later on: variables that are bound stay bound. -/
structure Fixes (p p' : Program) : Prop where
  temporaries : p.temporaries ≤ p'.temporaries
  frames : List.Forall₂ (Frame.Fixes p.temporaries) p.frames p'.frames

theorem forall₂_fixes_refl (k : Nat) (fs : List Frame) : List.Forall₂ (Frame.Fixes k) fs fs :=
  List.forall₂_same.2 fun f _ => .refl k f

instance : IsPreorder Program Fixes where
  refl _ := ⟨le_rfl, forall₂_fixes_refl _ _⟩
  trans _ _ _ h h' := ⟨h.temporaries.trans h'.temporaries, Workspace.forall₂_trans
    (fun _ _ _ hfg hgh => hfg.trans h.temporaries hgh) h.frames h'.frames⟩

variable {α : Type} {x : M α} {p p' : Program} {fs fs' : List Frame} {v : String} {n k : Nat}

theorem findVar_of_fixes (h : List.Forall₂ (Frame.Fixes k) fs fs') (hv : ¬IsFuture k v)
    (hbound : findVar v fs = .bound n) : findVar v fs' = .bound n := by
  induction h with
  | nil => exact hbound
  | @cons f f' fs fs' hf _ ih =>
    rw [findVar] at hbound ⊢
    cases hlookup : f.vars.lookup v with
    | some q =>
      rw [hf.lookup v hv (by simp [hlookup]), hlookup]
      rwa [hlookup] at hbound
    | none =>
      rw [hlookup] at hbound
      cases hkind : f.kind with
      | transparent =>
        rw [hf.lookup v hv (by simp [hkind]), hlookup, hf.kind, hkind]
        rw [hkind] at hbound
        exact ih hbound
      | free => simp [hkind] at hbound
      | sealed => simp [hkind] at hbound

namespace Fixes

theorem of_eq (htemporaries : p'.temporaries = p.temporaries) (hframes : p'.frames = p.frames) :
    Fixes p p' := ⟨htemporaries.ge, hframes ▸ forall₂_fixes_refl _ _⟩

theorem change {f : Program → Program}
    (hf : ∀ p, (f p).temporaries = p.temporaries ∧ (f p).frames = p.frames) :
    Leads Fixes (Program.change f) :=
  Leads.change fun p => of_eq (hf p).1 (hf p).2

theorem temporaryName (hint : String) : Leads Fixes (temporaryName hint) :=
  Along.bind (Leads.change fun _ => ⟨Nat.le_succ _, forall₂_fixes_refl _ _⟩) fun _ =>
    (Leads.ask _).bind fun _ => .pure _

theorem bindInnermost (hv : IsFuture k v) :
    List.Forall₂ (Frame.Fixes k) fs (bindInnermost v n fs) := by
  cases fs with
  | nil => exact .nil
  | cons f fs => exact .cons (.bind (.inl hv)) (forall₂_fixes_refl _ _)

theorem bindFree (h : findVar v fs = .free) :
    List.Forall₂ (Frame.Fixes k) fs (bindFree v n fs) := by
  induction fs with
  | nil => cases h
  | cons f fs ih =>
    rw [findVar] at h
    split at h
    · cases h
    · rename_i hnone
      split at h
      · rename_i hkind
        rw [Program.bindFree, if_neg (by simp [hkind])]
        exact .cons (.refl k f) (ih h)
      · cases h
      · rename_i hkind
        rw [Program.bindFree, if_pos hkind]
        exact .cons (.bind (.inr ⟨hkind, hnone⟩)) (forall₂_fixes_refl _ _)

theorem temporary {hint : String} (hhint : hint ∈ hints) : Leads Fixes (temporary hint) := by
  rintro ⟨alphabet, program⟩
  simp only [endOf, Program.temporary, Program.temporaryName, Program.change, Program.ask,
    Bind.bind, EStateM.bind, Pure.pure, EStateM.pure, liftM, monadLift, MonadLift.monadLift,
    fresh_eq]
  have hfuture : IsFuture program.temporaries
      (temporaryNameOf hint (program.temporaries + 1)) := by
    rw [isFuture_temporaryNameOf hhint]
    exact Nat.lt_succ_self _
  exact ⟨Nat.le_succ _, bindInnermost hfuture⟩

theorem propOf (v : String) : Leads Fixes (propOf v) := by
  rintro ⟨alphabet, program⟩
  simp only [endOf, Program.propOf, Program.ask, Bind.bind, EStateM.bind]
  cases hfind : findVar v program.frames with
  | bound p => exact of_eq rfl rfl
  | unbound owner => exact of_eq rfl rfl
  | free =>
    simp only [liftM, monadLift, MonadLift.monadLift, EStateM.bind, fresh_eq, Program.change]
    exact ⟨le_rfl, bindFree hfind⟩

theorem withFrame (f : Frame) (hx : Leads Fixes x) : Leads Fixes (withFrame f x) := by
  refine Leads.enclosed hx fun p q h => ⟨h.temporaries, ?_⟩
  have hframes := h.frames
  revert hframes
  generalize q.frames = fs
  intro hframes
  cases hframes with
  | cons _ hrest => exact hrest

end Fixes

theorem Stepwise.fixes (h : Stepwise x) : Leads Fixes x := by
  induction h with
  | pure r => exact .pure r
  | throw f => exact .throw f
  | bind _ _ hx hg => exact Along.bind hx hg
  | reads _ _ hg => exact fun w => hg w.program w
  | alphabet _ => exact Leads.liftAlphabet _
  | temporaryName hint => exact .temporaryName hint
  | temporary hhint => exact .temporary hhint
  | propOf v => exact .propOf v
  | remember key v => exact Fixes.change fun _ => ⟨rfl, rfl⟩
  | inScope s hx ih =>
    rw [hx.quiet.withScope_eq]
    exact Leads.enclosed ih fun p q h => ⟨h.temporaries, h.frames⟩
  | inFrame f _ ih => exact .withFrame f ih
  | memoOf name _ ih =>
    exact Leads.memoOf (fun _ _ => .of_eq rfl rfl) (fun _ _ h => ⟨h.temporaries, h.frames⟩) ih

end Program

/-- The variable of the value is bound to its proposition, and no temporary variable to come has its
name. -/
structure Value.Placed (w : Workspace) (v : Value) : Prop where
  bound : Program.findVar v.var w.program.frames = .bound v.prop
  named : ¬IsFuture w.program.temporaries v.var

theorem Value.Placed.mono {w w' : Workspace} {v : Value} (h : v.Placed w)
    (hfixes : w.program.Fixes w'.program) : v.Placed w' where
  bound := Program.findVar_of_fixes hfixes.frames h.named h.bound
  named hfuture := h.named (hfuture.mono hfixes.temporaries)

namespace Program

variable {α : Type} {x : M α} {k : Engine} {w w' : Workspace} {v : Value} {d : Domain} {n : Nat}

theorem Stepwise.fixes_of_eq_ok (hx : Stepwise x) {a : α} (h : x w = .ok a w') :
    w.program.Fixes w'.program := by
  have hend := hx.fixes w
  rwa [endOf_of_eq_ok h] at hend

theorem frames_ne_nil (h : w.program.Fixes w'.program) (hframes : w.program.frames ≠ []) :
    w'.program.frames ≠ [] := by
  intro hnil
  have hlength := h.frames.length_eq
  rw [hnil] at hlength
  exact hframes (List.length_eq_zero_iff.1 hlength)

theorem of_temporary_eq_ok {hint : String} (hhint : hint ∈ hints) (hframes : w.program.frames ≠ [])
    {r : String × Nat} (h : temporary hint w = .ok r w') :
    findVar r.1 w'.program.frames = .bound r.2 ∧ ¬IsFuture w'.program.temporaries r.1 := by
  obtain ⟨alphabet, program⟩ := w
  simp only [Program.temporary, Program.temporaryName, Program.change, Program.ask,
    Bind.bind, EStateM.bind, Pure.pure, EStateM.pure, liftM, monadLift, MonadLift.monadLift,
    fresh_eq] at h
  cases h
  refine ⟨findVar_bindInnermost hframes, ?_⟩
  exact fun hfuture => Nat.lt_irrefl _ ((isFuture_temporaryNameOf hhint).1 hfuture)

def Names (r : String × Nat) (x : M Value) : Prop :=
  ∀ w v w', x w = .ok v w' → v.var = r.1 ∧ v.prop = r.2 ∧ v.temporary = true

namespace Names

variable {r : String × Nat}

theorem bind {y : M α} {g : α → M Value} (hg : ∀ a, Names r (g a)) : Names r (y >>= g) := by
  intro w v w' h
  obtain ⟨a, w₁, -, h⟩ := exists_of_bind_eq_ok h
  exact hg a w₁ v w' h

theorem pure (a : Automaton) : Names r (Pure.pure ⟨a, r.1, r.2, true⟩) := by
  rintro w v w' ⟨⟩
  exact ⟨rfl, rfl, rfl⟩

theorem result (a : Automaton) (operands : List Value) :
    Names r (Engine.result a operands r.1 r.2) :=
  .bind fun _ => .pure _

end Names

theorem placed_of_temporary {hint : String} (hhint : hint ∈ hints) {g : String × Nat → M Value}
    (hg : ∀ r, Stepwise (g r)) (hnames : ∀ r, Names r (g r)) (hframes : w.program.frames ≠ [])
    (h : (temporary hint >>= g) w = .ok v w') : v.Placed w' ∧ v.temporary = true := by
  obtain ⟨r, w₁, hr, h⟩ := exists_of_bind_eq_ok h
  obtain ⟨hvar, hprop, htemporary⟩ := hnames r w₁ v w' h
  obtain ⟨hbound, hnamed⟩ := of_temporary_eq_ok hhint hframes hr
  have hplaced : v.Placed w₁ := ⟨by rw [hvar, hprop, hbound], hvar ▸ hnamed⟩
  exact ⟨hplaced.mono ((hg r).fixes_of_eq_ok h), htemporary⟩

section

variable (hk : k.Steady) (hframes : w.program.frames ≠ [])

include hframes

theorem placed_rebind {u : Value} (h : rebind u w = .ok v w') :
    v.Placed w' ∧ v.temporary = true :=
  placed_of_temporary (by simp [hints])
    (fun _ => (Stepwise.liftDiagram _).bind fun _ => .pure _) (fun _ => .bind fun _ => .pure _)
    hframes h

include hk

theorem placed_add {y z : Value} (h : k.add d y z w = .ok v w') :
    v.Placed w' ∧ v.temporary = true := by
  unfold Engine.add at h
  refine placed_of_temporary (by simp [hints]) (fun r => ?_) (fun r => ?_) hframes h
  · refine .ask_bind (fun _ _ => rfl) fun q => ?_
    exact (hk.relation "adder" _).bind fun a => Engine.Steady.result a _ _ _
  · exact .bind fun domain => .bind fun a => .result a _

theorem placed_sub {y z : Value} (h : k.sub d y z w = .ok v w') :
    v.Placed w' ∧ v.temporary = true := by
  unfold Engine.sub at h
  refine placed_of_temporary (by simp [hints]) (fun r => ?_) (fun r => ?_) hframes h
  · refine .ask_bind (fun _ _ => rfl) fun q => ?_
    exact (hk.relation "adder" _).bind fun a => Engine.Steady.result a _ _ _
  · exact .bind fun domain => .bind fun a => .result a _

theorem placed_zero (h : k.zero d w = .ok v w') : v.Placed w' ∧ v.temporary = true := by
  refine placed_of_temporary (by simp [hints]) (fun r => ?_) (fun r => ?_) hframes h
  · refine (Stepwise.liftFault _).bind fun a => ?_
    refine (Stepwise.liftDiagram _).bind fun e => (Stepwise.liftDiagram _).bind fun a => ?_
    split
    · exact .pure _
    · exact (hk.call _).bind fun b => (Stepwise.alphabet (Automaton.frugal_intersect _ b)).bind
        fun _ => .pure _
  · refine .bind fun a => .bind fun e => .bind fun a => ?_
    dsimp only
    split
    · exact .pure _
    · exact .bind fun b => .bind fun c => .pure _

theorem placed_one (h : k.one d w = .ok v w') : v.Placed w' ∧ v.temporary = true :=
  placed_of_temporary (by simp [hints])
    (fun _ => (Stepwise.temporaryName "y").bind fun _ => (hk.formula _).bind fun _ => .pure _)
    (fun _ => .bind fun _ => .bind fun _ => .pure _) hframes h

theorem placed_made (h : k.made d n w = .ok v w') : v.Placed w' ∧ v.temporary = true := by
  unfold Engine.made at h
  split at h
  · exact placed_zero hk hframes h
  split at h
  · exact placed_one hk hframes h
  split at h
  · obtain ⟨u, w₁, hu, h⟩ := exists_of_bind_eq_ok h
    exact placed_add hk (frames_ne_nil ((hk.constant d _).fixes_of_eq_ok hu) hframes) h
  · obtain ⟨u, w₁, hu, h⟩ := exists_of_bind_eq_ok h
    have hframes₁ := frames_ne_nil ((hk.constant d _).fixes_of_eq_ok hu) hframes
    obtain ⟨u', w₂, hu', h⟩ := exists_of_bind_eq_ok h
    exact placed_add hk (frames_ne_nil ((hk.constant d _).fixes_of_eq_ok hu') hframes₁) h

theorem placed_constant (h : k.constant d n w = .ok v w') : v.Placed w' ∧ v.temporary = true := by
  rw [constant_eq] at h
  obtain ⟨constants, _, ⟨⟩, h⟩ := exists_of_bind_eq_ok h
  cases hmemo : w.program.constants.lookup (n, d) with
  | some u =>
    rw [hmemo] at h
    exact placed_rebind hframes h
  | none =>
    rw [hmemo] at h
    obtain ⟨u, w₁, hu, h⟩ := exists_of_bind_eq_ok h
    obtain ⟨hplaced, htemporary⟩ := placed_made hk hframes hu
    cases h
    exact ⟨⟨hplaced.bound, hplaced.named⟩, htemporary⟩

end

theorem placed_multiple (hk : k.Steady) : ∀ {acc : Option Value} {power : Value} {w : Workspace},
    w.program.frames ≠ [] → k.multiple d acc power n w = .ok v w' →
      v.Placed w' ∧ v.temporary = true ∨ v = power ∧ w' = w := by
  induction n using Nat.strong_induction_on with
  | _ n ih =>
    intro acc power w hframes h
    -- The power is either the first summand or added to the others; then it is doubled.
    have hnext : ∀ {added : M Value}, Stepwise added →
        (∀ u w₁, added w = .ok u w₁ →
          u.Placed w₁ ∧ u.temporary = true ∨ u = power ∧ w₁ = w) →
        (if n ≤ 1 then added else do
          let acc ← if n % 2 = 1 then some <$> added else pure acc
          let power ← k.add d power power
          k.multiple d acc power (n / 2)) w = .ok v w' →
        v.Placed w' ∧ v.temporary = true ∨ v = power ∧ w' = w := by
      intro added hsteady hadded h
      have hrest : ∀ {acc w₁}, w₁.program.frames ≠ [] → (do
          let power ← k.add d power power
          k.multiple d acc power (n / 2)) w₁ = .ok v w' → 1 < n →
          v.Placed w' ∧ v.temporary = true := by
        intro acc w₁ hframes₁ h hn
        obtain ⟨power', w₂, hpower, h⟩ := exists_of_bind_eq_ok h
        have hframes₂ := frames_ne_nil ((hk.add d power power).fixes_of_eq_ok hpower) hframes₁
        rcases ih (n / 2) (by omega) hframes₂ h with hplaced | ⟨rfl, rfl⟩
        · exact hplaced
        · exact placed_add hk hframes₁ hpower
      split at h
      · exact hadded v w' h
      split at h
      · obtain ⟨acc', w₁, hacc, h⟩ := exists_of_bind_eq_ok h
        have hfixes := (hsteady.map some).fixes_of_eq_ok hacc
        exact .inl (hrest (frames_ne_nil hfixes hframes) h (by omega))
      · exact .inl (hrest hframes h (by omega))
    rw [Engine.multiple.eq_def] at h
    cases acc with
    | none =>
      refine hnext (.pure power) ?_ h
      rintro u w₁ ⟨⟩
      exact .inr ⟨rfl, rfl⟩
    | some a => exact hnext (hk.add d a power) (fun u w₁ hu => .inl (placed_add hk hframes hu)) h

/-- What is computed is in its place, unless it is a variable, of which nothing is said. -/
def Puts (x : M Value) : Prop :=
  ∀ (w : Workspace) (v : Value) (w' : Workspace), w.program.frames ≠ [] → x w = .ok v w' →
    v.Placed w' ∧ v.temporary = true ∨ v.automaton = Automaton.universal.withProps [v.prop]

/-- What is computed after something else. -/
theorem Puts.bind {y : M α} {g : α → M Value} (hy : Stepwise y) (hg : ∀ a, Puts (g a)) :
    Puts (y >>= g) := by
  intro w v w' hframes h
  obtain ⟨a, w₁, ha, h⟩ := exists_of_bind_eq_ok h
  exact hg a w₁ v w' (frames_ne_nil (hy.fixes_of_eq_ok ha) hframes) h

theorem Puts.throw (f : Failure) : Puts (MonadExcept.throw f) := by
  rintro w v w' - ⟨⟩

section

variable (hk : k.Steady) (hvalue : ∀ x, Puts (k.value x))

include hk

theorem puts_constant : Puts (k.constant d n) := fun _ _ _ hframes h =>
  .inl (placed_constant hk hframes h)

theorem puts_add (y z : Value) : Puts (k.add d y z) := fun _ _ _ hframes h =>
  .inl (placed_add hk hframes h)

theorem puts_sub (y z : Value) : Puts (k.sub d y z) := fun _ _ _ hframes h =>
  .inl (placed_sub hk hframes h)

include hvalue

theorem puts_scale (x : Expr) : Puts (k.scale d n x) := by
  unfold Engine.scale
  split
  · exact puts_constant hk
  · intro w v w' hframes h
    obtain ⟨u, w₁, hu, h⟩ := exists_of_bind_eq_ok h
    have hframes₁ := frames_ne_nil ((hk.value x).fixes_of_eq_ok hu) hframes
    rcases placed_multiple hk hframes₁ h with hplaced | ⟨rfl, rfl⟩
    · exact .inl hplaced
    · exact hvalue x w v w' hframes hu

theorem puts_evaluateValue (x : Expr) : Puts (k.evaluateValue x) := by
  unfold Engine.evaluateValue
  dsimp only
  split
  · exact puts_constant hk
  split
  · refine .bind (.propOf _) fun p => ?_
    rintro w v w' - ⟨⟩
    exact .inr rfl
  · exact .bind (hk.value _) fun u => .bind (hk.value _) fun z => puts_add hk u z
  · exact .bind (hk.value _) fun u => .bind (hk.value _) fun z => puts_sub hk u z
  · split
    · exact puts_scale hk hvalue _
    · exact puts_scale hk hvalue _
    · exact .throw _
  · exact .throw _
  · exact .throw _

end

theorem puts_ofDepth (n : Nat) (x : Expr) : Puts ((Engine.ofDepth n).value x) := by
  induction n generalizing x with
  | zero => exact .throw _
  | succ n ih => exact puts_evaluateValue (steady_ofDepth n) ih x

end Program

end RegularArithmetic
