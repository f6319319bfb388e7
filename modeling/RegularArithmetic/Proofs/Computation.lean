import Mathlib.Data.Set.Lattice
import Mathlib.Order.Defs.Unbundled
import Mathlib.Tactic.Common
import RegularArithmetic.Diagram.Store

/-!
What a computation does to its state and what it gives. States are preordered by "is an earlier
state of", and a computation is described by a property of its value and its last state, while
the state it ends in, with or without a value, is a later one.
-/

set_option autoImplicit false

namespace RegularArithmetic

variable {ε σ α β γ : Type}

/-- Started in `s`, `x` ends in a later state; if it gives a value, `post` holds of the value
and that state. -/
def Yields [Preorder σ] (x : EStateM ε σ α) (s : σ) (post : α → σ → Prop) : Prop :=
  match x s with
  | .ok a t => s ≤ t ∧ post a t
  | .error _ t => s ≤ t

section

variable [Preorder σ] {x : EStateM ε σ α} {s t : σ} {P : α → σ → Prop} {Q : β → σ → Prop}

theorem Yields.of_ok {a : α} (h : Yields x s P) (hx : x s = .ok a t) : s ≤ t ∧ P a t := by
  simpa only [Yields, hx] using h

theorem Yields.of_error {e : ε} (h : Yields x s P) (hx : x s = .error e t) : s ≤ t := by
  simpa only [Yields, hx] using h

theorem Yields.intro (hok : ∀ a t, x s = .ok a t → s ≤ t ∧ P a t)
    (herror : ∀ e t, x s = .error e t → s ≤ t) : Yields x s P := by
  unfold Yields
  split
  · exact hok _ _ ‹_›
  · exact herror _ _ ‹_›

theorem Yields.mono {P' : α → σ → Prop} (h : Yields x s P)
    (hP : ∀ a t, s ≤ t → P a t → P' a t) : Yields x s P' := by
  unfold Yields at *
  split at h
  · exact ⟨h.1, hP _ _ h.1 h.2⟩
  · exact h

theorem Yields.and {P' : α → σ → Prop} (h : Yields x s P) (h' : Yields x s P') :
    Yields x s fun a t => P a t ∧ P' a t :=
  .intro (fun _ _ hx => ⟨(h.of_ok hx).1, (h.of_ok hx).2, (h'.of_ok hx).2⟩)
    fun _ _ hx => h.of_error hx

theorem Yields.pure {a : α} (h : P a s) : Yields (Pure.pure a : EStateM ε σ α) s P :=
  ⟨le_refl s, h⟩

theorem Yields.throw {e : ε} : Yields (MonadExcept.throw e : EStateM ε σ α) s P :=
  le_refl s

theorem Yields.throw_bind {f : α → EStateM ε σ β} {e : ε} :
    Yields ((MonadExcept.throw e : EStateM ε σ α) >>= f) s Q :=
  le_refl s

/-- Only the result of a computation counts. -/
theorem Yields.of_eq {y : EStateM ε σ α} (h : Yields x s P) (hy : y s = x s) : Yields y s P := by
  rwa [Yields, hy]

theorem Yields.bind {f : α → EStateM ε σ β} (h : Yields x s P)
    (hf : ∀ a t, s ≤ t → P a t → Yields (f a) t Q) : Yields (x >>= f) s Q := by
  cases hx : x s with
  | ok a t =>
    obtain ⟨hst, ha⟩ := h.of_ok hx
    have hfa := hf a t hst ha
    refine .intro (fun b u hu => ?_) fun e u hu => ?_
    all_goals rw [show (x >>= f) s = f a t by simp only [Bind.bind, EStateM.bind, hx]] at hu
    · exact ⟨le_trans hst (hfa.of_ok hu).1, (hfa.of_ok hu).2⟩
    · exact le_trans hst (hfa.of_error hu)
  | error e t =>
    have hbind : (x >>= f) s = .error e t := by simp only [Bind.bind, EStateM.bind, hx]
    rw [Yields, hbind]
    exact h.of_error hx

/-- The state that a computation ends in, with a value or without. -/
def endOf (x : EStateM ε σ α) (s : σ) : σ :=
  match x s with
  | .ok _ t => t
  | .error _ t => t

omit [Preorder σ] in
theorem endOf_of_eq_ok {a : α} (h : x s = .ok a t) : endOf x s = t := by
  rw [endOf, h]

omit [Preorder σ] in
theorem endOf_of_eq_error {e : ε} (h : x s = .error e t) : endOf x s = t := by
  rw [endOf, h]

theorem Yields.le_endOf (h : Yields x s P) : s ≤ endOf x s := by
  unfold Yields at h
  unfold endOf
  split <;> simp_all only

omit [Preorder σ] in
theorem endOf_map (f : α → β) : endOf (f <$> x) s = endOf x s := by
  simp only [endOf, Functor.map, EStateM.map]
  cases x s <;> rfl

omit [Preorder σ] in
theorem bind_of_ok {y : α → EStateM ε σ β} {a : α} (hx : x s = .ok a t) :
    (x >>= y) s = y a t := by
  simp only [Bind.bind, EStateM.bind, hx]

omit [Preorder σ] in
/-- After what fails, nothing is done. -/
theorem bind_of_error {y : α → EStateM ε σ β} {e : ε} (hx : x s = .error e t) :
    (x >>= y) s = .error e t := by
  simp only [Bind.bind, EStateM.bind, hx]

omit [Preorder σ] in
theorem endOf_bind_of_eq_ok {f : α → EStateM ε σ β} {a : α} (h : x s = .ok a t) :
    endOf (x >>= f) s = endOf (f a) t := by
  rw [endOf, bind_of_ok h, endOf]

omit [Preorder σ] in
theorem endOf_bind_of_eq_error {f : α → EStateM ε σ β} {e : ε} (h : x s = .error e t) :
    endOf (x >>= f) s = t := by
  rw [endOf, bind_of_error h]

theorem Yields.tryCatch {handle : ε → EStateM ε σ α} (h : Yields x s P)
    (hhandle : ∀ e t, s ≤ t → Yields (handle e) t P) :
    Yields (MonadExcept.tryCatch x handle) s P := by
  have hrun : (MonadExcept.tryCatch x handle : EStateM ε σ α) s = match x s with
      | .ok a t => .ok a t
      | .error e t => handle e t := by
    simp only [MonadExcept.tryCatch, tryCatchThe, MonadExceptOf.tryCatch, EStateM.tryCatch]
    cases x s <;> rfl
  cases hx : x s with
  | ok a t =>
    rw [Yields, hrun, hx]
    exact h.of_ok hx
  | error e t =>
    have hle := h.of_error hx
    rw [hx] at hrun
    refine .intro (fun a u hu => ?_) fun e' u hu => ?_
    all_goals rw [hrun] at hu
    · obtain ⟨hle', ha⟩ := (hhandle e t hle).of_ok hu
      exact ⟨le_trans hle hle', ha⟩
    · exact le_trans hle ((hhandle e t hle).of_error hu)

omit [Preorder σ] in
theorem exists_of_bind_eq_ok {f : α → EStateM ε σ β} {b : β} (h : (x >>= f) s = .ok b t) :
    ∃ a u, x s = .ok a u ∧ f a u = .ok b t := by
  simp only [bind, EStateM.bind] at h
  cases hx : x s with
  | ok a u =>
    rw [hx] at h
    exact ⟨a, u, rfl, h⟩
  | error e u =>
    rw [hx] at h
    cases h

theorem Yields.map {f : α → β} (h : Yields x s P) (hf : ∀ a t, s ≤ t → P a t → Q (f a) t) :
    Yields (f <$> x) s Q := by
  simp only [Yields, Functor.map, EStateM.map] at *
  cases hx : x s with
  | ok a t =>
    rw [hx] at h
    exact ⟨h.1, hf a t h.1 h.2⟩
  | error e t =>
    rw [hx] at h
    exact h

theorem Yields.ite {c : Prop} [Decidable c] {y : EStateM ε σ α} (hx : c → Yields x s P)
    (hy : ¬c → Yields y s P) : Yields (if c then x else y) s P := by
  split
  · exact hx ‹_›
  · exact hy ‹_›

end

section

variable [Preorder σ]

theorem Yields.foldlM {f : β → α → EStateM ε σ β} (I : List α → β → σ → Prop) {l : List α}
    {b : β} {s : σ} (h : I [] b s)
    (hf : ∀ done a rest, l = done ++ a :: rest → ∀ b s, I done b s →
      Yields (f b a) s (I (done ++ [a]))) :
    Yields (l.foldlM f b) s (I l) := by
  suffices hrest : ∀ rest done b s, l = done ++ rest → I done b s →
      Yields (rest.foldlM f b) s (I l) from hrest l [] b s rfl h
  intro rest
  induction rest with
  | nil =>
    rintro done b s rfl hI
    exact .pure (by simpa using hI)
  | cons a rest ih =>
    intro done b s hl hI
    rw [List.foldlM_cons]
    exact (hf done a rest hl b s hI).bind fun b t _ hb => ih _ b t (by simp [hl]) hb

theorem Yields.mapM {f : α → EStateM ε σ β} (R : α → β → σ → Prop)
    (hR : ∀ a b s t, s ≤ t → R a b s → R a b t) :
    ∀ (l : List α) (s : σ), (∀ a ∈ l, ∀ t, s ≤ t → Yields (f a) t (R a)) →
      Yields (l.mapM f) s fun bs t => List.Forall₂ (R · · t) l bs
  | [], s, _ => by
    rw [List.mapM_nil]
    exact .pure .nil
  | a :: l, s, h => by
    rw [List.mapM_cons]
    refine (h a (by simp) s le_rfl).bind fun b t hst hb => ?_
    refine (mapM R hR l t fun a' ha' u htu => h a' (by simp [ha']) u (le_trans hst htu)).bind
      fun bs u htu hbs => ?_
    exact .pure (.cons (hR a b t u htu hb) hbs)

theorem Yields.mapMArray {f : α → EStateM ε σ β} (R : α → β → σ → Prop)
    (hR : ∀ a b s t, s ≤ t → R a b s → R a b t) (xs : Array α) (s : σ)
    (h : ∀ a ∈ xs.toList, ∀ t, s ≤ t → Yields (f a) t (R a)) :
    Yields (xs.mapM f) s fun ys t => List.Forall₂ (R · · t) xs.toList ys.toList := by
  rw [Array.mapM_eq_mapM_toList]
  exact (mapM R hR xs.toList s h).map fun ys t _ hys => hys

theorem Yields.forM {f : α → EStateM ε σ Unit} :
    ∀ (l : List α) (s : σ), (∀ a ∈ l, ∀ t, s ≤ t → Yields (f a) t fun _ _ => True) →
      Yields (l.forM f) s fun _ _ => True
  | [], s, _ => .pure trivial
  | a :: l, s, h => (h a (by simp) s le_rfl).bind fun _ t hst _ =>
    forM l t fun a' ha' u htu => h a' (by simp [ha']) u (le_trans hst htu)

end

/-- Related lists are related place by place. -/
theorem forall₂_getElem? {R : α → β → Prop} {l : List α} {l' : List β} (h : List.Forall₂ R l l')
    {i : Nat} {a : α} (ha : l[i]? = some a) : ∃ b, l'[i]? = some b ∧ R a b := by
  induction h generalizing i with
  | nil => simp at ha
  | @cons a' b' l l' hab _ ih =>
    cases i with
    | zero =>
      obtain rfl : a' = a := by simpa using ha
      exact ⟨b', rfl, hab⟩
    | succ i => exact ih (by simpa using ha)

/-- Each element of a list is related to one of the related list. -/
theorem exists_mem_of_forall₂ {R : α → β → Prop} {l : List α} {l' : List β}
    (h : List.Forall₂ R l l') {a : α} (ha : a ∈ l) : ∃ b ∈ l', R a b := by
  obtain ⟨i, hi⟩ := List.mem_iff_getElem?.1 ha
  obtain ⟨b, hb, hab⟩ := forall₂_getElem? h hi
  exact ⟨b, List.mem_of_getElem? hb, hab⟩

/-- Wherever it starts, the computation ends in a state that `R` relates to the first one. -/
def Along (R : σ → σ → Prop) (x : EStateM ε σ α) : Prop := ∀ s, R s (endOf x s)

namespace Along

variable {R : σ → σ → Prop} {x : EStateM ε σ α}

theorem pure [Std.Refl R] (a : α) : Along R (Pure.pure a : EStateM ε σ α) :=
  fun s => Std.Refl.refl s

theorem throw [Std.Refl R] (e : ε) : Along R (MonadExcept.throw e : EStateM ε σ α) :=
  fun s => Std.Refl.refl s

/-- Only where the first part gives a value does the second one matter. -/
theorem bind_at [IsTrans σ R] {f : α → EStateM ε σ β} {s : σ} (hx : R s (endOf x s))
    (hf : ∀ a t, x s = .ok a t → R t (endOf (f a) t)) : R s (endOf (x >>= f) s) := by
  cases h : x s with
  | ok a t =>
    rw [endOf_of_eq_ok h] at hx
    rw [endOf_bind_of_eq_ok h]
    exact IsTrans.trans _ _ _ hx (hf a t h)
  | error e t =>
    rw [endOf_bind_of_eq_error h]
    rwa [endOf_of_eq_error h] at hx

theorem bind [IsTrans σ R] {f : α → EStateM ε σ β} (hx : Along R x) (hf : ∀ a, Along R (f a)) :
    Along R (x >>= f) :=
  fun s => bind_at (hx s) fun a t _ => hf a t

theorem map (f : α → β) (hx : Along R x) : Along R (f <$> x) := fun s => by
  rw [endOf_map]
  exact hx s

theorem tryCatch [IsTrans σ R] {handle : ε → EStateM ε σ α} (hx : Along R x)
    (hhandle : ∀ e, Along R (handle e)) : Along R (MonadExcept.tryCatch x handle) := by
  intro s
  have hs := hx s
  simp only [endOf, MonadExcept.tryCatch, tryCatchThe, MonadExceptOf.tryCatch,
    EStateM.tryCatch] at hs ⊢
  cases h : x s with
  | ok a t =>
    rw [h] at hs
    exact hs
  | error e t =>
    rw [h] at hs
    exact IsTrans.trans _ _ _ hs (hhandle e t)

theorem ite {c : Prop} [Decidable c] {y : EStateM ε σ α} (hx : Along R x) (hy : Along R y) :
    Along R (if c then x else y) := by
  split
  · exact hx
  · exact hy

theorem forM [IsPreorder σ R] {f : α → EStateM ε σ Unit} (hf : ∀ a, Along R (f a)) (l : List α) :
    Along R (l.forM f) := by
  induction l with
  | nil => exact .pure ()
  | cons a l ih => exact (hf a).bind fun _ => ih

end Along

/-- If the computation gives a value, then one with `P`, in a state with `I`. -/
def Maintains (I : σ → Prop) (x : EStateM ε σ α) (s : σ) (P : α → Prop) : Prop :=
  ∀ a t, x s = .ok a t → I t ∧ P a

namespace Maintains

variable {I : σ → Prop} {x : EStateM ε σ α} {s : σ} {P : α → Prop} {Q : β → Prop}

theorem pure {a : α} (hs : I s) (ha : P a) : Maintains I (Pure.pure a : EStateM ε σ α) s P := by
  rintro b t ⟨⟩
  exact ⟨hs, ha⟩

theorem throw {e : ε} : Maintains I (MonadExcept.throw e : EStateM ε σ α) s P := by
  rintro b t ⟨⟩

theorem throw_bind {e : ε} {f : α → EStateM ε σ β} :
    Maintains I ((MonadExcept.throw e : EStateM ε σ α) >>= f) s Q := by
  rintro b t ⟨⟩

theorem ite {c : Prop} [Decidable c] {y : EStateM ε σ α} (hx : c → Maintains I x s P)
    (hy : ¬c → Maintains I y s P) : Maintains I (if c then x else y) s P := by
  split
  · exact hx ‹_›
  · exact hy ‹_›

theorem bind {f : α → EStateM ε σ β} (h : Maintains I x s P)
    (hf : ∀ a t, I t → P a → Maintains I (f a) t Q) : Maintains I (x >>= f) s Q := by
  intro b u hb
  obtain ⟨a, t, ha, hfa⟩ := exists_of_bind_eq_ok hb
  exact hf a t (h a t ha).1 (h a t ha).2 b u hfa

theorem map {f : α → β} (h : Maintains I x s P) (hf : ∀ a, P a → Q (f a)) :
    Maintains I (f <$> x) s Q := by
  rw [map_eq_pure_bind]
  exact h.bind fun a t ht ha => .pure ht (hf a ha)

theorem mapM {f : α → EStateM ε σ β} : ∀ {l : List α} {s : σ}, I s →
    (∀ a ∈ l, ∀ t, I t → Maintains I (f a) t Q) →
      Maintains I (l.mapM f) s fun bs => ∀ b ∈ bs, Q b
  | [], s, hs, _ => by
    rw [List.mapM_nil]
    exact .pure hs fun b hb => absurd hb List.not_mem_nil
  | a :: l, s, hs, h => by
    rw [List.mapM_cons]
    refine (h a List.mem_cons_self s hs).bind fun b t ht hb => ?_
    refine (mapM ht fun a' ha' => h a' (List.mem_cons_of_mem a ha')).bind fun bs u hu hbs => ?_
    exact .pure hu (List.forall_mem_cons.2 ⟨hb, hbs⟩)

end Maintains

/-- What an answer without effects says is said of the value it gives. -/
def Gives {ε α : Type} (x : Except ε α) (post : α → Prop) : Prop :=
  ∀ a, x = .ok a → post a

section

variable {x : Except ε α} {P : α → Prop} {Q : β → Prop}

theorem Gives.pure {a : α} (h : P a) : Gives (Pure.pure a : Except ε α) P := by
  rintro b ⟨⟩
  exact h

theorem Gives.ok {a : α} (h : P a) : Gives (.ok a : Except ε α) P := Gives.pure h

theorem Gives.throw {e : ε} : Gives (MonadExcept.throw e : Except ε α) P := by
  rintro b ⟨⟩

theorem Gives.error {e : ε} : Gives (.error e : Except ε α) P := Gives.throw

theorem Gives.bind {f : α → Except ε β} (h : Gives x P) (hf : ∀ a, P a → Gives (f a) Q) :
    Gives (x >>= f) Q := by
  cases x with
  | ok a => exact hf a (h a rfl)
  | error e => exact Gives.error

/-- Only the second part matters, whatever the first one gives. -/
theorem Gives.bind_of_forall {f : α → Except ε β} (hf : ∀ a, Gives (f a) Q) : Gives (x >>= f) Q :=
  Gives.bind (P := fun _ => True) (fun _ _ => trivial) fun a _ => hf a

theorem Gives.mono {P' : α → Prop} (h : Gives x P) (hP : ∀ a, P a → P' a) : Gives x P' :=
  fun a ha => hP a (h a ha)

theorem Gives.foldlM {f : β → α → Except ε β} (I : List α → β → Prop) {l : List α} {b : β}
    (h : I [] b)
    (hf : ∀ done a rest, l = done ++ a :: rest → ∀ b, I done b →
      Gives (f b a) (I (done ++ [a]))) :
    Gives (l.foldlM f b) (I l) := by
  suffices hrest : ∀ rest done b, l = done ++ rest → I done b →
      Gives (rest.foldlM f b) (I l) from hrest l [] b rfl h
  intro rest
  induction rest with
  | nil =>
    rintro done b rfl hI
    exact .pure (by simpa using hI)
  | cons a rest ih =>
    intro done b hl hI
    rw [List.foldlM_cons]
    exact (hf done a rest hl b hI).bind fun b hb => ih _ b (by simp [hl]) hb

theorem Gives.mapM {f : α → Except ε β} (R : α → β → Prop) :
    ∀ l : List α, (∀ a ∈ l, Gives (f a) (R a)) →
      Gives (l.mapM f) fun bs => List.Forall₂ R l bs
  | [], _ => by
    rw [List.mapM_nil]
    exact .pure .nil
  | a :: l, h => by
    rw [List.mapM_cons]
    refine (h a (by simp)).bind fun b hb => ?_
    refine (mapM R l fun a' ha' => h a' (by simp [ha'])).bind fun bs hbs => ?_
    exact .pure (.cons hb hbs)

theorem Gives.mapMArray {f : α → Except ε β} (R : α → β → Prop) (xs : Array α)
    (h : ∀ a ∈ xs.toList, Gives (f a) (R a)) :
    Gives (xs.mapM f) fun ys => List.Forall₂ R xs.toList ys.toList := by
  rw [Array.mapM_eq_mapM_toList, map_eq_pure_bind]
  exact (mapM R xs.toList h).bind fun ys hys => .pure hys

theorem Gives.filterM {f : α → Except ε Bool} {P : α → Prop} {l : List α}
    (h : ∀ a ∈ l, Gives (f a) fun b => b = true ↔ P a) :
    Gives (l.filterM f) fun l' => ∀ a, a ∈ l' ↔ a ∈ l ∧ P a := by
  suffices haux : ∀ (l acc : List α), (∀ a ∈ l, Gives (f a) fun b => b = true ↔ P a) →
      Gives (List.filterAuxM f l acc) fun l' => ∀ a, a ∈ l' ↔ a ∈ acc ∨ a ∈ l ∧ P a from
    (haux l [] h).bind fun l' hl' => .pure fun a => by simpa using hl' a
  intro l
  induction l with
  | nil => exact fun acc _ => .pure (by simp)
  | cons a l ih =>
    intro acc h
    refine (h a (by simp)).bind fun b hb => ?_
    refine (ih _ fun a' ha' => h a' (by simp [ha'])).mono fun l' hl' a' => ?_
    rw [hl']
    cases b with
    | true =>
      have ha := hb.1 rfl
      simp only [cond_true, List.mem_cons, or_and_right]
      constructor
      · rintro ((rfl | h) | h)
        · exact .inr (.inl ⟨rfl, ha⟩)
        · exact .inl h
        · exact .inr (.inr h)
      · rintro (h | ⟨rfl, -⟩ | h)
        · exact .inl (.inr h)
        · exact .inl (.inl rfl)
        · exact .inr h
    | false =>
      have ha : ¬P a := fun ha => by simpa using hb.2 ha
      simp only [cond_false, List.mem_cons, or_and_right]
      constructor
      · rintro (h | h)
        · exact .inl h
        · exact .inr (.inr h)
      · rintro (h | ⟨rfl, hP⟩ | h)
        · exact .inl h
        · exact absurd hP ha
        · exact .inr h

theorem Gives.anyM {f : α → Except ε Bool} {P : α → Prop} :
    ∀ l : List α, (∀ a ∈ l, Gives (f a) fun b => b = true ↔ P a) →
      Gives (l.anyM f) fun b => b = true ↔ ∃ a ∈ l, P a
  | [], _ => .pure (by simp)
  | a :: l, h => by
    rw [List.anyM_cons]
    refine (h a (by simp)).bind fun b hb => ?_
    cases b with
    | true => exact .pure (by simpa using .inl (hb.1 rfl))
    | false =>
      have ha : ¬P a := fun ha => by simpa using hb.2 ha
      exact (anyM l fun a' ha' => h a' (by simp [ha'])).mono fun b hb => by simp [hb, ha]

end

/-- An answer without effects, as a computation on diagrams. -/
theorem Yields.liftExcept {α : Type} [Preorder Diagram.Store] {x : Except Fault α}
    {s : Diagram.Store} {P : α → Diagram.Store → Prop} (h : Gives x (P · s)) :
    Yields (liftM x : Diagram.M α) s P := by
  cases x with
  | ok a => exact .pure (h a rfl)
  | error e => exact .throw

end RegularArithmetic
