import RegularArithmetic.Proofs.Computation

/-!
Computations that do not fail. What a computation yields says nothing if it ends in an error; here
it is known to give a value, so that its description is a description of that value.
-/

set_option autoImplicit false

namespace RegularArithmetic

variable {ε σ α β γ : Type}

/-- Started in `s`, `x` gives a value. -/
def Succeeds (x : EStateM ε σ α) (s : σ) : Prop := ∃ a t, x s = .ok a t

/-- Started in `s`, `x` gives a value and ends in a later state, and `post` holds of both. -/
def Returns [Preorder σ] (x : EStateM ε σ α) (s : σ) (post : α → σ → Prop) : Prop :=
  ∃ a t, x s = .ok a t ∧ s ≤ t ∧ post a t

theorem Succeeds.of_eq {x y : EStateM ε σ α} {s t : σ} (h : Succeeds y t) (hrun : x s = y t) :
    Succeeds x s := by
  rwa [Succeeds, hrun]

section

variable [Preorder σ] {x : EStateM ε σ α} {s : σ} {P : α → σ → Prop} {Q : β → σ → Prop}

theorem Returns.succeeds (h : Returns x s P) : Succeeds x s := by
  obtain ⟨a, t, hx, -⟩ := h
  exact ⟨a, t, hx⟩

theorem Succeeds.returns (h : Succeeds x s) (hx : Yields x s P) : Returns x s P := by
  obtain ⟨a, t, hok⟩ := h
  exact ⟨a, t, hok, hx.of_ok hok⟩

theorem Returns.yields (h : Returns x s P) : Yields x s P := by
  obtain ⟨a, t, hx, h⟩ := h
  simpa only [Yields, hx] using h

/-- What else is known of the value. -/
theorem Returns.and {P' : α → σ → Prop} (h : Returns x s P) (h' : Yields x s P') :
    Returns x s fun a t => P a t ∧ P' a t := by
  obtain ⟨a, t, hx, hst, ha⟩ := h
  exact ⟨a, t, hx, hst, ha, (h'.of_ok hx).2⟩

theorem Returns.mono {P' : α → σ → Prop} (h : Returns x s P)
    (hP : ∀ a t, s ≤ t → P a t → P' a t) : Returns x s P' := by
  obtain ⟨a, t, hx, hst, ha⟩ := h
  exact ⟨a, t, hx, hst, hP a t hst ha⟩

theorem Returns.pure {a : α} (h : P a s) : Returns (Pure.pure a : EStateM ε σ α) s P :=
  ⟨a, s, rfl, le_rfl, h⟩

omit [Preorder σ] in
theorem Succeeds.pure {a : α} : Succeeds (Pure.pure a : EStateM ε σ α) s := ⟨a, s, rfl⟩

theorem Returns.bind {f : α → EStateM ε σ β} (h : Returns x s P)
    (hf : ∀ a t, s ≤ t → P a t → Returns (f a) t Q) : Returns (x >>= f) s Q := by
  obtain ⟨a, t, hx, hst, ha⟩ := h
  obtain ⟨b, u, hfa, htu, hb⟩ := hf a t hst ha
  exact ⟨b, u, by simpa only [Bind.bind, EStateM.bind, hx] using hfa, le_trans hst htu, hb⟩

theorem Returns.bind_succeeds {f : α → EStateM ε σ β} (h : Returns x s P)
    (hf : ∀ a t, s ≤ t → P a t → Succeeds (f a) t) : Succeeds (x >>= f) s := by
  obtain ⟨a, t, hx, hst, ha⟩ := h
  obtain ⟨b, u, hfa⟩ := hf a t hst ha
  exact ⟨b, u, by simpa only [Bind.bind, EStateM.bind, hx] using hfa⟩

theorem Returns.map {f : α → β} (h : Returns x s P) (hf : ∀ a t, s ≤ t → P a t → Q (f a) t) :
    Returns (f <$> x) s Q := by
  rw [map_eq_pure_bind]
  exact h.bind fun a t hst ha => .pure (hf a t hst ha)

omit [Preorder σ] in
theorem Succeeds.map {f : α → β} (h : Succeeds x s) : Succeeds (f <$> x) s := by
  obtain ⟨a, t, hx⟩ := h
  exact ⟨f a, t, by simp only [Functor.map, EStateM.map, hx]⟩

omit [Preorder σ] in
theorem Succeeds.bind_pure {f : α → β} (h : Succeeds x s) :
    Succeeds (x >>= fun a => Pure.pure (f a)) s := by
  obtain ⟨a, t, hx⟩ := h
  exact ⟨f a, t, by simp only [Bind.bind, EStateM.bind, hx]; rfl⟩

theorem Returns.ite {c : Prop} [Decidable c] {y : EStateM ε σ α} (hx : c → Returns x s P)
    (hy : ¬c → Returns y s P) : Returns (if c then x else y) s P := by
  split
  · exact hx ‹_›
  · exact hy ‹_›

omit [Preorder σ] in
theorem Succeeds.ite {c : Prop} [Decidable c] {y : EStateM ε σ α} (hx : c → Succeeds x s)
    (hy : ¬c → Succeeds y s) : Succeeds (if c then x else y) s := by
  split
  · exact hx ‹_›
  · exact hy ‹_›

end

section

variable [Preorder σ]

theorem Returns.foldlM {f : β → α → EStateM ε σ β} (I : List α → β → σ → Prop) {l : List α}
    {b : β} {s : σ} (h : I [] b s)
    (hf : ∀ done a rest, l = done ++ a :: rest → ∀ b s, I done b s →
      Returns (f b a) s (I (done ++ [a]))) :
    Returns (l.foldlM f b) s (I l) := by
  suffices hrest : ∀ rest done b s, l = done ++ rest → I done b s →
      Returns (rest.foldlM f b) s (I l) from hrest l [] b s rfl h
  intro rest
  induction rest with
  | nil =>
    rintro done b s rfl hI
    exact .pure (by simpa using hI)
  | cons a rest ih =>
    intro done b s hl hI
    rw [List.foldlM_cons]
    exact (hf done a rest hl b s hI).bind fun b t _ hb => ih _ b t (by simp [hl]) hb

/-- Elementwise computation relates each element to its value, as long as the relation lasts, and
keeps what every computation keeps. -/
theorem Returns.mapM_keeping {f : α → EStateM ε σ β} {I : σ → Prop} (R : α → β → σ → Prop)
    (hR : ∀ a b s t, s ≤ t → R a b s → R a b t) :
    ∀ (l : List α) (s : σ), I s →
      (∀ a ∈ l, ∀ t, s ≤ t → I t → Returns (f a) t fun b u => I u ∧ R a b u) →
      Returns (l.mapM f) s fun bs t => I t ∧ List.Forall₂ (R · · t) l bs
  | [], s, hs, _ => by
    rw [List.mapM_nil]
    exact .pure ⟨hs, .nil⟩
  | a :: l, s, hs, h => by
    rw [List.mapM_cons]
    refine (h a (by simp) s le_rfl hs).bind fun b t hst ⟨ht, hb⟩ => ?_
    refine (mapM_keeping R hR l t ht fun a' ha' u htu =>
      h a' (by simp [ha']) u (le_trans hst htu)).bind fun bs u htu ⟨hu, hbs⟩ => ?_
    exact .pure ⟨hu, .cons (hR a b t u htu hb) hbs⟩

theorem Returns.mapM {f : α → EStateM ε σ β} (R : α → β → σ → Prop)
    (hR : ∀ a b s t, s ≤ t → R a b s → R a b t) (l : List α) (s : σ)
    (h : ∀ a ∈ l, ∀ t, s ≤ t → Returns (f a) t (R a)) :
    Returns (l.mapM f) s fun bs t => List.Forall₂ (R · · t) l bs :=
  (mapM_keeping (I := fun _ => True) R hR l s trivial fun a ha t hst _ =>
    (h a ha t hst).mono fun _ _ _ hb => ⟨trivial, hb⟩).mono fun _ _ _ hbs => hbs.2

theorem Returns.mapMArray_keeping {f : α → EStateM ε σ β} {I : σ → Prop} (R : α → β → σ → Prop)
    (hR : ∀ a b s t, s ≤ t → R a b s → R a b t) {xs : Array α} {s : σ} (hs : I s)
    (h : ∀ a ∈ xs.toList, ∀ t, s ≤ t → I t → Returns (f a) t fun b u => I u ∧ R a b u) :
    Returns (xs.mapM f) s fun ys t => I t ∧ List.Forall₂ (R · · t) xs.toList ys.toList := by
  rw [Array.mapM_eq_mapM_toList, map_eq_pure_bind]
  exact (mapM_keeping R hR xs.toList s hs h).bind fun ys t _ hys => .pure hys

theorem Succeeds.mapM {f : α → EStateM ε σ β} {l : List α} {s : σ}
    (h : ∀ a ∈ l, ∀ t, s ≤ t → Returns (f a) t fun _ _ => True) : Succeeds (l.mapM f) s :=
  (Returns.mapM (fun _ _ _ => True) (fun _ _ _ _ _ _ => trivial) l s h).succeeds

theorem Succeeds.mapMArray {f : α → EStateM ε σ β} {xs : Array α} {s : σ}
    (h : ∀ a ∈ xs.toList, ∀ t, s ≤ t → Returns (f a) t fun _ _ => True) :
    Succeeds (xs.mapM f) s := by
  rw [Array.mapM_eq_mapM_toList]
  exact (Succeeds.mapM h).map

theorem Returns.forM {f : α → EStateM ε σ Unit} :
    ∀ (l : List α) (s : σ), (∀ a ∈ l, ∀ t, s ≤ t → Returns (f a) t fun _ _ => True) →
      Returns (l.forM f) s fun _ _ => True
  | [], s, _ => .pure trivial
  | a :: l, s, h => (h a (by simp) s le_rfl).bind fun _ t hst _ =>
    forM l t fun a' ha' u htu => h a' (by simp [ha']) u (le_trans hst htu)

theorem Returns.allM {f : α → EStateM ε σ Bool} {P : α → Prop} :
    ∀ (l : List α) (s : σ),
      (∀ a ∈ l, ∀ t, s ≤ t → Returns (f a) t fun b _ => b = true ↔ P a) →
      Returns (l.allM f) s fun b _ => b = true ↔ ∀ a ∈ l, P a
  | [], s, _ => .pure (by simp)
  | a :: l, s, h => by
    rw [List.allM]
    refine (h a (by simp) s le_rfl).bind fun b t hst hb => ?_
    cases b with
    | false =>
      have ha : ¬P a := fun ha => by simpa using hb.2 ha
      exact .pure (by simp [ha])
    | true =>
      have ha := hb.1 rfl
      refine (allM l t fun a' ha' u htu => h a' (by simp [ha']) u (le_trans hst htu)).mono
        fun b u _ hall => ?_
      simp [hall, ha]

end

/-- The answer is a value, and `post` holds of it. -/
def Answers (x : Except ε α) (post : α → Prop) : Prop := ∃ a, x = .ok a ∧ post a

section

variable {x : Except ε α} {P : α → Prop} {Q : β → Prop}

theorem Answers.gives (h : Answers x P) : Gives x P := by
  obtain ⟨a, rfl, ha⟩ := h
  rintro b ⟨⟩
  exact ha

theorem Answers.and {P' : α → Prop} (h : Answers x P) (h' : Gives x P') :
    Answers x fun a => P a ∧ P' a := by
  obtain ⟨a, hx, ha⟩ := h
  exact ⟨a, hx, ha, h' a hx⟩

theorem Answers.mono {P' : α → Prop} (h : Answers x P) (hP : ∀ a, P a → P' a) : Answers x P' := by
  obtain ⟨a, hx, ha⟩ := h
  exact ⟨a, hx, hP a ha⟩

theorem Answers.pure {a : α} (h : P a) : Answers (Pure.pure a : Except ε α) P := ⟨a, rfl, h⟩

theorem Answers.ok {a : α} (h : P a) : Answers (.ok a : Except ε α) P := ⟨a, rfl, h⟩

theorem Answers.bind {f : α → Except ε β} (h : Answers x P) (hf : ∀ a, P a → Answers (f a) Q) :
    Answers (x >>= f) Q := by
  obtain ⟨a, rfl, ha⟩ := h
  exact hf a ha

theorem Answers.of_bind {f : α → Except ε β} {b : β} (h : x >>= f = .ok b) :
    ∃ a, x = .ok a ∧ f a = .ok b := by
  cases x with
  | error e => cases h
  | ok a => exact ⟨a, rfl, h⟩

theorem Answers.foldlM {f : β → α → Except ε β} (I : List α → β → Prop) {l : List α} {b : β}
    (h : I [] b)
    (hf : ∀ done a rest, l = done ++ a :: rest → ∀ b, I done b →
      Answers (f b a) (I (done ++ [a]))) :
    Answers (l.foldlM f b) (I l) := by
  suffices hrest : ∀ rest done b, l = done ++ rest → I done b →
      Answers (rest.foldlM f b) (I l) from hrest l [] b rfl h
  intro rest
  induction rest with
  | nil =>
    rintro done b rfl hI
    exact .pure (by simpa using hI)
  | cons a rest ih =>
    intro done b hl hI
    rw [List.foldlM_cons]
    exact (hf done a rest hl b hI).bind fun b hb => ih _ b (by simp [hl]) hb

theorem Answers.mapM {f : α → Except ε β} (R : α → β → Prop) :
    ∀ l : List α, (∀ a ∈ l, Answers (f a) (R a)) →
      Answers (l.mapM f) fun bs => List.Forall₂ R l bs
  | [], _ => by
    rw [List.mapM_nil]
    exact .pure .nil
  | a :: l, h => by
    rw [List.mapM_cons]
    refine (h a (by simp)).bind fun b hb => ?_
    refine (mapM R l fun a' ha' => h a' (by simp [ha'])).bind fun bs hbs => ?_
    exact .pure (.cons hb hbs)

theorem Answers.mapMArray {f : α → Except ε β} (R : α → β → Prop) (xs : Array α)
    (h : ∀ a ∈ xs.toList, Answers (f a) (R a)) :
    Answers (xs.mapM f) fun ys => List.Forall₂ R xs.toList ys.toList := by
  rw [Array.mapM_eq_mapM_toList, map_eq_pure_bind]
  exact (mapM R xs.toList h).bind fun ys hys => .pure hys

theorem Answers.anyM {f : α → Except ε Bool} :
    ∀ l : List α, (∀ a ∈ l, Answers (f a) fun _ => True) → Answers (l.anyM f) fun _ => True
  | [], _ => .pure trivial
  | a :: l, h => by
    rw [List.anyM_cons]
    refine (h a (by simp)).bind fun b _ => ?_
    cases b with
    | true => exact .pure trivial
    | false => exact anyM l fun a' ha' => h a' (by simp [ha'])

theorem Answers.filterM {f : α → Except ε Bool} {l : List α}
    (h : ∀ a ∈ l, Answers (f a) fun _ => True) : Answers (l.filterM f) fun _ => True := by
  suffices haux : ∀ (l acc : List α), (∀ a ∈ l, Answers (f a) fun _ => True) →
      Answers (List.filterAuxM f l acc) fun _ => True from
    (haux l [] h).bind fun _ _ => .pure trivial
  intro l
  induction l with
  | nil => exact fun _ _ => .pure trivial
  | cons a l ih =>
    intro acc h
    exact (h a (by simp)).bind fun b _ => ih _ fun a' ha' => h a' (by simp [ha'])

end

/-- An answer without effects, as a computation on diagrams. -/
theorem Returns.liftExcept {α : Type} [Preorder Diagram.Store] {x : Except Fault α}
    {s : Diagram.Store} {P : α → Diagram.Store → Prop} (h : Answers x (P · s)) :
    Returns (liftM x : Diagram.M α) s P := by
  obtain ⟨a, rfl, ha⟩ := h
  exact .pure ha

end RegularArithmetic
