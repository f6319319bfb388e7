import RegularArithmetic.Automaton.Projection
import RegularArithmetic.Proofs.Diagram.Substitution
import RegularArithmetic.Proofs.Automaton.Canonical
import RegularArithmetic.Proofs.Automaton.Determinization
import RegularArithmetic.Proofs.Automaton.ZeroPadding

/-!
Reading other propositions, and quantifying propositions away. Either operation changes the
labels so that a letter is taken if a letter related to it was taken before.
-/

set_option autoImplicit false

namespace RegularArithmetic.Automaton

open Diagram (Edge Assignment)

section

variable {a : Automaton} {ps : NumberSet}

theorem run_declaring (rule : Exploration.Rule) (c : List Nat) (bound : Nat) (qs : NumberSet) :
    Exploration.run rule c bound ps = (·.declaring ps) <$> Exploration.run rule c bound qs := by
  simp only [Exploration.run, map_bind, map_pure]
  rfl

theorem determinize_declaring :
    (a.declaring ps).determinize = (·.declaring ps) <$> a.determinize := by
  unfold determinize
  rw [map_bind]
  refine bind_congr fun b => ?_
  cases b with
  | true => rfl
  | false => exact run_declaring _ _ _ _

theorem trim_declaring : (a.declaring ps).trim = (·.declaring ps) <$> a.trim := by
  unfold trim
  rw [map_bind]
  refine bind_congr fun r => ?_
  rw [map_bind]
  refine bind_congr fun _ => ?_
  rw [map_bind]
  refine bind_congr fun useful => ?_
  split <;> rfl

theorem refineUntilStable_declaring (rounds : Nat) : ∀ blocks : Array Nat × Nat,
    (a.declaring ps).refineUntilStable rounds blocks = a.refineUntilStable rounds blocks := by
  induction rounds with
  | zero => exact fun _ => rfl
  | succ rounds ih =>
    intro (block, count)
    simp only [refineUntilStable, ih]
    rfl

theorem minimize_declaring : (a.declaring ps).minimize = (·.declaring ps) <$> a.minimize := by
  unfold minimize
  simp only [refineUntilStable_declaring, map_bind, map_pure]
  rfl

theorem reduce_declaring : (a.declaring ps).reduce = (·.declaring ps) <$> a.reduce := by
  unfold reduce
  rw [trim_declaring]
  cases a.trim with
  | error f => rfl
  | ok b => exact minimize_declaring

theorem finish_declaring : (a.declaring ps).finish = (·.declaring ps) <$> a.finish := by
  unfold finish
  rw [determinize_declaring, map_bind, bind_map_left]
  refine bind_congr fun b => ?_
  rw [reduce_declaring]
  funext x
  obtain ⟨diagrams, names, literals, budget⟩ := x
  simp only [liftM, monadLift, MonadLift.monadLift, Functor.map, EStateM.map]
  cases b.reduce diagrams <;> rfl

theorem saturate_declaring : (a.declaring ps).saturate = (·.declaring ps) <$> a.saturate := by
  unfold saturate
  simp only [map_bind, map_pure]
  rfl

end

section

variable {s t : Diagram.Store} {a b : Automaton} {V W : Set Nat} {L : Word → Prop}
  {M : Assignment → Assignment → Prop}

/-- A state that takes the letters that are related to those the other one takes. -/
structure Relabelled (s t : Diagram.Store) (V : Set Nat) (M : Assignment → Assignment → Prop)
    (st st' : State) : Prop where
  accepting : st'.accepting = st.accepting
  labels : ∀ m ∈ st'.moves, IsLabel t V m.label
  takes : ∀ l r, Takes t st'.moves l r ↔ ∃ l', M l l' ∧ Takes s st.moves l' r

theorem Relabelled.mono {st st' : State} {u : Diagram.Store} (ht : t.Sound) (htu : t ≤ u)
    (h : Relabelled s t V M st st') : Relabelled s u V M st st' where
  accepting := h.accepting
  labels m hm := (h.labels m hm).mono_store ht htu
  takes l r := (takes_mono ht htu h.labels).trans (h.takes l r)

section

variable (h : List.Forall₂ (Relabelled s t V M) a.states.toList b.states.toList)

include h

theorem exists_relabelled {q : Nat} {st : State} (hst : a.states[q]? = some st) :
    ∃ st', b.states[q]? = some st' ∧ Relabelled s t V M st st' := by
  obtain ⟨st', hst', hR⟩ := forall₂_getElem? h (by rw [Array.getElem?_toList, hst])
  exact ⟨st', by rwa [Array.getElem?_toList] at hst', hR⟩

theorem exists_of_relabelled {q : Nat} {st' : State} (hst' : b.states[q]? = some st') :
    ∃ st, a.states[q]? = some st ∧ Relabelled s t V M st st' := by
  obtain ⟨st, hst, hR⟩ := forall₂_getElem? h.flip (by rw [Array.getElem?_toList, hst'])
  exact ⟨st, by rwa [Array.getElem?_toList] at hst, hR⟩

theorem step_of_relabelled {q r : Nat} {l : Assignment} :
    Step t b q l r ↔ ∃ l', M l l' ∧ Step s a q l' r := by
  constructor
  · rintro ⟨m, ⟨st', hst', hm⟩, hl, rfl⟩
    obtain ⟨st, hst, hR⟩ := exists_of_relabelled h hst'
    obtain ⟨l', hM, htakes⟩ := (hR.takes l m.target).1 ⟨m, hm, hl, rfl⟩
    exact ⟨l', hM, (step_iff_takes hst).2 htakes⟩
  · rintro ⟨l', hM, m, ⟨st, hst, hm⟩, hl, rfl⟩
    obtain ⟨st', hst', hR⟩ := exists_relabelled h hst
    exact (step_iff_takes hst').2 ((hR.takes l _).2 ⟨l', hM, m, hm, hl, rfl⟩)

theorem acceptsFrom_of_relabelled (w : Word) :
    ∀ q, AcceptsFrom t b q w ↔ ∃ w', List.Forall₂ M w w' ∧ AcceptsFrom s a q w' := by
  induction w with
  | nil =>
    intro q
    simp only [List.forall₂_nil_left_iff, exists_eq_left, AcceptsFrom]
    constructor
    · rintro ⟨st', hst', haccepting⟩
      obtain ⟨st, hst, hR⟩ := exists_of_relabelled h hst'
      exact ⟨st, hst, hR.accepting ▸ haccepting⟩
    · rintro ⟨st, hst, haccepting⟩
      obtain ⟨st', hst', hR⟩ := exists_relabelled h hst
      exact ⟨st', hst', hR.accepting ▸ haccepting⟩
  | cons l w ih =>
    intro q
    simp only [AcceptsFrom, step_of_relabelled h, ih, List.forall₂_cons_left_iff]
    constructor
    · rintro ⟨r, ⟨l', hM, hr⟩, w', hw, haccepts⟩
      exact ⟨l' :: w', ⟨l', w', hM, hw, rfl⟩, r, hr, haccepts⟩
    · rintro ⟨_, ⟨l', w', hM, hw, rfl⟩, r, hr, haccepts⟩
      exact ⟨r, ⟨l', hM, hr⟩, w', hw, haccepts⟩

theorem formed_of_relabelled (ha : a.Formed s) (ht : t.Sound) :
    b.Formed t ∧ ∀ q m, b.HasMove q m → DependsOn V (t.value m.label) := by
  have hsize : b.size = a.size := by simpa [size] using h.length_eq.symm
  have hlabel : ∀ q m, b.HasMove q m → IsLabel t V m.label ∧ m.target < b.size := by
    rintro q m ⟨st', hst', hm⟩
    obtain ⟨st, hst, hR⟩ := exists_of_relabelled h hst'
    obtain ⟨l, hl⟩ := (hR.labels m hm).exists_value ht
    obtain ⟨l', -, htakes⟩ := (hR.takes l m.target).1 ⟨m, hm, hl, rfl⟩
    exact ⟨hR.labels m hm, hsize ▸ Step.lt ha ((step_iff_takes hst).2 htakes)⟩
  exact ⟨⟨hsize ▸ ha.nonempty, fun q m hm => (hlabel q m hm).2,
    fun q m hm => (hlabel q m hm).1.valid, fun q m hm => (hlabel q m hm).1.ne_zero⟩,
    fun q m hm => (hlabel q m hm).1.depends⟩

end

theorem Recognizes.isLabel_of_mem (ha : a.Recognizes s V L) {st : State}
    (hst : st ∈ a.states.toList) {m : Move} (hm : m ∈ st.moves) : IsLabel s V m.label := by
  obtain ⟨q, hq⟩ := Array.mem_iff_getElem?.1 (Array.mem_toList_iff.1 hst)
  exact ha.isLabel ((hasMove_iff hq).2 hm)

theorem DependsOn.renamed {φ : Assignment → Bool} (h : DependsOn V φ) (ρ : Nat → Nat) :
    DependsOn (ρ '' V) (Diagram.renamed ρ φ) :=
  fun _ _ hστ => h _ _ fun p hp => hστ (ρ p) ⟨p, hp, rfl⟩

theorem yields_renameState (hs : s.Sound) {st : State} (hst : ∀ m ∈ st.moves, IsLabel s V m.label)
    (ρ : Nat → Nat) :
    Yields (do
      let moves ← st.moves.mapM fun m => return ⟨m.target, ← Diagram.rename ρ m.label⟩
      return { st with moves := moves.filter (·.label ≠ .zero) } : Diagram.M State) s fun st' t =>
        Relabelled s t (ρ '' V) (fun l l' => l' = l ∘ ρ) st st' := by
  let Renamed (m m' : Move) (t : Diagram.Store) : Prop := s ≤ t ∧ m'.target = m.target ∧
    t.Denotes m'.label (Diagram.renamed ρ (s.value m.label))
  have hmono : ∀ m m' t u, t ≤ u → Renamed m m' t → Renamed m m' u :=
    fun m m' t u htu ⟨hle, htarget, hm'⟩ => ⟨le_trans hle htu, htarget, hm'.mono (hs.mono hle) htu⟩
  refine (Yields.mapM Renamed hmono st.moves s fun m hm t hle => ?_).bind
    fun ms t hle hms => .pure ⟨rfl, fun m' hm' => ?_, fun l r => ?_⟩
  · exact (Diagram.yields_rename (hs.mono hle) ρ ((hst m hm).valid.denotes.mono hs hle)).bind
      fun e u htu he => .pure ⟨le_trans hle htu, rfl, he⟩
  · obtain ⟨hm', hz⟩ := List.mem_filter.1 hm'
    obtain ⟨m, hm, -, -, hdenotes⟩ := exists_mem_of_forall₂ hms.flip hm'
    exact ⟨hdenotes.valid, of_decide_eq_true hz,
      hdenotes.value_eq ▸ (hst m hm).depends.renamed ρ⟩
  · simp only [exists_eq_left]
    constructor
    · rintro ⟨m', hm', hl, rfl⟩
      obtain ⟨m, hm, -, htarget, hdenotes⟩ :=
        exists_mem_of_forall₂ hms.flip (List.mem_filter.1 hm').1
      rw [hdenotes.value_eq] at hl
      exact ⟨m, hm, hl, htarget.symm⟩
    · rintro ⟨m, hm, hl, rfl⟩
      obtain ⟨m', hm', -, htarget, hdenotes⟩ := exists_mem_of_forall₂ hms hm
      have hl' : t.value m'.label l = true := by
        rw [hdenotes.value_eq]
        exact hl
      have hz : m'.label ≠ .zero := fun hz => by simp [hz] at hl'
      exact ⟨m', List.mem_filter.2 ⟨hm', by simpa using hz⟩, hl', htarget⟩

theorem forall₂_eq_map {α β : Type} {f : α → β} {l : List α} {l' : List β} :
    List.Forall₂ (fun a b => b = f a) l l' ↔ l' = l.map f := by
  constructor
  · intro h
    induction h with
    | nil => rfl
    | cons hab _ ih => rw [hab, ih, List.map_cons]
  · rintro rfl
    induction l with
    | nil => exact .nil
    | cons a l ih => exact .cons rfl ih

theorem yields_renameStates (hs : s.Sound) (ha : a.Recognizes s V L) (ρ : Nat → Nat) :
    Yields (a.states.mapM fun st => (do
      let moves ← st.moves.mapM fun m => return ⟨m.target, ← Diagram.rename ρ m.label⟩
      return { st with moves := moves.filter (·.label ≠ .zero) } : Diagram.M State)) s
      fun states t => Recognizes t ⟨states, a.props.image ρ⟩ (ρ '' V) fun w =>
        L (w.map (· ∘ ρ)) := by
  refine (Yields.mapMArray (fun st st' t => s ≤ t ∧
    Relabelled s t (ρ '' V) (fun l l' => l' = l ∘ ρ) st st') ?_ a.states s
    fun st hst t hle => ?_).mono fun states t hle hstates => ?_
  · exact fun st st' t u htu ⟨hle, h⟩ => ⟨le_trans hle htu, h.mono (hs.mono hle) htu⟩
  · have hlabels := fun m hm => ha.isLabel_of_mem hst (m := m) hm
    refine (yields_renameState (hs.mono hle) (fun m hm => (hlabels m hm).mono_store hs hle) ρ).mono
      fun st' u htu h => ⟨le_trans hle htu, h.accepting, h.labels, fun l r => ?_⟩
    simpa only [exists_eq_left, takes_mono hs hle hlabels] using h.takes l r
  · have ht := hs.mono hle
    have hrelabelled := hstates.imp fun st st' h => h.2
    obtain ⟨hformed, hreads⟩ := formed_of_relabelled (b := ⟨states, a.props.image ρ⟩)
      hrelabelled ha.formed ht
    have hstep := @step_of_relabelled _ _ _ ⟨states, a.props.image ρ⟩ _ _ hrelabelled
    have haccepts := acceptsFrom_of_relabelled (b := ⟨states, a.props.image ρ⟩) hrelabelled
    refine ⟨hformed, fun q l r r' hr hr' => ?_, ⟨hreads, fun p hp => ?_⟩, fun w => ?_⟩
    · simp only [hstep, exists_eq_left] at hr hr'
      exact ha.deterministic q _ r r' hr hr'
    · obtain ⟨q, hq, rfl⟩ := NumberSet.mem_image.1 hp
      exact ⟨q, ha.reads.props q hq, rfl⟩
    · rw [Accepts, haccepts]
      simp only [forall₂_eq_map, exists_eq_left]
      exact ha.accepts _

theorem yields_rename (hs : s.Sound) (ha : a.Recognizes s V L) (ρ : Nat → Nat) :
    Yields (a.rename ρ) s fun b t => b.Recognizes t (ρ '' V) fun w => L (w.map (· ∘ ρ)) := by
  unfold rename
  exact (yields_renameStates hs ha ρ).bind fun states t hle hstates =>
    yields_reduce (hs.mono hle) hstates

theorem returns_renameStates (hs : s.Sound) (ha : a.Recognizes s V L) {ρ : Nat → Nat}
    (hρ : ∀ p ≠ 0, ρ p ≠ 0) :
    Returns (a.states.mapM fun st => (do
      let moves ← st.moves.mapM fun m => return ⟨m.target, ← Diagram.rename ρ m.label⟩
      return { st with moves := moves.filter (·.label ≠ .zero) } : Diagram.M State)) s
      fun states t => Recognizes t ⟨states, a.props.image ρ⟩ (ρ '' V) fun w =>
        L (w.map (· ∘ ρ)) := by
  apply Succeeds.returns _ (yields_renameStates hs ha ρ)
  apply Succeeds.mapMArray
  intro st hst t hle
  have ht := hs.mono hle
  refine (Returns.mapM_keeping (I := fun u => t ≤ u) (fun _ _ _ => True)
    (fun _ _ _ _ _ _ => trivial) st.moves t le_rfl fun m hm u htu _ => ?_).bind
      fun _ _ _ _ => .pure trivial
  have hm := ((ha.isLabel_of_mem hst hm).valid.mono hle).mono htu
  exact (Diagram.returns_rename (ht.mono htu) hρ hm.denotes).bind fun _ _ huv _ =>
    .pure ⟨le_trans htu huv, trivial⟩

theorem returns_rename (hs : s.Sound) (ha : a.Recognizes s V L) {ρ : Nat → Nat}
    (hρ : ∀ p ≠ 0, ρ p ≠ 0) :
    Returns (a.rename ρ) s fun b t =>
      b.Simple ∧ b.Recognizes t (ρ '' V) fun w => L (w.map (· ∘ ρ)) := by
  unfold rename
  apply (returns_renameStates hs ha hρ).bind
  intro states t hle hstates
  apply (returns_reduce (hs.mono hle) hstates).mono
  intro b _ _ hb
  exact ⟨hb.2.1, hb.1⟩

theorem yields_changeLabels (hs : s.Sound) {st : State}
    (hst : ∀ m ∈ st.moves, IsLabel s V m.label) {f : Edge → Diagram.M Edge}
    {change : (Assignment → Bool) → Assignment → Bool}
    (hf : ∀ e φ t, s ≤ t → t.Denotes e φ → Yields (f e) t fun r u => u.Denotes r (change φ))
    (hchange : ∀ φ l, change φ l = true ↔ ∃ l', M l l' ∧ φ l' = true)
    (hW : ∀ φ, DependsOn V φ → DependsOn W (change φ)) :
    Yields (do
      let moves ← st.moves.foldlM (fun acc m => do merge acc ⟨m.target, ← f m.label⟩) []
      return { st with moves } : Diagram.M State) s fun st' t => Relabelled s t W M st st' := by
  refine (yields_mergeAll Move.target (fun m => change (s.value m.label))
    fun m hm t hle ms hms => ?_).bind fun ms t hle ⟨hms, htakes⟩ => .pure ⟨rfl, hms, fun l r => ?_⟩
  · have ht := hs.mono hle
    refine (hf m.label _ t hle ((hst m hm).valid.denotes.mono hs hle)).bind fun e u htu he => ?_
    have hms' := fun n hn => (hms n hn).mono_store ht htu
    refine (yields_merge (m := ⟨m.target, e⟩) (ht.mono htu) hms' he.valid ?_).mono
      fun ms' v huv ⟨hms'', htakes⟩ => ⟨hms'', fun l r => ?_⟩
    · rw [he.value_eq]
      exact hW _ (hst m hm).depends
    · rw [htakes, takes_mono ht htu hms, he.value_eq]
  · refine (htakes l r).trans ?_
    simp only [hchange, Takes]
    constructor
    · rintro ⟨m, hm, ⟨l', hM, hl⟩, rfl⟩
      exact ⟨l', hM, m, hm, hl, rfl⟩
    · rintro ⟨l', hM, m, hm, hl, rfl⟩
      exact ⟨m, hm, ⟨l', hM, hl⟩, rfl⟩

theorem returns_changeLabels (hs : s.Sound) {st : State}
    (hst : ∀ m ∈ st.moves, IsLabel s V m.label) {f : Edge → Diagram.M Edge}
    {change : (Assignment → Bool) → Assignment → Bool}
    (hf : ∀ e φ t, s ≤ t → t.Denotes e φ → Returns (f e) t fun r u => u.Denotes r (change φ))
    (hchange : ∀ φ l, change φ l = true ↔ ∃ l', M l l' ∧ φ l' = true)
    (hW : ∀ φ, DependsOn V φ → DependsOn W (change φ)) :
    Returns (do
      let moves ← st.moves.foldlM (fun acc m => do merge acc ⟨m.target, ← f m.label⟩) []
      return { st with moves } : Diagram.M State) s fun st' t => Relabelled s t W M st st' := by
  refine Succeeds.returns ?_
    (yields_changeLabels hs hst (fun e φ t ht he => (hf e φ t ht he).yields) hchange hW)
  let Kept (ms : List Move) (t : Diagram.Store) : Prop := s ≤ t ∧
    (∀ n ∈ ms, IsLabel t Set.univ n.label) ∧ (ms.map (·.target)).Nodup
  refine Succeeds.bind_pure (Returns.succeeds (P := Kept) ?_)
  refine Returns.foldlM (fun _ => Kept) ⟨le_rfl, by simp, by simp⟩ ?_
  rintro done m rest hl ms t ⟨hle, hms, hnodup⟩
  have ht := hs.mono hle
  have hm := (hst m (by simp [hl])).valid.denotes.mono hs hle
  refine (hf m.label _ t hle hm).bind fun e u htu he => ?_
  refine (returns_merge (m := ⟨m.target, e⟩) (ht.mono htu)
    (fun n hn => (hms n hn).mono_store ht htu) he.valid (dependsOn_univ _) hnodup).mono
      fun ms' v huv hms' => ⟨le_trans (le_trans hle htu) huv, hms'.1.1, hms'.2⟩

/-- Apart from what it declares, the automaton reads `W` only, and recognizes `L`. -/
def ReadsBut (s : Diagram.Store) (a : Automaton) (ps : NumberSet) (W : Set Nat)
    (L : Word → Prop) : Prop :=
  a.props = ps ∧ (a.declaring ∅).Recognizes s W L

theorem Recognizes.readsBut (h : a.Recognizes s W L) (ps : NumberSet) :
    ReadsBut s (a.declaring ps) ps W L :=
  ⟨rfl, show (a.declaring ∅).Recognizes s W L from h.declaring (by simp)⟩

theorem ReadsBut.eq_declaring {ps : NumberSet} (h : ReadsBut s a ps W L) :
    a = (a.declaring ∅).declaring ps := by
  rw [← h.1]
  rfl

section

variable {x : Alphabet} {f : Edge → Diagram.M Edge}
  {change : (Assignment → Bool) → Assignment → Bool}

theorem yields_changeStates (hs : x.diagrams.Sound) (ha : a.Recognizes x.diagrams V L)
    (hf : ∀ e φ t, x.diagrams ≤ t → t.Denotes e φ →
      Yields (f e) t fun r u => u.Denotes r (change φ))
    (hchange : ∀ φ l, change φ l = true ↔ ∃ l', M l l' ∧ φ l' = true)
    (hW : ∀ φ, DependsOn V φ → DependsOn W (change φ)) :
    Yields (a.states.mapM fun st => (liftM (do
      let moves ← st.moves.foldlM (fun acc m => do merge acc ⟨m.target, ← f m.label⟩) []
      return { st with moves } : Diagram.M State) : Alphabet.M State)) x fun states y =>
        List.Forall₂ (Relabelled x.diagrams y.diagrams W M) a.states.toList states.toList := by
  refine (Yields.mapMArray (fun st st' (y : Alphabet) => x.diagrams ≤ y.diagrams ∧
    Relabelled x.diagrams y.diagrams W M st st') ?_ a.states x fun st hst y hle => ?_).mono
      fun states y _ hstates => hstates.imp fun _ _ h => h.2
  · exact fun st st' y z hyz ⟨hle, h⟩ => ⟨le_trans hle hyz.1, h.mono (hs.mono hle) hyz.1⟩
  · have hlabels := fun m hm => ha.isLabel_of_mem hst (m := m) hm
    refine (Yields.liftDiagram (yields_changeLabels (hs.mono hle.1)
      (fun m hm => (hlabels m hm).mono_store hs hle.1)
      (fun e φ t ht he => hf e φ t (le_trans hle.1 ht) he) hchange hW)).mono
        fun st' z hyz h => ⟨le_trans hle.1 hyz.1, h.accepting, h.labels, fun l r => ?_⟩
    simpa only [takes_mono hs hle.1 hlabels] using h.takes l r

theorem returns_changeStates (hs : x.diagrams.Sound) (hbudget : x.budget = none)
    (ha : a.Recognizes x.diagrams V L)
    (hf : ∀ e φ t, x.diagrams ≤ t → t.Denotes e φ →
      Returns (f e) t fun r u => u.Denotes r (change φ))
    (hchange : ∀ φ l, change φ l = true ↔ ∃ l', M l l' ∧ φ l' = true)
    (hW : ∀ φ, DependsOn V φ → DependsOn W (change φ)) :
    Returns (a.states.mapM fun st => (liftM (do
      let moves ← st.moves.foldlM (fun acc m => do merge acc ⟨m.target, ← f m.label⟩) []
      return { st with moves } : Diagram.M State) : Alphabet.M State)) x fun states y =>
        y.budget = none ∧
        List.Forall₂ (Relabelled x.diagrams y.diagrams W M) a.states.toList states.toList := by
  refine Returns.and (P := fun _ y => y.budget = none) ?_
    (yields_changeStates hs ha (fun e φ t ht he => (hf e φ t ht he).yields) hchange hW)
  refine (Returns.mapMArray_keeping (I := fun y => y.budget = none) (fun _ _ _ => True)
    (fun _ _ _ _ _ h => h) hbudget fun st hst y hle hy => ?_).mono fun _ _ _ h => h.1
  have hlabels := fun m hm => (ha.isLabel_of_mem hst (m := m) hm).mono_store hs hle.1
  exact (Returns.liftDiagram (returns_changeLabels (hs.mono hle.1) hlabels
    (fun e φ t ht he => hf e φ t (le_trans hle.1 ht) he) hchange hW)).mono
      fun st' z _ h => ⟨h.2.trans hy, trivial⟩

theorem readsBut_of_relabelled {states : Array State}
    (h : List.Forall₂ (Relabelled s t W M) a.states.toList states.toList) (ha : a.Recognizes s V L)
    {u : Diagram.Store} (hb : b.Recognizes u W (Accepts t ⟨states, ∅⟩)) :
    ReadsBut u (b.declaring a.props) a.props W fun w => ∃ w', List.Forall₂ M w w' ∧ L w' := by
  refine (hb.congr fun w => ?_).readsBut _
  rw [Accepts, acceptsFrom_of_relabelled h]
  exact exists_congr fun w' => and_congr_right fun _ => ha.accepts w'

theorem yields_mapLabels (hs : x.diagrams.Sound) (ha : a.Recognizes x.diagrams V L)
    (hf : ∀ e φ t, x.diagrams ≤ t → t.Denotes e φ →
      Yields (f e) t fun r u => u.Denotes r (change φ))
    (hchange : ∀ φ l, change φ l = true ↔ ∃ l', M l l' ∧ φ l' = true)
    (hW : ∀ φ, DependsOn V φ → DependsOn W (change φ)) :
    Yields (a.mapLabels f) x fun b y => ReadsBut y.diagrams b a.props W
      fun w => ∃ w', List.Forall₂ M w w' ∧ L w' := by
  unfold mapLabels
  refine (yields_changeStates hs ha hf hchange hW).bind fun states y hle hstates => ?_
  have hy := hs.mono hle.1
  obtain ⟨hformed, hreads⟩ := formed_of_relabelled (b := ⟨states, ∅⟩) hstates ha.formed hy
  rw [show (⟨states, a.props⟩ : Automaton) = declaring ⟨states, ∅⟩ a.props from rfl,
    finish_declaring]
  exact (yields_finish hy hformed ⟨hreads, by simp⟩).map fun b z _ hb =>
    readsBut_of_relabelled hstates ha hb

theorem returns_mapLabels (hs : x.diagrams.Sound) (hbudget : x.budget = none)
    (ha : a.Recognizes x.diagrams V L)
    (hf : ∀ e φ t, x.diagrams ≤ t → t.Denotes e φ →
      Returns (f e) t fun r u => u.Denotes r (change φ))
    (hchange : ∀ φ l, change φ l = true ↔ ∃ l', M l l' ∧ φ l' = true)
    (hW : ∀ φ, DependsOn V φ → DependsOn W (change φ)) :
    Returns (a.mapLabels f) x fun b y => y.budget = none ∧ ReadsBut y.diagrams b a.props W
      fun w => ∃ w', List.Forall₂ M w w' ∧ L w' := by
  unfold mapLabels
  refine (returns_changeStates hs hbudget ha hf hchange hW).bind fun states y hle hstates => ?_
  obtain ⟨hbudget', hstates⟩ := hstates
  have hy := hs.mono hle.1
  obtain ⟨hformed, hreads⟩ := formed_of_relabelled (b := ⟨states, ∅⟩) hstates ha.formed hy
  rw [show (⟨states, a.props⟩ : Automaton) = declaring ⟨states, ∅⟩ a.props from rfl,
    finish_declaring]
  exact (returns_finish hy hbudget' hformed ⟨hreads, by simp⟩).map fun b z _ hb =>
    ⟨hb.1, readsBut_of_relabelled hstates ha hb.2⟩

end

end

section

variable {a : Automaton} {V : Set Nat} {L : Word → Prop}

/-- The letters agree on all propositions that are not among `ps`. -/
def AgreeOff (ps : List Nat) (l l' : Assignment) : Prop := ∀ p, p ∉ ps → l' p = l p

theorem DependsOn.someOf {φ : Assignment → Bool} (h : DependsOn V φ) (ps : List Nat) :
    DependsOn (V \ {p | p ∈ ps}) (Diagram.someOf φ ps) := by
  classical
  have hone : ∀ σ τ : Assignment, (∀ p ∈ V \ {p | p ∈ ps}, σ p = τ p) →
      Diagram.someOf φ ps σ = true → Diagram.someOf φ ps τ = true := by
    intro σ τ hστ hσ
    obtain ⟨σ', hσ', hφ⟩ := (Diagram.someOf_iff ps φ σ).1 hσ
    refine (Diagram.someOf_iff ps φ τ).2 ⟨fun p => if p ∈ ps then σ' p else τ p,
      fun p hp => if_neg hp, ?_⟩
    rw [← hφ]
    refine h _ _ fun p hp => ?_
    by_cases hps : p ∈ ps
    · rw [if_pos hps]
    · rw [if_neg hps, hσ' p hps, hστ p ⟨hp, hps⟩]
  intro σ τ hστ
  exact Bool.eq_iff_iff.2 ⟨hone σ τ hστ, hone τ σ fun p hp => (hστ p hp).symm⟩

/-- What is accepted after quantifying propositions: a word that, made longer by all-false
letters and changed at those propositions, was accepted before. -/
def Projected (L : Word → Prop) (ps : List Nat) (w : Word) : Prop :=
  ∃ k w', List.Forall₂ (AgreeOff ps) (w ++ padding k) w' ∧ L w'

theorem yields_reduced_project {x : Alphabet} (hs : x.diagrams.Sound)
    (ha : a.Recognizes x.diagrams V L) {ps : NumberSet} (hps : ps.isEmpty = false) :
    Yields (a.project ps) x fun b y =>
      b.Recognizes y.diagrams (V \ {p | p ∈ ps}) (Projected L ps.toList) ∧
        b.Reduced y.diagrams := by
  unfold project
  rw [if_neg (by simp [hps])]
  refine (yields_mapLabels (M := AgreeOff ps.toList) (W := V \ {p | p ∈ ps.toList}) hs ha
    (fun e φ t ht he => Diagram.yields_forSome (hs.mono ht) he ps.toList)
    (fun φ l => Diagram.someOf_iff ps.toList φ l) fun φ hφ => hφ.someOf ps.toList).bind
      fun b y hxy hb => ?_
  let Result (c : Automaton) (t : Diagram.Store) : Prop :=
    ReadsBut t c a.props (V \ {p | p ∈ ps}) (Projected L ps.toList)
  rw [hb.eq_declaring, saturate_declaring]
  have hy := hs.mono hxy.1
  refine (Yields.liftDiagram ((returns_saturate hy hb.2).yields.map (Q := Result)
    fun c t _ hc => hc.readsBut a.props)).bind fun c z hyz hc => ?_
  rw [hc.eq_declaring, reduce_declaring]
  refine (Yields.liftDiagram ((returns_reduced (hy.mono hyz.1) hc.2).yields.map
    (Q := fun d t => Result d t ∧ d.Reduced t) fun d t _ hd =>
      ⟨hd.1.readsBut a.props, hd.2.declaring a.props⟩)).bind fun d u _ ⟨hd, hreduced⟩ => .pure ?_
  refine ⟨hd.2.declaring fun p hp => ?_, hreduced.declaring _⟩
  rw [hd.1] at hp
  exact ⟨ha.reads.props p (NumberSet.mem_diff.1 hp).1, (NumberSet.mem_diff.1 hp).2⟩

theorem yields_project {x : Alphabet} (hs : x.diagrams.Sound) (ha : a.Recognizes x.diagrams V L)
    {ps : NumberSet} (hps : ps.isEmpty = false) :
    Yields (a.project ps) x fun b y =>
      b.Recognizes y.diagrams (V \ {p | p ∈ ps}) (Projected L ps.toList) :=
  (yields_reduced_project hs ha hps).mono fun _ _ _ hb => hb.1

theorem returns_project {x : Alphabet} (hs : x.diagrams.Sound) (hbudget : x.budget = none)
    (ha : a.Recognizes x.diagrams V L) {ps : NumberSet} (hps : ps.isEmpty = false)
    (hpositive : ∀ p ∈ ps, p ≠ 0) :
    Returns (a.project ps) x fun b y => (b.props = a.props.diff ps ∧ b.Simple) ∧
      b.Recognizes y.diagrams (V \ {p | p ∈ ps}) (Projected L ps.toList) := by
  refine Returns.and ?_ (yields_project hs ha hps)
  unfold project
  rw [if_neg (by simp [hps])]
  refine (returns_mapLabels (M := AgreeOff ps.toList) (W := V \ {p | p ∈ ps.toList}) hs hbudget ha
    (fun e φ t ht he => Diagram.returns_forSome (hs.mono ht) he hpositive)
    (fun φ l => Diagram.someOf_iff ps.toList φ l) fun φ hφ => hφ.someOf ps.toList).bind
      fun b y hxy ⟨hbudget', hb⟩ => ?_
  have hy := hs.mono hxy.1
  rw [hb.eq_declaring, saturate_declaring]
  refine (Returns.liftDiagram ((returns_saturate hy hb.2).map (Q := fun c t =>
    ReadsBut t c a.props (V \ {p | p ∈ ps}) (Projected L ps.toList))
    fun c t _ hc => hc.readsBut a.props)).bind fun c z hyz ⟨hc, hz⟩ => ?_
  rw [hc.eq_declaring, reduce_declaring]
  refine (Returns.liftDiagram ((returns_reduce (hy.mono hyz.1) hc.2).map (Q := fun d _ =>
    d.props = a.props ∧ d.Simple) fun d t _ hd => ⟨rfl, hd.2.1⟩)).bind fun d u _ ⟨hd, _⟩ => ?_
  exact .pure ⟨by rw [hd.1], hd.2⟩

theorem project_of_isEmpty {ps : NumberSet} (hps : ps.isEmpty = true) :
    a.project ps = pure a := if_pos hps

end

end RegularArithmetic.Automaton
