import Mathlib.Data.List.TakeDrop
import Mathlib.Data.List.TakeWhile
import Mathlib.Data.List.Perm.Basic
import RegularArithmetic.Automaton.Reduction
import RegularArithmetic.Proofs.Automaton.Language
import RegularArithmetic.Proofs.Diagram.Totality

/-!
Lists of moves and of labels by key, to which one more is added by widening a label that is
there. Whatever the list looks like, it takes the letters that it took before, and those of the
label that was added.
-/

set_option autoImplicit false

namespace RegularArithmetic

open Diagram (Edge Assignment)

open Diagram.Store (Denotes)

variable {s t : Diagram.Store} {V : Set Nat} {e : Edge} {φ : Assignment → Bool}

/-- A satisfiable label about propositions in `V`. -/
structure IsLabel (s : Diagram.Store) (V : Set Nat) (e : Edge) : Prop where
  valid : s.Valid e
  ne_zero : e ≠ .zero
  depends : Automaton.DependsOn V (s.value e)

theorem IsLabel.of_denotes (hs : s.Sound) (he : s.Denotes e φ) (hφ : ∃ σ, φ σ = true)
    (hV : Automaton.DependsOn V φ) : IsLabel s V e where
  valid := he.valid
  ne_zero hz := by
    obtain ⟨σ, hσ⟩ := hφ
    rw [(he.eq_zero_iff hs).1 hz σ] at hσ
    cases hσ
  depends := he.value_eq ▸ hV

theorem IsLabel.mono_store (h : IsLabel s V e) (hs : s.Sound) (hst : s ≤ t) : IsLabel t V e where
  valid := h.valid.mono hst
  ne_zero := h.ne_zero
  depends := by
    rw [hs.value_mono hst h.valid]
    exact h.depends

theorem IsLabel.exists_value (h : IsLabel s V e) (hs : s.Sound) : ∃ σ, s.value e σ = true :=
  hs.exists_value h.valid h.ne_zero

theorem Automaton.DependsOn.or {φ ψ : Assignment → Bool} (h : DependsOn V φ)
    (h' : DependsOn V ψ) : DependsOn V fun σ => φ σ || ψ σ :=
  fun σ τ hστ => by simp only [h σ τ hστ, h' σ τ hστ]

theorem Automaton.DependsOn.and {φ ψ : Assignment → Bool} (h : DependsOn V φ)
    (h' : DependsOn V ψ) : DependsOn V fun σ => φ σ && ψ σ :=
  fun σ τ hστ => by simp only [h σ τ hστ, h' σ τ hστ]

theorem Automaton.DependsOn.not {φ : Assignment → Bool} (h : DependsOn V φ) :
    DependsOn V fun σ => !φ σ :=
  fun σ τ hστ => by simp only [h σ τ hστ]

theorem yields_disj_label (hs : s.Sound) {f : Edge} (he : IsLabel s V e) (hf : IsLabel s V f) :
    Yields (Diagram.disj e f) s fun r t =>
      IsLabel t V r ∧ t.value r = fun σ => s.value e σ || s.value f σ := by
  refine (Diagram.yields_disj hs he.valid.denotes hf.valid.denotes).mono fun r t hst hr => ?_
  obtain ⟨σ, hσ⟩ := he.exists_value hs
  exact ⟨.of_denotes (hs.mono hst) hr ⟨σ, by rw [hσ, Bool.true_or]⟩ (he.depends.or hf.depends),
    hr.value_eq⟩

theorem returns_disj_label (hs : s.Sound) {f : Edge} (he : IsLabel s V e) (hf : IsLabel s V f) :
    Returns (Diagram.disj e f) s fun r t =>
      IsLabel t V r ∧ t.value r = fun σ => s.value e σ || s.value f σ :=
  (Diagram.returns_disj hs he.valid.denotes hf.valid.denotes).succeeds.returns
    (yields_disj_label hs he hf)

namespace Automaton

theorem Recognizes.isLabel {a : Automaton} {L : Word → Prop} (h : a.Recognizes s V L) {q : Nat}
    {m : Move} (hm : a.HasMove q m) : IsLabel s V m.label :=
  ⟨h.formed.valid q m hm, h.formed.satisfiable q m hm, h.reads.labels q m hm⟩

def Takes (s : Diagram.Store) (ms : List Move) (l : Assignment) (r : Nat) : Prop :=
  ∃ m ∈ ms, s.value m.label l = true ∧ m.target = r

theorem step_iff_takes {a : Automaton} {q : Nat} {st : State} (h : a.states[q]? = some st)
    {l : Assignment} {r : Nat} : Step s a q l r ↔ Takes s st.moves l r := by
  simp only [Step, Takes, hasMove_iff h]

theorem takes_mono (hs : s.Sound) (hst : s ≤ t) {ms : List Move}
    (h : ∀ m ∈ ms, IsLabel s V m.label) {l : Assignment} {r : Nat} :
    Takes t ms l r ↔ Takes s ms l r := by
  simp only [Takes]
  exact exists_congr fun m => and_congr_right fun hm => by
    rw [hs.value_mono hst (h m hm).valid]

theorem yields_merge (hs : s.Sound) {ms : List Move} {m : Move}
    (hms : ∀ n ∈ ms, IsLabel s V n.label) (hm : s.Valid m.label)
    (hV : DependsOn V (s.value m.label)) :
    Yields (merge ms m) s fun ms' t => (∀ n ∈ ms', IsLabel t V n.label) ∧
      ∀ l r, Takes t ms' l r ↔ Takes s ms l r ∨ s.value m.label l = true ∧ m.target = r := by
  unfold merge
  by_cases hz : m.label = .zero
  · rw [if_pos hz]
    refine .pure ⟨hms, fun l r => ?_⟩
    simp [hz]
  rw [if_neg hz]
  have hm : IsLabel s V m.label := ⟨hm, hz, hV⟩
  rw [List.span_eq_takeWhile_dropWhile]
  cases hdrop : ms.dropWhile (·.target ≠ m.target) with
  | nil =>
    refine .pure ⟨fun n hn => ?_, fun l r => ?_⟩
    · rcases List.mem_append.1 hn with hn | hn
      · exact hms n hn
      · rwa [List.mem_singleton.1 hn]
    · simp [Takes, or_and_right, exists_or]
  | cons n behind =>
    have htarget : n.target = m.target := by
      have hhead := List.head_dropWhile_not (fun x : Move => decide (x.target ≠ m.target))
        (l := ms) (by rw [hdrop]; simp)
      simp only [hdrop, List.head_cons] at hhead
      simpa using hhead
    have hsplit : ms = ms.takeWhile (·.target ≠ m.target) ++ n :: behind := by
      rw [← hdrop, List.takeWhile_append_dropWhile]
    generalize ms.takeWhile (·.target ≠ m.target) = before at hsplit ⊢
    subst hsplit
    refine (yields_disj_label hs (hms n (by simp)) hm).bind fun e t hst ⟨he, hvalue⟩ => ?_
    have hbefore : ∀ n ∈ before, IsLabel s V n.label := fun n hn => hms n (by simp [hn])
    have hbehind : ∀ n ∈ behind, IsLabel s V n.label := fun n hn => hms n (by simp [hn])
    refine .pure ⟨fun n' hn' => ?_, fun l r => ?_⟩
    · rcases List.mem_append.1 hn' with hn' | hn'
      · exact (hbefore n' hn').mono_store hs hst
      · rcases List.mem_cons.1 hn' with rfl | hn'
        · exact he
        · exact (hbehind n' hn').mono_store hs hst
    · have h1 := takes_mono hs hst hbefore (l := l) (r := r)
      have h2 := takes_mono hs hst hbehind (l := l) (r := r)
      simp only [Takes] at h1 h2
      simp only [Takes, List.mem_append, List.mem_cons, or_and_right, exists_or, exists_eq_left, h1,
        h2, hvalue, Bool.or_eq_true, htarget, or_assoc, or_left_comm, or_comm]

theorem succeeds_merge (hs : s.Sound) {ms : List Move} {m : Move}
    (hms : ∀ n ∈ ms, IsLabel s V n.label) (hm : s.Valid m.label)
    (hV : DependsOn V (s.value m.label)) : Succeeds (merge ms m) s := by
  unfold merge
  refine Succeeds.ite (fun _ => .pure) fun hz => ?_
  rw [List.span_eq_takeWhile_dropWhile]
  have hsub := (List.dropWhile_suffix (·.target ≠ m.target) (l := ms)).subset
  cases hdrop : ms.dropWhile (·.target ≠ m.target) with
  | nil => exact .pure
  | cons n behind =>
    have hn := hms n (hsub (hdrop ▸ List.mem_cons_self))
    exact (returns_disj_label hs hn ⟨hm, hz, hV⟩).succeeds.bind_pure

theorem returns_merge (hs : s.Sound) {ms : List Move} {m : Move}
    (hms : ∀ n ∈ ms, IsLabel s V n.label) (hm : s.Valid m.label)
    (hV : DependsOn V (s.value m.label)) (hnodup : (ms.map (·.target)).Nodup) :
    Returns (merge ms m) s fun ms' t => ((∀ n ∈ ms', IsLabel t V n.label) ∧
      ∀ l r, Takes t ms' l r ↔ Takes s ms l r ∨ s.value m.label l = true ∧ m.target = r) ∧
      (ms'.map (·.target)).Nodup := by
  suffices hreturns : Returns (merge ms m) s fun ms' _ => (ms'.map (·.target)).Nodup from
    (hreturns.and (yields_merge hs hms hm hV)).mono fun _ _ _ h => h.symm
  unfold merge
  by_cases hz : m.label = .zero
  · rw [if_pos hz]
    exact .pure hnodup
  rw [if_neg hz, List.span_eq_takeWhile_dropWhile]
  have hsplit := List.takeWhile_append_dropWhile (p := (·.target ≠ m.target)) (l := ms)
  cases hdrop : ms.dropWhile (·.target ≠ m.target) with
  | nil =>
    rw [hdrop, List.append_nil] at hsplit
    refine .pure ?_
    rw [List.map_append, List.nodup_append]
    refine ⟨hnodup, by simp, fun r hr r' hr' heq => ?_⟩
    obtain ⟨n, hn, rfl⟩ := List.mem_map.1 hr
    obtain rfl : r' = m.target := by simpa using hr'
    rw [← hsplit] at hn
    simpa [heq] using List.mem_takeWhile_imp hn
  | cons n behind =>
    rw [hdrop] at hsplit
    have hn : n ∈ ms := by
      rw [← hsplit]
      simp
    refine (returns_disj_label hs (hms n hn) ⟨hm, hz, hV⟩).bind fun e t _ _ => .pure ?_
    rw [← hsplit] at hnodup
    simpa using hnodup

theorem yields_mergeAll {α : Type} {add : List Move → α → Diagram.M (List Move)}
    (target : α → Nat) (ψ : α → Assignment → Bool) {xs : List α}
    (hadd : ∀ x ∈ xs, ∀ t, s ≤ t → ∀ ms, (∀ n ∈ ms, IsLabel t V n.label) →
      Yields (add ms x) t fun ms' u => (∀ n ∈ ms', IsLabel u V n.label) ∧
        ∀ l r, Takes u ms' l r ↔ Takes t ms l r ∨ ψ x l = true ∧ target x = r) :
    Yields (xs.foldlM add []) s fun ms t => (∀ n ∈ ms, IsLabel t V n.label) ∧
      ∀ l r, Takes t ms l r ↔ ∃ x ∈ xs, ψ x l = true ∧ target x = r := by
  refine Yields.mono (P := fun ms t => s ≤ t ∧ (∀ n ∈ ms, IsLabel t V n.label) ∧
    ∀ l r, Takes t ms l r ↔ ∃ x ∈ xs, ψ x l = true ∧ target x = r) ?_ fun _ _ _ h => h.2
  refine Yields.foldlM (fun done ms t => s ≤ t ∧ (∀ n ∈ ms, IsLabel t V n.label) ∧
    ∀ l r, Takes t ms l r ↔ ∃ x ∈ done, ψ x l = true ∧ target x = r) ?_ ?_
  · exact ⟨le_rfl, by simp, by simp [Takes]⟩
  rintro done x rest hxs ms t ⟨hst, hms, htakes⟩
  refine (hadd x (by simp [hxs]) t hst ms hms).mono fun ms' u htu ⟨hms', htakes'⟩ => ?_
  refine ⟨le_trans hst htu, hms', fun l r => ?_⟩
  rw [htakes', htakes]
  simp [or_and_right, exists_or]

theorem returns_mergeAll {α : Type} {add : List Move → α → Diagram.M (List Move)}
    (target : α → Nat) (ψ : α → Assignment → Bool) {xs : List α}
    (hadd : ∀ x ∈ xs, ∀ t, s ≤ t → ∀ ms, (∀ n ∈ ms, IsLabel t V n.label) →
      (ms.map (·.target)).Nodup → Returns (add ms x) t fun ms' u =>
        ((∀ n ∈ ms', IsLabel u V n.label) ∧
          ∀ l r, Takes u ms' l r ↔ Takes t ms l r ∨ ψ x l = true ∧ target x = r) ∧
        (ms'.map (·.target)).Nodup) :
    Returns (xs.foldlM add []) s fun ms t => ((∀ n ∈ ms, IsLabel t V n.label) ∧
      ∀ l r, Takes t ms l r ↔ ∃ x ∈ xs, ψ x l = true ∧ target x = r) ∧
      (ms.map (·.target)).Nodup := by
  refine Returns.mono (P := fun ms t => s ≤ t ∧ ((∀ n ∈ ms, IsLabel t V n.label) ∧
    ∀ l r, Takes t ms l r ↔ ∃ x ∈ xs, ψ x l = true ∧ target x = r) ∧
    (ms.map (·.target)).Nodup) ?_ fun _ _ _ h => h.2
  refine Returns.foldlM (fun done ms t => s ≤ t ∧ ((∀ n ∈ ms, IsLabel t V n.label) ∧
    ∀ l r, Takes t ms l r ↔ ∃ x ∈ done, ψ x l = true ∧ target x = r) ∧
    (ms.map (·.target)).Nodup) ?_ ?_
  · exact ⟨le_rfl, ⟨by simp, by simp [Takes]⟩, by simp⟩
  rintro done x rest hxs ms t ⟨hst, ⟨hms, htakes⟩, hnodup⟩
  refine (hadd x (by simp [hxs]) t hst ms hms hnodup).mono
    fun ms' u htu ⟨⟨hms', htakes'⟩, hnodup'⟩ => ?_
  refine ⟨le_trans hst htu, ⟨hms', fun l r => ?_⟩, hnodup'⟩
  rw [htakes', htakes]
  simp [or_and_right, exists_or]

end Automaton

section

variable {κ : Type}

def Keyed (s : Diagram.Store) (labels : List (κ × Edge)) (k : κ) (l : Assignment) : Prop :=
  ∃ e, (k, e) ∈ labels ∧ s.value e l = true

theorem keyed_mono (hs : s.Sound) (hst : s ≤ t) {labels : List (κ × Edge)}
    (h : ∀ k e, (k, e) ∈ labels → IsLabel s V e) {k : κ} {l : Assignment} :
    Keyed t labels k l ↔ Keyed s labels k l := by
  simp only [Keyed]
  exact exists_congr fun e => and_congr_right fun he => by rw [hs.value_mono hst (h k e he).valid]

theorem keyed_cons {labels : List (κ × Edge)} {k k' : κ} {l : Assignment} :
    Keyed s ((k, e) :: labels) k' l ↔ k = k' ∧ s.value e l = true ∨ Keyed s labels k' l := by
  simp only [Keyed, List.mem_cons, Prod.mk.injEq, or_and_right, exists_or]
  constructor
  · rintro (⟨_, ⟨rfl, rfl⟩, h⟩ | h)
    · exact .inl ⟨rfl, h⟩
    · exact .inr h
  · rintro (⟨rfl, h⟩ | h)
    · exact .inl ⟨e, ⟨rfl, rfl⟩, h⟩
    · exact .inr h

variable [Ord κ] [Std.LawfulEqOrd κ]

theorem yields_widen (hs : s.Sound) {labels : List (κ × Edge)} {k : κ}
    (hlabels : ∀ k e, (k, e) ∈ labels → IsLabel s V e) (he : IsLabel s V e) :
    Yields (widen k e labels) s fun labels' t =>
      (∀ k e, (k, e) ∈ labels' → IsLabel t V e) ∧
      ∀ k' l, Keyed t labels' k' l ↔ Keyed s labels k' l ∨ k = k' ∧ s.value e l = true := by
  have hnew : Yields (Diagram.disj .zero e) s fun r t =>
      IsLabel t V r ∧ t.value r = s.value e := by
    refine (Diagram.yields_disj hs hs.denotes_zero he.valid.denotes).mono fun r t hst hr => ?_
    have hr := hr.congr (ψ := s.value e) fun σ => by rw [Bool.false_or]
    exact ⟨.of_denotes (hs.mono hst) hr (he.exists_value hs) he.depends, hr.value_eq⟩
  induction labels with
  | nil =>
    rw [widen]
    refine hnew.bind fun r t _ ⟨hr, hvalue⟩ => .pure ⟨?_, fun k' l => ?_⟩
    · rintro _ _ h
      cases List.mem_singleton.1 h
      exact hr
    · rw [keyed_cons, hvalue]
      simp [Keyed]
  | cons head rest ih =>
    obtain ⟨k', f⟩ := head
    have hf := hlabels k' f (by simp)
    have hrest : ∀ k e, (k, e) ∈ rest → IsLabel s V e := fun k e h => hlabels k e (by simp [h])
    rw [widen]
    cases hcompare : compare k k' with
    | lt =>
      refine hnew.bind fun r t hst ⟨hr, hvalue⟩ => .pure ⟨?_, fun k'' l => ?_⟩
      · rintro _ _ h
        rcases List.mem_cons.1 h with h | h
        · cases h
          exact hr
        · exact (hlabels _ _ h).mono_store hs hst
      · rw [keyed_cons, hvalue, keyed_mono hs hst hlabels, or_comm]
    | eq =>
      obtain rfl : k = k' := Std.LawfulEqOrd.eq_of_compare hcompare
      refine (yields_disj_label hs hf he).bind fun r t hst ⟨hr, hvalue⟩ =>
        .pure ⟨?_, fun k'' l => ?_⟩
      · rintro _ _ h
        rcases List.mem_cons.1 h with h | h
        · cases h
          exact hr
        · exact (hrest _ _ h).mono_store hs hst
      · simp only [keyed_cons, hvalue, keyed_mono hs hst hrest, Bool.or_eq_true]
        tauto
    | gt =>
      refine (ih hrest).bind fun labels' t hst ⟨hlabels', hkeyed⟩ => .pure ⟨?_, fun k'' l => ?_⟩
      · rintro _ _ h
        rcases List.mem_cons.1 h with h | h
        · cases h
          exact hf.mono_store hs hst
        · exact hlabels' _ _ h
      · simp only [keyed_cons, hkeyed, hs.value_mono hst hf.valid]
        tauto

theorem yields_gather (hs : s.Sound) {labels : List (κ × Edge)}
    (hlabels : ∀ k e, (k, e) ∈ labels → IsLabel s V e) :
    Yields (gather labels) s fun labels' t =>
      (∀ k e, (k, e) ∈ labels' → IsLabel t V e) ∧
      ∀ k l, Keyed t labels' k l ↔ Keyed s labels k l := by
  refine Yields.mono (P := fun acc t => s ≤ t ∧ (∀ k e, (k, e) ∈ acc → IsLabel t V e) ∧
    ∀ k l, Keyed t acc k l ↔ Keyed s labels k l) ?_ fun _ _ _ h => h.2
  refine Yields.foldlM (fun done acc t => s ≤ t ∧ (∀ k e, (k, e) ∈ acc → IsLabel t V e) ∧
    ∀ k l, Keyed t acc k l ↔ Keyed s done k l) ?_ ?_
  · exact ⟨le_rfl, by simp, by simp [Keyed]⟩
  rintro done ⟨k, e⟩ rest hrest acc t ⟨hst, hacc, hkeyed⟩
  have ht := hs.mono hst
  have he := hlabels k e (by simp [hrest])
  refine (yields_widen ht hacc (he.mono_store hs hst)).mono fun acc' u htu ⟨hacc', hkeyed'⟩ => ?_
  refine ⟨le_trans hst htu, hacc', fun k' l => ?_⟩
  rw [hkeyed', hkeyed, hs.value_mono hst he.valid]
  simp only [Keyed, List.mem_append, List.mem_singleton, Prod.mk.injEq, or_and_right, exists_or]
  constructor
  · rintro (h | ⟨rfl, h⟩)
    · exact .inl h
    · exact .inr ⟨e, ⟨rfl, rfl⟩, h⟩
  · rintro (h | ⟨_, ⟨rfl, rfl⟩, h⟩)
    · exact .inl h
    · exact .inr ⟨rfl, h⟩

def Ascending (labels : List (κ × Edge)) : Prop := labels.Pairwise fun x y => compare x.1 y.1 = .lt

omit [Std.LawfulEqOrd κ] in
private theorem returns_disj_zero (hs : s.Sound) (he : IsLabel s V e) :
    Returns (Diagram.disj .zero e) s fun r t => t.Valid r :=
  (Diagram.returns_disj hs hs.denotes_zero he.valid.denotes).mono fun _ _ _ hr => hr.valid

omit [Std.LawfulEqOrd κ] in
theorem returns_widen [Std.TransOrd κ] (hs : s.Sound) {labels : List (κ × Edge)} {k : κ}
    (hlabels : ∀ k e, (k, e) ∈ labels → IsLabel s V e) (he : IsLabel s V e)
    (hascending : Ascending labels) :
    Returns (widen k e labels) s fun labels' _ => Ascending labels' ∧
      ∀ x ∈ labels', x.1 = k ∨ ∃ y ∈ labels, x.1 = y.1 := by
  induction labels with
  | nil =>
    rw [widen]
    exact (returns_disj_zero hs he).bind fun r _ _ _ => .pure ⟨by simp [Ascending], by simp⟩
  | cons head rest ih =>
    obtain ⟨k', f⟩ := head
    have hf := hlabels k' f (by simp)
    have hrest : ∀ k e, (k, e) ∈ rest → IsLabel s V e := fun k e h => hlabels k e (by simp [h])
    obtain ⟨hhead, htail⟩ := List.pairwise_cons.1 hascending
    rw [widen]
    cases hcompare : compare k k' with
    | lt =>
      refine (returns_disj_zero hs he).bind fun r _ _ _ => .pure
        ⟨List.pairwise_cons.2 ⟨fun x hx => ?_, hascending⟩, fun x hx => ?_⟩
      · rcases List.mem_cons.1 hx with rfl | hx
        · exact hcompare
        · exact Std.TransCmp.lt_trans hcompare (hhead x hx)
      · rcases List.mem_cons.1 hx with rfl | hx
        · exact .inl rfl
        · exact .inr ⟨x, hx, rfl⟩
    | eq =>
      refine (returns_disj_label hs hf he).bind fun r _ _ _ => .pure
        ⟨List.pairwise_cons.2 ⟨hhead, htail⟩, fun x hx => ?_⟩
      rcases List.mem_cons.1 hx with rfl | hx
      · exact .inr ⟨(k', f), by simp, rfl⟩
      · exact .inr ⟨x, by simp [hx], rfl⟩
    | gt =>
      refine (ih hrest htail).bind fun labels' _ _ ⟨hascending', hkeys⟩ => .pure
        ⟨List.pairwise_cons.2 ⟨fun x hx => ?_, hascending'⟩, fun x hx => ?_⟩
      · rcases hkeys x hx with hk | ⟨y, hy, hk⟩
        · rw [hk]
          exact Std.OrientedCmp.lt_of_gt hcompare
        · rw [hk]
          exact hhead y hy
      · rcases List.mem_cons.1 hx with rfl | hx
        · exact .inr ⟨(k', f), by simp, rfl⟩
        · exact (hkeys x hx).imp id fun ⟨y, hy, hk⟩ => ⟨y, by simp [hy], hk⟩

theorem returns_gather [Std.TransOrd κ] (hs : s.Sound) {labels : List (κ × Edge)}
    (hlabels : ∀ k e, (k, e) ∈ labels → IsLabel s V e) :
    Returns (gather labels) s fun labels' t => Ascending labels' ∧
      (∀ k e, (k, e) ∈ labels' → IsLabel t V e) ∧
        ∀ k l, Keyed t labels' k l ↔ Keyed s labels k l := by
  suffices hreturns : Returns (gather labels) s fun labels' t => s ≤ t ∧ Ascending labels' ∧
      ∀ k e, (k, e) ∈ labels' → IsLabel t V e from
    (hreturns.and (yields_gather hs hlabels)).mono fun _ _ _ h => ⟨h.1.2.1, h.2⟩
  refine Returns.foldlM (fun _ acc t => s ≤ t ∧ Ascending acc ∧ ∀ k e, (k, e) ∈ acc → IsLabel t V e)
    ⟨le_rfl, .nil, by simp⟩ ?_
  rintro done ⟨k, e⟩ rest hrest acc t ⟨hst, hascending, hacc⟩
  have ht := hs.mono hst
  have he := (hlabels k e (by simp [hrest])).mono_store hs hst
  exact ((returns_widen ht hacc he hascending).and (yields_widen ht hacc he)).mono
    fun acc' u htu h => ⟨le_trans hst htu, h.1.1, h.2.1⟩

theorem Ascending.nodup_keys [Std.TransOrd κ] {labels : List (κ × Edge)} (h : Ascending labels) :
    (labels.map (·.1)).Nodup := by
  apply List.pairwise_map.2
  apply List.Pairwise.imp _ h
  intro x y hxy heq
  rw [heq] at hxy
  simp at hxy

theorem Ascending.eq_of_keyed_iff [Std.TransOrd κ] (hs : s.Sound) {labels labels' : List (κ × Edge)}
    (h : Ascending labels) (h' : Ascending labels')
    (hlabels : ∀ k e, (k, e) ∈ labels → IsLabel s V e)
    (hlabels' : ∀ k e, (k, e) ∈ labels' → IsLabel s V e)
    (hkeyed : ∀ k l, Keyed s labels k l ↔ Keyed s labels' k l) : labels = labels' := by
  have hdistinct : ∀ {labels : List (κ × Edge)}, Ascending labels →
      labels.Pairwise fun x y => x.1 ≠ y.1 := fun h => List.pairwise_map.1 h.nodup_keys
  have honly : ∀ {labels : List (κ × Edge)}, Ascending labels → ∀ {k e}, (k, e) ∈ labels →
      ∀ l, Keyed s labels k l ↔ s.value e l = true := by
    intro labels h k e he l
    refine ⟨fun ⟨e', he', hl⟩ => ?_, fun hl => ⟨e, he, hl⟩⟩
    have : Std.Symm fun x y : κ × Edge => x.1 ≠ y.1 := ⟨fun _ _ => Ne.symm⟩
    by_contra hne
    exact (hdistinct h).forall he he' (by rintro ⟨⟩; exact hne hl) rfl
  have hsub : ∀ {labels labels' : List (κ × Edge)}, Ascending labels → Ascending labels' →
      (∀ k e, (k, e) ∈ labels → IsLabel s V e) → (∀ k e, (k, e) ∈ labels' → IsLabel s V e) →
      (∀ k l, Keyed s labels k l ↔ Keyed s labels' k l) → labels ⊆ labels' := by
    rintro labels labels' h h' hlabels hlabels' hkeyed ⟨k, e⟩ he
    obtain ⟨l, hl⟩ := (hlabels k e he).exists_value hs
    obtain ⟨e', he', -⟩ := (hkeyed k l).1 ⟨e, he, hl⟩
    obtain rfl : e = e' := hs.eq_of_value_eq (hlabels k e he).valid (hlabels' k e' he').valid
      fun l => Bool.eq_iff_iff.2
        ((honly h he l).symm.trans ((hkeyed k l).trans (honly h' he' l)))
    exact he'
  have hnodup : ∀ {labels : List (κ × Edge)}, Ascending labels → labels.Nodup := fun h =>
    (hdistinct h).imp fun hne heq => hne (congrArg Prod.fst heq)
  have hperm : labels.Perm labels' := (List.perm_ext_iff_of_nodup (hnodup h) (hnodup h')).2 fun x =>
    ⟨fun hx => hsub h h' hlabels hlabels' hkeyed hx,
      fun hx => hsub h' h hlabels' hlabels (fun k l => (hkeyed k l).symm) hx⟩
  refine hperm.eq_of_pairwise ?_ (show labels.Pairwise _ from h) h'
  intro x y _ _ hxy hyx
  exact absurd (Std.TransCmp.lt_trans hxy hyx) (by simp)

end

end RegularArithmetic
