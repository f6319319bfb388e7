import Mathlib.Data.Finset.Card
import Mathlib.Data.List.Nodup
import Mathlib.Data.List.Perm.Subperm
import RegularArithmetic.Automaton.Search
import RegularArithmetic.Proofs.Automaton.Language
import RegularArithmetic.Proofs.Success

/-!
A search meets exactly the states that can be reached, and marking backwards marks exactly the
states from which a marked one can be reached. An automaton is empty if the search for an
accepting state finds none.
-/

set_option autoImplicit false

namespace RegularArithmetic

namespace Search

variable {n : Nat} {R : Nat → Prop} {w : Search}

/-- Each of the met states is below `n`, is met once, and satisfies `R`. -/
structure Met (n : Nat) (R : Nat → Prop) (w : Search) : Prop where
  size_seen : w.seen.size = n
  seen_iff : ∀ q, w.seen[q]? = some true ↔ q ∈ w.order
  nodup : w.order.Nodup
  holds : ∀ q ∈ w.order, R q

theorem Met.lt (h : Met n R w) {q : Nat} (hq : q ∈ w.order) : q < n := by
  rw [← h.size_seen]
  exact (Array.getElem?_eq_some_iff.1 ((h.seen_iff q).2 hq)).1

theorem Met.size_visits_le (h : Met n R w) : w.visits.size ≤ n := by
  have hlength : w.order.length = w.visits.size := by simp [order]
  have hsub : w.order ⊆ List.range n := fun q hq => List.mem_range.2 (h.lt hq)
  have := (h.nodup.subperm hsub).length_le
  simp_all

theorem Met.startAt {q : Nat} (hq : q < n) (hR : R q) : Met n R (startAt n q) where
  size_seen := by simp [Search.startAt]
  seen_iff p := by
    simp only [Search.startAt, order, Array.getElem?_setIfInBounds, Array.size_replicate,
      Array.getElem?_replicate]
    by_cases hp : q = p
    · subst hp
      simp [hq]
    · simp [hp, Ne.symm hp]
  nodup := by simp [Search.startAt, order]
  holds p hp := by
    obtain rfl : p = q := by simpa [Search.startAt, order] using hp
    exact hR

theorem gives_meet (h : Met n R w) (path : List Diagram.Edge) {m : Move} (hm : R m.target) :
    Gives (meet path w m) fun w' => Met n R w' ∧ m.target ∈ w'.order ∧ w.order <+: w'.order := by
  obtain ⟨seen, visits⟩ := w
  simp only [meet]
  cases hseen : seen[m.target]? with
  | none => exact .error
  | some b =>
    cases b with
    | true => exact .ok ⟨h, (h.seen_iff _).1 hseen, List.prefix_refl _⟩
    | false =>
      have hlt := (Array.getElem?_eq_some_iff.1 hseen).1
      have hnew : m.target ∉ order ⟨seen, visits⟩ := by
        intro hmem
        rw [← h.seen_iff, hseen] at hmem
        cases hmem
      have horder : order ⟨seen.setIfInBounds m.target true,
          visits.push ⟨m.target, m.label :: path⟩⟩ = order ⟨seen, visits⟩ ++ [m.target] := by
        simp [order]
      refine .ok ⟨⟨?_, fun p => ?_, ?_, ?_⟩, ?_, ?_⟩
      · simpa using h.size_seen
      · rw [horder, List.mem_append, ← h.seen_iff, List.mem_singleton,
          Array.getElem?_setIfInBounds]
        by_cases hp : m.target = p
        · subst hp
          simp [hlt]
        · simp [hp, Ne.symm hp]
      · rw [horder]
        exact h.nodup.append (by simp) (by simpa using hnew)
      · intro p hp
        rw [horder, List.mem_append, List.mem_singleton] at hp
        rcases hp with hp | rfl
        · exact h.holds p hp
        · exact hm
      · rw [horder]
        simp
      · rw [horder]
        exact List.prefix_append _ _

theorem gives_meetAll (path : List Diagram.Edge) {ms : List Move} (hms : ∀ m ∈ ms, R m.target)
    (h : Met n R w) :
    Gives (ms.foldlM (meet path) w) fun w' =>
      Met n R w' ∧ (∀ m ∈ ms, m.target ∈ w'.order) ∧ w.order <+: w'.order := by
  induction ms generalizing w with
  | nil => exact .pure ⟨h, by simp, List.prefix_refl _⟩
  | cons m ms ih =>
    rw [List.foldlM_cons]
    refine (gives_meet h path (hms m (by simp))).bind fun w' ⟨h', hmem, hpre⟩ => ?_
    refine (ih (fun m hm => hms m (by simp [hm])) h').mono fun w'' ⟨h'', hall, hpre'⟩ => ?_
    refine ⟨h'', fun m' hm' => ?_, hpre.trans hpre'⟩
    rcases List.mem_cons.1 hm' with rfl | hm'
    · exact hpre'.subset hmem
    · exact hall m' hm'

variable {moves : Nat → Except Fault (List Move)} {stop : Nat → Except Fault Bool}

/-- The state was left: it is not one to stop at, and the targets of its moves are met. -/
def Left (moves : Nat → Except Fault (List Move)) (stop : Nat → Except Fault Bool) (w : Search)
    (q : Nat) : Prop :=
  stop q = .ok false ∧ ∃ ms, moves q = .ok ms ∧ ∀ m ∈ ms, m.target ∈ w.order

/-- What a search ends with: a met state to stop at, or all met states left. -/
def Ended (moves : Nat → Except Fault (List Move)) (stop : Nat → Except Fault Bool)
    (w : Search) : Option Visit → Prop
  | some v => v.state ∈ w.order ∧ stop v.state = .ok true
  | none => ∀ q ∈ w.order, Left moves stop w q

/-- A search that stops nowhere leaves all met states. -/
theorem Ended.closed {found : Option Visit} (h : Ended moves (fun _ => .ok false) w found) {q : Nat}
    (hq : q ∈ w.order) : ∃ ms, moves q = .ok ms ∧ ∀ m ∈ ms, m.target ∈ w.order := by
  cases found with
  | none => exact (h q hq).2
  | some v => exact absurd h.2 (by simp)

theorem gives_runFrom (hmoves : ∀ q ms, R q → moves q = .ok ms → ∀ m ∈ ms, R m.target)
    (left : Nat) : ∀ (i : Nat) (w : Search), Met n R w → n ≤ left + i →
      (∀ q ∈ w.order.take i, Left moves stop w q) →
      Gives (runFrom moves stop left i w) fun r =>
        Met n R r.1 ∧ w.order <+: r.1.order ∧ Ended moves stop r.1 r.2 := by
  have hdone : ∀ (i : Nat) (w : Search), w.visits.size ≤ i →
      (∀ q ∈ w.order.take i, Left moves stop w q) → ∀ q ∈ w.order, Left moves stop w q := by
    intro i w hi hleft q hq
    refine hleft q ?_
    rwa [List.take_of_length_le (by simpa [order] using hi)]
  induction left with
  | zero =>
    intro i w h hi hleft
    exact .ok ⟨h, List.prefix_refl _, hdone i w (le_trans h.size_visits_le (by omega)) hleft⟩
  | succ left ih =>
    intro i w h hi hleft
    rw [runFrom]
    cases hv : w.visits[i]? with
    | none =>
      exact .ok ⟨h, List.prefix_refl _, hdone i w (Array.getElem?_eq_none_iff.1 hv) hleft⟩
    | some v =>
      have hget : w.order[i]? = some v.state := by simp [order, hv]
      have hmem : v.state ∈ w.order := List.mem_of_getElem? hget
      refine Gives.bind (P := fun x => stop v.state = .ok x) (fun _ hx => hx) fun x hx => ?_
      cases x with
      | true => exact .pure ⟨h, List.prefix_refl _, hmem, hx⟩
      | false =>
        refine Gives.bind (P := fun ms => moves v.state = .ok ms) (fun _ hms => hms)
          fun ms hms => ?_
        refine (gives_meetAll v.path (hmoves _ ms (h.holds _ hmem) hms) h).bind
          fun w' ⟨h', hall, hpre⟩ => ?_
        refine (ih (i + 1) w' h' (by omega) fun q hq => ?_).mono
          fun r ⟨hr, hpre', hended⟩ => ⟨hr, hpre.trans hpre', hended⟩
        have hlt : i < w.order.length := (List.getElem?_eq_some_iff.1 hget).1
        have htake : w'.order.take (i + 1) = w.order.take i ++ [v.state] := by
          obtain ⟨rest, hrest⟩ := hpre
          rw [← hrest, List.take_append_of_le_length hlt, List.take_add_one, hget]
          rfl
        rw [htake, List.mem_append, List.mem_singleton] at hq
        rcases hq with hq | rfl
        · obtain ⟨hstop, ms', hms', hin⟩ := hleft q hq
          exact ⟨hstop, ms', hms', fun m hm => hpre.subset (hin m hm)⟩
        · exact ⟨hx, ms, hms, hall⟩

theorem gives_run {q : Nat} (hq : q < n) (hR : R q)
    (hmoves : ∀ q ms, R q → moves q = .ok ms → ∀ m ∈ ms, R m.target) :
    Gives ((startAt n q).run moves stop) fun r =>
      Met n R r.1 ∧ r.1.order[0]? = some q ∧ Ended moves stop r.1 r.2 := by
  refine (gives_runFrom hmoves _ 0 _ (.startAt hq hR) (by simp [startAt]) (by simp)).mono
    fun r ⟨hmet, ⟨rest, hrest⟩, hended⟩ => ⟨hmet, ?_, hended⟩
  rw [← hrest]
  rfl

theorem answers_meetAll (path : List Diagram.Edge) (hR : ∀ q, R q → q < n) {ms : List Move}
    (hms : ∀ m ∈ ms, R m.target) (h : Met n R w) :
    Answers (ms.foldlM (meet path) w) fun w' => Met n R w' := by
  refine Answers.foldlM (fun _ w' => Met n R w') h fun done m rest hl w' hw' => ?_
  have hm := hms m (by simp [hl])
  have hlt : m.target < w'.seen.size := hw'.size_seen ▸ hR _ hm
  obtain ⟨w'', hmeet⟩ : ∃ w'', meet path w' m = .ok w'' := by
    simp only [meet, Array.getElem?_eq_getElem hlt]
    cases w'.seen[m.target] <;> exact ⟨_, rfl⟩
  exact ⟨w'', hmeet, (gives_meet hw' path hm w'' hmeet).1⟩

theorem answers_runFrom (hR : ∀ q, R q → q < n)
    (hmoves : ∀ q, R q → Answers (moves q) fun ms => ∀ m ∈ ms, R m.target)
    (hstop : ∀ q, R q → Answers (stop q) fun _ => True) (left : Nat) :
    ∀ (i : Nat) (w : Search), Met n R w → Answers (runFrom moves stop left i w) fun _ => True := by
  induction left with
  | zero => exact fun _ _ _ => .ok trivial
  | succ left ih =>
    intro i w h
    rw [runFrom]
    cases hv : w.visits[i]? with
    | none => exact .ok trivial
    | some v =>
      have hget : w.order[i]? = some v.state := by simp [order, hv]
      have hv := h.holds _ (List.mem_of_getElem? hget)
      refine (hstop _ hv).bind fun x _ => ?_
      cases x with
      | true => exact .pure trivial
      | false =>
        refine (hmoves _ hv).bind fun ms hms => ?_
        exact (answers_meetAll v.path hR hms h).bind fun w' h' => ih (i + 1) w' h'

theorem answers_run {q : Nat} (hR : ∀ q, R q → q < n) (hq : R q)
    (hmoves : ∀ q, R q → Answers (moves q) fun ms => ∀ m ∈ ms, R m.target)
    (hstop : ∀ q, R q → Answers (stop q) fun _ => True) :
    Answers ((startAt n q).run moves stop) fun r =>
      Met n R r.1 ∧ r.1.order[0]? = some q ∧ Ended moves stop r.1 r.2 := by
  refine ((answers_runFrom hR hmoves hstop _ 0 _ (.startAt (hR q hq) hq)).and
    (gives_run (hR q hq) hq fun q ms hq hms => ?_)).mono fun _ h => h.2
  exact (hmoves q hq).gives ms hms

end Search

/-- A marked state can be reached along the edges. -/
inductive Leads (next : Array (List Nat)) (marks : Array Bool) : Nat → Prop
  | marked {q : Nat} : marks[q]? = some true → Leads next marks q
  | step {q r : Nat} : r ∈ next.getD q [] → Leads next marks r → Leads next marks q

section

variable {next : Array (List Nat)} {marks marks' : Array Bool}

theorem getD_marks_eq_true {q : Nat} : marks.getD q false = true ↔ marks[q]? = some true := by
  rw [Array.getD_eq_getD_getElem?]
  cases marks[q]? <;> simp

/-- The marks were extended, along the edges only. -/
structure Spread (next : Array (List Nat)) (marks marks' : Array Bool) : Prop where
  size_eq : marks'.size = marks.size
  grows : ∀ q : Nat, marks[q]? = some true → marks'[q]? = some true
  leads : ∀ q : Nat, marks'[q]? = some true → Leads next marks q

def Closed (next : Array (List Nat)) (marks : Array Bool) : Prop :=
  ∀ q < marks.size, ∀ r ∈ next.getD q [], marks[r]? = some true → marks[q]? = some true

def markedSet (marks : Array Bool) : Finset Nat :=
  (Finset.range marks.size).filter fun q => marks[q]? = some true

theorem mem_markedSet {q : Nat} : q ∈ markedSet marks ↔ marks[q]? = some true := by
  simp only [markedSet, Finset.mem_filter, Finset.mem_range, and_iff_right_iff_imp]
  exact fun h => (Array.getElem?_eq_some_iff.1 h).1

theorem card_markedSet_le (marks : Array Bool) : (markedSet marks).card ≤ marks.size := by
  have h := Finset.card_filter_le (Finset.range marks.size) fun q => marks[q]? = some true
  rwa [Finset.card_range] at h

theorem Spread.refl : Spread next marks marks := ⟨rfl, fun _ h => h, fun _ h => .marked h⟩

theorem Leads.trans {q : Nat} (hspread : Spread next marks marks') (h : Leads next marks' q) :
    Leads next marks q := by
  induction h with
  | marked h => exact hspread.leads _ h
  | step hr _ ih => exact .step hr ih

theorem Spread.trans {marks'' : Array Bool} (h : Spread next marks marks')
    (h' : Spread next marks' marks'') : Spread next marks marks'' where
  size_eq := h'.size_eq.trans h.size_eq
  grows q hq := h'.grows q (h.grows q hq)
  leads q hq := (h'.leads q hq).trans h

/-- A mark that is set because of an edge to a marked state. -/
private theorem Spread.set (h : Spread next marks marks') {q r : Nat} (hr : r ∈ next.getD q [])
    (hmarked : marks'[r]? = some true) :
    Spread next marks (marks'.setIfInBounds q true) where
  size_eq := by simpa using h.size_eq
  grows p hp := by
    rw [Array.getElem?_setIfInBounds]
    split
    · rename_i heq
      subst heq
      have := (Array.getElem?_eq_some_iff.1 (h.grows q hp)).1
      simp [this]
    · exact h.grows p hp
  leads p hp := by
    rw [Array.getElem?_setIfInBounds] at hp
    split at hp
    · rename_i heq
      subst heq
      exact .step hr (h.leads r hmarked)
    · exact h.leads p hp

/-- What a sweep over the first states has done. -/
private structure Swept (next : Array (List Nat)) (marks : Array Bool) (done : List Nat)
    (r : Array Bool × Bool) : Prop where
  spread : Spread next marks r.1
  unchanged : r.2 = false → r.1 = marks ∧
    ∀ q ∈ done, ∀ t ∈ next.getD q [], marks[t]? = some true → marks[q]? = some true
  changed : r.2 = true → ∃ q : Nat, r.1[q]? = some true ∧ marks[q]? ≠ some true

theorem gives_sweep : Gives (sweep next marks) fun r => Spread next marks r.1 ∧
    (r.2 = false → r.1 = marks ∧ Closed next marks) ∧
    (r.2 = true → (markedSet marks).card < (markedSet r.1).card) := by
  refine Gives.mono (P := Swept next marks (List.range marks.size)) ?_ fun r hr => ?_
  · refine Gives.foldlM (Swept next marks) ⟨.refl, fun _ => ⟨rfl, by simp⟩, by simp⟩ ?_
    rintro done q rest hrange ⟨marks', changed⟩ ⟨hspread, hunchanged, hchanged⟩
    have hrange : q ∈ List.range marks.size := by simp [hrange]
    dsimp only at hspread hunchanged hchanged ⊢
    by_cases hq : marks'.getD q false = true
    · rw [if_pos hq]
      rw [getD_marks_eq_true] at hq
      refine .pure ⟨hspread, fun hc => ?_, hchanged⟩
      obtain ⟨rfl, hdone⟩ := hunchanged hc
      refine ⟨rfl, fun p hp t ht hm => ?_⟩
      rcases List.mem_append.1 hp with hp | hp
      · exact hdone p hp t ht hm
      · rwa [List.mem_singleton.1 hp]
    · rw [if_neg hq]
      rw [getD_marks_eq_true] at hq
      refine (Gives.anyM (P := fun t => marks'[t]? = some true) _ fun t _ => ?_).bind
        fun hit hhit => ?_
      · cases ht : marks'[t]? with
        | none => exact .throw
        | some b => exact .ok (by simp)
      · cases hit with
        | true =>
          rw [if_pos rfl]
          obtain ⟨t, ht, hm⟩ := hhit.1 rfl
          have hlt : q < marks'.size := by
            rw [hspread.size_eq]
            exact List.mem_range.1 hrange
          refine .pure ⟨hspread.set ht hm, by simp, fun _ => ?_⟩
          by_cases hnew : marks[q]? = some true
          · exact absurd (hspread.grows q hnew) hq
          · exact ⟨q, by simp [hlt], hnew⟩
        | false =>
          rw [if_neg (by simp)]
          refine .pure ⟨hspread, fun hc => ?_, hchanged⟩
          obtain ⟨rfl, hdone⟩ := hunchanged hc
          refine ⟨rfl, fun p hp t ht hm => ?_⟩
          rcases List.mem_append.1 hp with hp | hp
          · exact hdone p hp t ht hm
          · rw [List.mem_singleton.1 hp] at ht
            exact absurd (hhit.2 ⟨t, ht, hm⟩) (by simp)
  · refine ⟨hr.spread, fun h => ⟨(hr.unchanged h).1, fun q hq => (hr.unchanged h).2 q ?_⟩,
      fun h => ?_⟩
    · exact List.mem_range.2 hq
    · obtain ⟨q, hq, hnew⟩ := hr.changed h
      refine Finset.card_lt_card ⟨fun p hp => ?_, fun hsub => hnew ?_⟩
      · exact mem_markedSet.2 (hr.spread.grows p (mem_markedSet.1 hp))
      · exact mem_markedSet.1 (hsub (mem_markedSet.2 hq))

theorem gives_sweeps (rounds : Nat) : ∀ marks : Array Bool,
    marks.size < rounds + (markedSet marks).card →
      Gives (sweeps next rounds marks) fun marks' =>
        Spread next marks marks' ∧ Closed next marks' := by
  induction rounds with
  | zero =>
    intro marks h
    exact absurd (card_markedSet_le marks) (by omega)
  | succ rounds ih =>
    intro marks h
    rw [sweeps]
    refine gives_sweep.bind fun ⟨marks', changed⟩ ⟨hspread, hunchanged, hchanged⟩ => ?_
    dsimp only at hspread hunchanged hchanged ⊢
    cases changed with
    | true =>
      have hcard := hchanged rfl
      rw [if_pos rfl]
      refine (ih marks' ?_).mono fun _ h' => ⟨hspread.trans h'.1, h'.2⟩
      rw [hspread.size_eq]
      omega
    | false =>
      rw [if_neg (by simp)]
      obtain ⟨rfl, hclosed⟩ := hunchanged rfl
      exact .pure ⟨.refl, hclosed⟩

theorem Leads.lt (hsize : next.size ≤ marks.size) {q : Nat} (h : Leads next marks q) :
    q < marks.size := by
  cases h with
  | marked h => exact (Array.getElem?_eq_some_iff.1 h).1
  | step hr _ =>
    by_contra hq
    rw [Array.getD_eq_getD_getElem?, Array.getElem?_eq_none (by omega)] at hr
    simp at hr

theorem gives_leadingTo (hsize : next.size ≤ marks.size) :
    Gives (leadingTo next marks) fun marks' => marks'.size = marks.size ∧
      ∀ q : Nat, marks'[q]? = some true ↔ Leads next marks q := by
  refine (gives_sweeps (marks.size + 1) marks (by omega)).mono fun marks' ⟨hspread, hclosed⟩ => ?_
  refine ⟨hspread.size_eq, fun q => ⟨hspread.leads q, fun h => ?_⟩⟩
  induction h with
  | marked h => exact hspread.grows _ h
  | @step q r hr hleads ih =>
    refine hclosed q ?_ r hr ih
    rw [hspread.size_eq]
    exact (Leads.step hr hleads).lt hsize

/-- Sweeping again and again, for as long as it takes, until a sweep changes nothing. -/
inductive Settles (next : Array (List Nat)) : Array Bool → Array Bool → Prop
  | stable {marks : Array Bool} : sweep next marks = .ok (marks, false) → Settles next marks marks
  | again {marks marks' marks'' : Array Bool} : sweep next marks = .ok (marks', true) →
    Settles next marks' marks'' → Settles next marks marks''

theorem answers_sweep (hnext : ∀ q, ∀ r ∈ next.getD q [], r < marks.size) :
    Answers (sweep next marks) fun r => r.1.size = marks.size := by
  refine Answers.foldlM (fun _ (r : Array Bool × Bool) => r.1.size = marks.size) rfl ?_
  rintro done q rest - ⟨marks', changed⟩ hsize
  dsimp only at hsize ⊢
  split
  · exact .pure hsize
  · refine (Answers.anyM _ fun t ht => ?_).bind fun hit _ => ?_
    · rw [Array.getElem?_eq_getElem (hsize ▸ hnext q t ht)]
      exact .ok trivial
    · cases hit with
      | true => exact .pure (by simpa using hsize)
      | false => exact .pure hsize

/-- Every sweep but the last marks one more state, so there are no more sweeps than states and one
more. -/
theorem answers_sweeps (rounds : Nat) : ∀ marks : Array Bool,
    marks.size < rounds + (markedSet marks).card →
    (∀ q, ∀ r ∈ next.getD q [], r < marks.size) →
      Answers (sweeps next rounds marks) (Settles next marks) := by
  induction rounds with
  | zero =>
    intro marks h
    exact absurd (card_markedSet_le marks) (by omega)
  | succ rounds ih =>
    intro marks h hnext
    obtain ⟨⟨marks', changed⟩, hsweep, hsize⟩ := answers_sweep hnext
    obtain ⟨-, hunchanged, hchanged⟩ := gives_sweep _ hsweep
    rw [sweeps, hsweep]
    dsimp only at hsize hunchanged hchanged
    cases changed with
    | true =>
      have hcard := hchanged rfl
      refine (ih marks' ?_ fun q r hr => hsize ▸ hnext q r hr).mono fun _ h' => .again hsweep h'
      rw [hsize]
      omega
    | false =>
      obtain ⟨rfl, -⟩ := hunchanged rfl
      exact .pure (.stable hsweep)

theorem answers_leadingTo_settles (hnext : ∀ q, ∀ r ∈ next.getD q [], r < marks.size) :
    Answers (leadingTo next marks) (Settles next marks) :=
  answers_sweeps (marks.size + 1) marks (by omega) hnext

theorem answers_leadingTo (hsize : next.size ≤ marks.size)
    (hnext : ∀ q, ∀ r ∈ next.getD q [], r < marks.size) :
    Answers (leadingTo next marks) fun marks' => marks'.size = marks.size ∧
      ∀ q : Nat, marks'[q]? = some true ↔ Leads next marks q :=
  ((answers_leadingTo_settles hnext).and (gives_leadingTo hsize)).mono fun _ h => h.2

end

namespace Automaton

variable {s : Diagram.Store} {a : Automaton}

theorem answers_state {q : Nat} (hq : q < a.size) :
    Answers (a.state q) fun st => a.states[q]? = some st :=
  ⟨a.states[q], state_eq_ok.2 (Array.getElem?_eq_getElem hq), Array.getElem?_eq_getElem hq⟩

theorem answers_isAccepting {q : Nat} (hq : q < a.size) :
    Answers (a.isAccepting q) fun x => x = true ↔ a.Accepting q :=
  (answers_state hq).bind fun _ hst => .pure (accepting_iff hst).symm

theorem answers_moves {q : Nat} (hq : q < a.size) :
    Answers (a.moves q) fun ms => ∀ m, a.HasMove q m ↔ m ∈ ms :=
  (answers_state hq).bind fun _ hst => .pure fun _ => hasMove_iff hst

theorem answers_requireClosed (h : a.Formed s) : Answers a.requireClosed fun _ => True := by
  have hclosed : a.isClosed = true := by
    simp only [isClosed, Array.all_eq_true', List.all_eq_true, decide_eq_true_eq]
    intro st hst m hm
    obtain ⟨q, hq⟩ := Array.mem_iff_getElem?.1 hst
    exact h.closed q m ((hasMove_iff hq).2 hm)
  rw [requireClosed, if_pos hclosed]
  exact .ok trivial

theorem moves_eq_ok {q : Nat} {ms : List Move} (h : a.moves q = .ok ms) :
    q < a.size ∧ ∀ m, a.HasMove q m ↔ m ∈ ms := by
  simp only [moves, bind, Except.bind] at h
  cases hst : a.state q with
  | error f => simp [hst] at h
  | ok st =>
    rw [hst] at h
    cases h
    have hget := state_eq_ok.1 hst
    exact ⟨(Array.getElem?_eq_some_iff.1 hget).1, fun m => hasMove_iff hget⟩

private theorem not_acceptsFrom_of_left {w : Search}
    (hleft : ∀ q ∈ w.order, Search.Left a.moves a.isAccepting w q) (word : Word) :
    ∀ q ∈ w.order, ¬AcceptsFrom s a q word := by
  induction word with
  | nil =>
    intro q hq hacc
    obtain ⟨hstop, -⟩ := hleft q hq
    simpa using (isAccepting_eq_ok.1 hstop).2.2 hacc
  | cons l word ih =>
    rintro q hq ⟨r, ⟨m, hm, -, rfl⟩, hword⟩
    obtain ⟨-, ms, hms, hin⟩ := hleft q hq
    exact ih m.target (hin m (((moves_eq_ok hms).2 m).1 hm)) hword

theorem gives_findAccepting (hs : s.Sound) (h : a.Formed s) :
    Gives a.findAccepting fun found => found = none ↔ ∀ w, ¬a.Accepts s w := by
  -- What is accepted from a state that was met is the end of an accepted word.
  let R (q : Nat) : Prop := ∀ w, AcceptsFrom s a q w → ∃ w', a.Accepts s w'
  have hmoves : ∀ q ms, R q → a.moves q = .ok ms → ∀ m ∈ ms, R m.target := by
    intro q ms hq hms m hm w hw
    have hmove := ((moves_eq_ok hms).2 m).2 hm
    obtain ⟨l, hl⟩ := h.exists_step hs hmove
    exact hq (l :: w) ⟨m.target, hl, hw⟩
  refine (Search.gives_run h.nonempty (fun w hw => ⟨w, hw⟩) hmoves).bind ?_
  rintro ⟨w, found⟩ ⟨hmet, hfirst, hended⟩
  refine .pure ?_
  dsimp only at hmet hfirst hended ⊢
  cases found with
  | none =>
    have hzero : 0 ∈ w.order := List.mem_of_getElem? hfirst
    exact iff_of_true rfl fun word => not_acceptsFrom_of_left hended word 0 hzero
  | some v =>
    obtain ⟨hmem, hstop⟩ := hended
    obtain ⟨word, hword⟩ := hmet.holds _ hmem [] ((isAccepting_eq_ok.1 hstop).2.1 rfl)
    exact iff_of_false (by simp) fun hall => hall word hword

theorem gives_isEmpty (hs : s.Sound) (h : a.Formed s) :
    Gives a.isEmpty fun x => x = true ↔ ∀ w, ¬a.Accepts s w := by
  refine (gives_findAccepting hs h).bind fun found hfound => .pure ?_
  rw [Option.isNone_iff_eq_none, hfound]

theorem answers_isEmpty (hs : s.Sound) (h : a.Formed s) :
    Answers a.isEmpty fun x => x = true ↔ ∀ w, ¬a.Accepts s w := by
  refine (Answers.and (P := fun _ => True) ?_ (gives_isEmpty hs h)).mono fun _ hx => hx.2
  refine Answers.bind (P := fun _ => True) ?_ fun _ _ => .pure trivial
  refine (Search.answers_run (R := (· < a.size)) (fun _ hq => hq) h.nonempty
    (fun q hq => ?_) fun q hq => ?_).bind fun _ _ => .pure trivial
  · exact (answers_moves hq).mono fun ms hms m hm => h.closed q m ((hms m).2 hm)
  · exact (answers_isAccepting hq).mono fun _ _ => trivial

end Automaton

end RegularArithmetic
