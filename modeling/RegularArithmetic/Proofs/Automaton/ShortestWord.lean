import RegularArithmetic.Proofs.Automaton.Letters
import RegularArithmetic.Proofs.Diagram.Covering

/-!
Shortest accepted words. States are left in the order in which they are met, so that each is met
along as few moves as possible, the first accepting one among them. The moves on the way have
letters that satisfy their labels, as long as the propositions fit signed literals.
-/

set_option autoImplicit false

namespace RegularArithmetic

open Diagram (Edge Assignment agrees)

namespace Search

variable {n q₀ : Nat} {w w' : Search} {moves : Nat → Except Fault (List Move)}
  {stop : Nat → Except Fault Bool}

/-- The labels, last first, of moves that lead from `q₀` to a state. -/
inductive Trail (moves : Nat → Except Fault (List Move)) (q₀ : Nat) : List Edge → Nat → Prop
  | start : Trail moves q₀ [] q₀
  | move {es : List Edge} {q : Nat} {ms : List Move} {m : Move} (h : Trail moves q₀ es q)
    (hms : moves q = .ok ms) (hm : m ∈ ms) : Trail moves q₀ (m.label :: es) m.target

/-- The visits before number `i` were left. Every visit has a trail, the trails come in the order of
their lengths, and those that are still to be left are at most one longer than the next of them. -/
structure Layered (moves : Nat → Except Fault (List Move)) (stop : Nat → Except Fault Bool)
    (q₀ i : Nat) (w : Search) : Prop where
  first : w.visits[0]? = some ⟨q₀, []⟩
  trail : ∀ v ∈ w.visits.toList, Trail moves q₀ v.path v.state
  sorted : w.visits.toList.Pairwise (·.path.length ≤ ·.path.length)
  narrow : ∀ u, w.visits[i]? = some u → ∀ v ∈ w.visits.toList, v.path.length ≤ u.path.length + 1
  left : ∀ j < i, ∀ u, w.visits[j]? = some u → stop u.state = .ok false ∧
    ∃ ms, moves u.state = .ok ms ∧ ∀ m ∈ ms, ∃ v ∈ w.visits.toList,
      v.state = m.target ∧ v.path.length ≤ u.path.length + 1

theorem Layered.startAt : Layered moves stop q₀ 0 (startAt n q₀) where
  first := rfl
  trail v hv := by
    obtain rfl : v = ⟨q₀, []⟩ := by simpa [Search.startAt] using hv
    exact .start
  sorted := by simp [Search.startAt]
  narrow u _ v hv := by
    obtain rfl : v = ⟨q₀, []⟩ := by simpa [Search.startAt] using hv
    exact Nat.zero_le _
  left j hj := absurd hj (Nat.not_lt_zero j)

theorem Layered.length_le {i j k : Nat} (h : Layered moves stop q₀ i w) {u v : Visit}
    (hu : w.visits[j]? = some u) (hv : w.visits[k]? = some v) (hjk : j ≤ k) :
    u.path.length ≤ v.path.length := by
  rcases Nat.eq_or_lt_of_le hjk with rfl | hlt
  · rw [hu] at hv
    rw [Option.some.inj hv]
  · rw [← Array.getElem?_toList] at hu hv
    obtain ⟨hj, rfl⟩ := List.getElem?_eq_some_iff.1 hu
    obtain ⟨hk, rfl⟩ := List.getElem?_eq_some_iff.1 hv
    exact List.pairwise_iff_getElem.1 h.sorted j k hj hk hlt

theorem Layered.lt_of_shorter {i j : Nat} (h : Layered moves stop q₀ i w) {v : Visit}
    (hv : w.visits[j]? = some v)
    (hshorter : ∀ u, w.visits[i]? = some u → v.path.length < u.path.length) : j < i := by
  by_contra hij
  have hi : i < w.visits.size :=
    (Nat.le_of_not_lt hij).trans_lt (Array.getElem?_eq_some_iff.1 hv).1
  have hu := Array.getElem?_eq_getElem hi
  exact (hshorter _ hu).not_ge (h.length_le hu hv (Nat.le_of_not_lt hij))

theorem gives_meet_visits (path : List Edge) (w : Search) (m : Move) :
    Gives (meet path w m) fun w' => ∃ new, w'.visits.toList = w.visits.toList ++ new ∧
      ∀ v ∈ new, v = ⟨m.target, m.label :: path⟩ := by
  obtain ⟨seen, visits⟩ := w
  simp only [meet]
  cases seen[m.target]? with
  | none => exact .error
  | some b =>
    cases b with
    | true => exact .ok ⟨[], by simp⟩
    | false => exact .ok ⟨[⟨m.target, m.label :: path⟩], by simp⟩

theorem gives_meetAll_visits (path : List Edge) (ms : List Move) (w : Search) :
    Gives (ms.foldlM (meet path) w) fun w' => ∃ new,
      w'.visits.toList = w.visits.toList ++ new ∧
        ∀ v ∈ new, ∃ m ∈ ms, v = ⟨m.target, m.label :: path⟩ := by
  refine Gives.foldlM (fun (done : List Move) (w' : Search) => ∃ new,
    w'.visits.toList = w.visits.toList ++ new ∧
      ∀ v ∈ new, ∃ m ∈ done, v = ⟨m.target, m.label :: path⟩) ⟨[], by simp⟩ ?_
  rintro done m rest - w₁ ⟨new, hnew, hall⟩
  refine (gives_meet_visits path w₁ m).mono fun w₂ ⟨new', hnew', hall'⟩ => ?_
  refine ⟨new ++ new', by rw [hnew', hnew, List.append_assoc], fun v hv => ?_⟩
  rcases List.mem_append.1 hv with hv | hv
  · obtain ⟨m', hm', hv⟩ := hall v hv
    exact ⟨m', List.mem_append_left _ hm', hv⟩
  · exact ⟨m, by simp, hall' v hv⟩

theorem getElem?_visits_of_append {new : List Visit}
    (h : w'.visits.toList = w.visits.toList ++ new) {j : Nat} {u : Visit}
    (hu : w.visits[j]? = some u) : w'.visits[j]? = some u := by
  rw [← Array.getElem?_toList] at hu ⊢
  rw [h, List.getElem?_append_left (List.getElem?_eq_some_iff.1 hu).1, hu]

theorem Layered.leave {i : Nat} {v : Visit} {ms : List Move} {new : List Visit}
    (h : Layered moves stop q₀ i w) (hv : w.visits[i]? = some v) (hstop : stop v.state = .ok false)
    (hms : moves v.state = .ok ms) (happend : w'.visits.toList = w.visits.toList ++ new)
    (hnew : ∀ u ∈ new, ∃ m ∈ ms, u = ⟨m.target, m.label :: v.path⟩)
    (hmet : ∀ m ∈ ms, m.target ∈ w'.order) : Layered moves stop q₀ (i + 1) w' := by
  have hlength : ∀ u ∈ new, u.path.length = v.path.length + 1 := by
    intro u hu
    obtain ⟨m, -, rfl⟩ := hnew u hu
    rfl
  have hmem : v ∈ w.visits.toList := Array.mem_toList_iff.2 (Array.mem_of_getElem? hv)
  have hnarrow : ∀ u ∈ w'.visits.toList, u.path.length ≤ v.path.length + 1 := by
    intro u hu
    rw [happend] at hu
    rcases List.mem_append.1 hu with hu | hu
    · exact h.narrow v hv u hu
    · exact (hlength u hu).le
  have hold := getElem?_visits_of_append happend hv
  have hsorted : w'.visits.toList.Pairwise (·.path.length ≤ ·.path.length) := by
    rw [happend, List.pairwise_append]
    refine ⟨h.sorted, ?_, fun u hu u' hu' => ?_⟩
    · exact List.pairwise_of_forall_mem_list fun u hu u' hu' =>
        ((hlength u hu).trans (hlength u' hu').symm).le
    · rw [hlength u' hu']
      exact h.narrow v hv u hu
  refine ⟨getElem?_visits_of_append happend h.first, fun u hu => ?_, hsorted, fun u hu u' hu' => ?_,
    fun j hj u hu => ?_⟩
  · rw [happend] at hu
    rcases List.mem_append.1 hu with hu | hu
    · exact h.trail u hu
    · obtain ⟨m, hm, rfl⟩ := hnew u hu
      exact .move (h.trail v hmem) hms hm
  · have hle : v.path.length ≤ u.path.length := by
      rw [← Array.getElem?_toList] at hold hu
      obtain ⟨hi, rfl⟩ := List.getElem?_eq_some_iff.1 hold
      obtain ⟨hi', rfl⟩ := List.getElem?_eq_some_iff.1 hu
      exact List.pairwise_iff_getElem.1 hsorted i (i + 1) hi hi' (Nat.lt_succ_self i)
    exact (hnarrow u' hu').trans (Nat.add_le_add_right hle 1)
  · rcases Nat.lt_succ_iff_lt_or_eq.1 hj with hlt | rfl
    · have hu' : w.visits[j]? = some u := by
        rw [← Array.getElem?_toList] at hu ⊢
        have hi := (Array.getElem?_eq_some_iff.1 hv).1
        rwa [happend, List.getElem?_append_left (by simpa using hlt.trans hi)] at hu
      obtain ⟨hstop', ms', hms', hall⟩ := h.left j hlt u hu'
      refine ⟨hstop', ms', hms', fun m hm => ?_⟩
      obtain ⟨u', hmem', hu'⟩ := hall m hm
      exact ⟨u', happend ▸ List.mem_append_left _ hmem', hu'⟩
    · rw [hold] at hu
      cases hu
      refine ⟨hstop, ms, hms, fun m hm => ?_⟩
      obtain ⟨u, hu, hstate⟩ := List.mem_map.1 (hmet m hm)
      exact ⟨u, hu, hstate, hnarrow u hu⟩

theorem gives_runFrom_layered (left : Nat) : ∀ (i : Nat) (w : Search), Met n (fun _ => True) w →
    Layered moves stop q₀ i w → n ≤ left + i →
    Gives (runFrom moves stop left i w) fun r => ∃ j, Layered moves stop q₀ j r.1 ∧
      r.1.visits[j]? = r.2 ∧ ∀ v, r.2 = some v → stop v.state = .ok true := by
  induction left with
  | zero =>
    intro i w hmet h hi
    have hnone : w.visits[i]? = none :=
      Array.getElem?_eq_none (hmet.size_visits_le.trans (by omega))
    exact .ok ⟨i, h, hnone, fun v hv => nomatch hv⟩
  | succ left ih =>
    intro i w hmet h hi
    rw [runFrom]
    cases hv : w.visits[i]? with
    | none => exact .ok ⟨i, h, hv, fun v hv => nomatch hv⟩
    | some v =>
      refine Gives.bind (P := fun x => stop v.state = .ok x) (fun _ hx => hx) fun x hx => ?_
      cases x with
      | true =>
        refine .pure ⟨i, h, hv, ?_⟩
        rintro _ ⟨⟩
        exact hx
      | false =>
        refine Gives.bind (P := fun ms => moves v.state = .ok ms) (fun _ hms => hms)
          fun ms hms => ?_
        have hmeet := gives_meetAll v.path (R := fun _ => True) (fun m (_ : m ∈ ms) => trivial) hmet
        have hvisits := gives_meetAll_visits v.path ms w
        refine Gives.bind (P := fun w' => ms.foldlM (meet v.path) w = .ok w') (fun _ hw' => hw')
          fun w' hw' => ?_
        obtain ⟨hmet', hall, -⟩ := hmeet w' hw'
        obtain ⟨new, happend, hnew⟩ := hvisits w' hw'
        exact ih (i + 1) w' hmet' (h.leave hv hx hms happend hnew hall) (by omega)

/-- What a trail leads to is met along one that is no longer, unless that would be longer than those
of the visits that were left. -/
theorem Layered.exists_visit {i : Nat} (h : Layered moves stop q₀ i w) {es : List Edge} {q : Nat}
    (htrail : Trail moves q₀ es q)
    (hshort : ∀ u, w.visits[i]? = some u → es.length ≤ u.path.length) :
    ∃ (j : Nat) (v : Visit), w.visits[j]? = some v ∧ v.state = q ∧
      v.path.length ≤ es.length := by
  induction htrail with
  | start => exact ⟨0, _, h.first, rfl, le_rfl⟩
  | @move es q ms m _ hms hm ih =>
    obtain ⟨j, v, hv, rfl, hle⟩ := ih fun u hu => (Nat.le_succ _).trans (hshort u hu)
    have hlt : j < i := h.lt_of_shorter hv fun u hu => hle.trans_lt (hshort u hu)
    obtain ⟨-, ms', hms', hall⟩ := h.left j hlt v hv
    rw [hms] at hms'
    cases hms'
    obtain ⟨u, hu, hstate, hle'⟩ := hall m hm
    obtain ⟨k, hk⟩ := List.mem_iff_getElem?.1 hu
    rw [Array.getElem?_toList] at hk
    exact ⟨k, u, hk, hstate, hle'.trans (Nat.succ_le_succ hle)⟩

theorem gives_run_shortest (hq : q₀ < n) :
    Gives ((startAt n q₀).run moves stop) fun r =>
      (∀ v, r.2 = some v → Trail moves q₀ v.path v.state ∧ stop v.state = .ok true) ∧
        ∀ es q, Trail moves q₀ es q → stop q = .ok true →
          ∃ v, r.2 = some v ∧ v.path.length ≤ es.length := by
  refine (gives_runFrom_layered _ 0 _ (.startAt hq trivial) .startAt (by simp [startAt])).mono ?_
  rintro ⟨w, found⟩ ⟨i, h, hfound, hstop⟩
  dsimp only at h hfound hstop ⊢
  refine ⟨fun v hv => ⟨?_, hstop v hv⟩, fun es q htrail hq => ?_⟩
  · rw [hv] at hfound
    exact h.trail v (Array.mem_toList_iff.2 (Array.mem_of_getElem? hfound))
  · by_contra hnot
    have hshort : ∀ u, w.visits[i]? = some u → es.length < u.path.length := by
      intro u hu
      by_contra hle
      exact hnot ⟨u, hfound.symm.trans hu, Nat.le_of_not_lt hle⟩
    obtain ⟨j, v, hv, rfl, hle⟩ := h.exists_visit htrail fun u hu => (hshort u hu).le
    -- A visit with so short a trail was left, and was not one to stop at.
    have hlt : j < i := h.lt_of_shorter hv fun u hu => hle.trans_lt (hshort u hu)
    have hleft := (h.left j hlt v hv).1
    rw [hq] at hleft
    cases hleft

end Search

namespace Letter

/-- The letter in which the propositions of the positive literals are true, and no others. -/
def ofCube (c : List Int) : Letter := .ofList ((c.filter (0 < ·)).map Int.toNat)

theorem mem_ofCube {c : List Int} {p : Nat} : p ∈ ofCube c ↔ 0 < p ∧ (p : Int) ∈ c := by
  rw [ofCube, NumberSet.mem_ofList, List.mem_map]
  simp only [List.mem_filter, decide_eq_true_eq]
  constructor
  · rintro ⟨l, ⟨hl, hpos⟩, rfl⟩
    rw [Int.toNat_of_nonneg hpos.le]
    exact ⟨by omega, hl⟩
  · rintro ⟨hpos, hp⟩
    exact ⟨p, ⟨hp, by exact_mod_cast hpos⟩, Int.toNat_natCast p⟩

theorem all_agrees_ofCube {c : List Int} (hc : c.Pairwise (·.natAbs < ·.natAbs)) :
    c.all (agrees (assignment (ofCube c))) = true := by
  rw [List.all_eq_true]
  intro l hl
  rw [agrees, beq_iff_eq, assignment, decide_eq_decide, mem_ofCube]
  rcases Int.natAbs_eq l with heq | heq
  · rw [← heq]
    constructor
    · rintro ⟨hpos, -⟩
      omega
    · intro hpos
      exact ⟨by omega, hl⟩
  · have hopposite : 0 < l.natAbs → (l.natAbs : Int) ∉ c := by
      intro hpos hmem
      have hnodup : (c.map Int.natAbs).Nodup :=
        List.pairwise_map.2 (hc.imp fun hlt => hlt.ne)
      have hsame := List.inj_on_of_nodup_map hnodup hmem hl (Int.natAbs_natCast l.natAbs)
      omega
    exact iff_of_false (fun h => hopposite h.1 h.2) (by omega)

theorem exists_someCube? {s : Diagram.Store} {e : Edge} (hs : s.Sound) (he : s.Valid e)
    (hz : e ≠ .zero) (hvars : ∀ v, s.Matters e v → v < 2 ^ 31) :
    ∃ c, s.someCube? e = .ok (some c) ∧ s.value e (assignment (ofCube c)) = true := by
  obtain ⟨cs, -, hcs⟩ := Diagram.answers_divides hs hvars he
  cases hlast : cs.getLast? with
  | none => exact absurd (Diagram.Store.someCube?_eq_none.1 (hlast ▸ hcs.last)) hz
  | some c =>
    have hmem : c ∈ cs := List.mem_of_getLast? hlast
    refine ⟨c, hlast ▸ hcs.last, ?_⟩
    rw [hcs.value, List.any_eq_true]
    exact ⟨c, hmem, all_agrees_ofCube (hcs.increasing c hmem)⟩

end Letter

namespace Automaton

variable {s : Diagram.Store} {a : Automaton} {q : Nat}

/-- The labels are about propositions whose numbers fit signed literals, as they are in all
alphabets of fewer than 2^31 propositions. -/
def FitsLiterals (s : Diagram.Store) (a : Automaton) : Prop :=
  ∀ q m, a.HasMove q m → ∀ p, s.Matters m.label p → p < 2 ^ 31

theorem exists_trail {w : Word} (h : Reaches s a 0 w q) :
    ∃ es, Search.Trail a.moves 0 es q ∧ es.length = w.length := by
  induction w using List.reverseRecOn generalizing q with
  | nil =>
    cases h
    exact ⟨[], .start, rfl⟩
  | append_singleton w l ih =>
    obtain ⟨p, hp, m, hm, -, rfl⟩ := reaches_concat.1 h
    obtain ⟨es, htrail, hlength⟩ := ih hp
    obtain ⟨ms, hms, hiff⟩ := answers_moves hm.lt
    exact ⟨m.label :: es, .move htrail hms ((hiff m).1 hm), by simp [hlength]⟩

theorem hasMove_of_trail {es : List Edge} (h : Search.Trail a.moves 0 es q) :
    ∀ e ∈ es, ∃ q' m, a.HasMove q' m ∧ m.label = e := by
  induction h with
  | start => exact fun e he => absurd he List.not_mem_nil
  | @move es q ms m _ hms hm ih =>
    intro e he
    rcases List.mem_cons.1 he with rfl | he
    · exact ⟨q, m, ((moves_eq_ok hms).2 m).2 hm, rfl⟩
    · exact ih e he

theorem reaches_of_trail {es : List Edge} (h : Search.Trail a.moves 0 es q) :
    ∀ {ls : List Assignment}, List.Forall₂ (fun e l => s.value e l = true) es ls →
      Reaches s a 0 ls.reverse q := by
  induction h with
  | start =>
    intro ls hls
    cases hls
    rfl
  | @move es q ms m _ hms hm ih =>
    intro ls hls
    obtain ⟨l, ls', hl, hls', rfl⟩ := List.forall₂_cons_left_iff.1 hls
    rw [List.reverse_cons, reaches_concat]
    exact ⟨q, ih hls', m, ((moves_eq_ok hms).2 m).2 hm, hl, rfl⟩

theorem answers_findAccepting (h : a.Formed s) : Answers a.findAccepting fun found =>
    (∀ v, found = some v → Search.Trail a.moves 0 v.path v.state ∧ a.Accepting v.state) ∧
      ∀ w, a.Accepts s w → ∃ v, found = some v ∧ v.path.length ≤ w.length := by
  refine (((Search.answers_run (R := (· < a.size)) (fun _ hq => hq) h.nonempty
    (fun q hq => ?_) fun q hq => ?_).mono fun _ _ => trivial).and
      (Search.gives_run_shortest h.nonempty)).bind ?_
  · exact (answers_moves hq).mono fun ms hms m hm => h.closed q m ((hms m).2 hm)
  · exact (answers_isAccepting hq).mono fun _ _ => trivial
  · rintro ⟨w, found⟩ ⟨-, hfound, hshortest⟩
    refine .pure ⟨fun v hv => ?_, fun w hw => ?_⟩
    · obtain ⟨htrail, hstop⟩ := hfound v hv
      exact ⟨htrail, (isAccepting_eq_ok.1 hstop).2.1 rfl⟩
    · obtain ⟨q, hq, haccepting⟩ := acceptsFrom_iff_reaches.1 hw
      obtain ⟨es, htrail, hlength⟩ := exists_trail hq
      have hstop : a.isAccepting q = .ok true :=
        isAccepting_eq_ok.2 ⟨haccepting.lt, iff_of_true rfl haccepting⟩
      exact hlength ▸ hshortest es q htrail hstop

theorem answers_letters (hs : s.Sound) {es : List Edge} (hes : ∀ e ∈ es, s.Valid e ∧ e ≠ .zero ∧
    ∀ p, s.Matters e p → p < 2 ^ 31) :
    Answers (es.mapM fun e => do return (← s.someCube? e).map Letter.ofCube) fun ls? =>
      ∃ ls, ls?.mapM id = some ls ∧
        List.Forall₂ (fun e l => s.value e (Letter.assignment l) = true) es ls := by
  refine (Answers.mapM (fun e l? => ∃ l, l? = some l ∧ s.value e (Letter.assignment l) = true) es
    fun e he => ?_).mono fun ls? h => ?_
  · obtain ⟨hvalid, hz, hvars⟩ := hes e he
    obtain ⟨c, hc, hvalue⟩ := Letter.exists_someCube? hs hvalid hz hvars
    rw [hc]
    exact .pure ⟨_, rfl, hvalue⟩
  · clear hes
    induction h with
    | nil => exact ⟨[], rfl, .nil⟩
    | cons hl _ ih =>
      obtain ⟨l, rfl, hvalue⟩ := hl
      obtain ⟨ls, hls, hall⟩ := ih
      exact ⟨l :: ls, by simp [List.mapM_cons, hls], .cons hvalue hall⟩

theorem acceptedWord?_eq (hs : s.Sound) (h : a.Formed s) (hfits : a.FitsLiterals s) :
    ∃ w?, a.acceptedWord? s = .ok w? s ∧ (w? = none → ∀ w, ¬a.Accepts s w) ∧
      ∀ w, w? = some w → a.Accepts s (Word.ofLetters w) ∧
        ∀ w', a.Accepts s w' → w.length ≤ w'.length := by
  obtain ⟨found, hrun, hfound, hshortest⟩ := answers_findAccepting h
  cases found with
  | none =>
    refine ⟨none, by simp only [acceptedWord?, Diagram.ask, hrun]; rfl, fun _ w hw => ?_, by simp⟩
    obtain ⟨v, hv, -⟩ := hshortest w hw
    cases hv
  | some v =>
    obtain ⟨htrail, haccepting⟩ := hfound v rfl
    have hlabels : ∀ e ∈ v.path, s.Valid e ∧ e ≠ .zero ∧ ∀ p, s.Matters e p → p < 2 ^ 31 := by
      intro e he
      obtain ⟨q, m, hm, rfl⟩ := hasMove_of_trail htrail e he
      exact ⟨h.valid q m hm, h.satisfiable q m hm, hfits q m hm⟩
    obtain ⟨ls?, hletters, ls, hls, hvalues⟩ := answers_letters hs hlabels
    refine ⟨some ls.reverse, ?_, by simp, ?_⟩
    · have hletters' : (v.path.mapM fun label => do
          return (← s.someCube? label).map fun cube : List Int =>
            NumberSet.ofList ((cube.filter (0 < ·)).map Int.toNat)) = .ok ls? := hletters
      simp only [acceptedWord?, Diagram.ask, hrun, bind, Except.bind] at hletters' ⊢
      rw [hletters']
      simp [hls, pure, Except.pure]
    · rintro _ ⟨⟩
      have hreaches := reaches_of_trail (s := s) htrail (List.forall₂_map_right_iff.2 hvalues)
      constructor
      · rw [Word.ofLetters, List.map_reverse]
        exact acceptsFrom_iff_reaches.2 ⟨v.state, hreaches, haccepting⟩
      · intro w' hw'
        obtain ⟨v', hv', hle⟩ := hshortest w' hw'
        cases hv'
        rwa [List.length_reverse, ← hvalues.length_eq]

/-- A deterministic automaton is searched for a shortest word of letters that it admits. The search
ends with none exactly if there is no such word. -/
theorem returns_shortest (hs : s.Sound) (ha : a.Formed s) (had : a.Deterministic s)
    (hfits : a.FitsLiterals s) :
    Returns a.acceptedWord? s fun w? t => t = s ∧ (w? = none ↔ ∀ w, ¬a.Admits s w) ∧
      ∀ w, w? = some w → a.Admits s w ∧ ∀ w', w'.length < w.length → ¬a.Admits s w' := by
  obtain ⟨w?, hrun, hnone, hsome⟩ := acceptedWord?_eq hs ha hfits
  have hadmits := fun w => ha.readable.admits_iff hs had (w := w)
  refine ⟨w?, s, hrun, le_rfl, rfl, ?_, fun w hw => ?_⟩
  · cases w? with
    | none => exact iff_of_true rfl fun w hw => hnone rfl _ ((hadmits w).1 hw)
    | some w => exact iff_of_false (by simp) fun hall => hall w ((hadmits w).2 (hsome w rfl).1)
  · obtain ⟨haccepts, hleast⟩ := hsome w hw
    refine ⟨(hadmits w).2 haccepts, fun w' hlt hw' => ?_⟩
    have hle := hleast _ ((hadmits w').1 hw')
    rw [Word.ofLetters, List.length_map] at hle
    exact hlt.not_ge hle

/-- Waits for the first letter that satisfies the label, and reads nothing after it. -/
def firstOf (e : Edge) : Automaton := ⟨#[⟨false, [⟨0, -e⟩, ⟨1, e⟩]⟩, ⟨true, []⟩], ∅⟩

theorem hasMove_firstOf {e : Edge} {m : Move} :
    (firstOf e).HasMove q m ↔ q = 0 ∧ (m = ⟨0, -e⟩ ∨ m = ⟨1, e⟩) := by
  simp only [HasMove, firstOf, List.getElem?_toArray]
  rcases q with _ | _ | q <;> simp

theorem formed_firstOf {e : Edge} (he : s.Valid e) (hz : e ≠ .zero) (hz' : -e ≠ .zero) :
    (firstOf e).Formed s := by
  have hall : ∀ q m, (firstOf e).HasMove q m →
      m.target < (firstOf e).size ∧ s.Valid m.label ∧ m.label ≠ .zero := by
    intro q m hm
    rcases hasMove_firstOf.1 hm with ⟨-, rfl | rfl⟩
    · exact ⟨by simp [firstOf, size], Diagram.Store.valid_neg.2 he, hz'⟩
    · exact ⟨by simp [firstOf, size], he, hz⟩
  constructor
  · simp [firstOf, size]
  · exact fun q m hm => (hall q m hm).1
  · exact fun q m hm => (hall q m hm).2.1
  · exact fun q m hm => (hall q m hm).2.2

theorem deterministic_firstOf (hs : s.Sound) {e : Edge} (he : s.Valid e) :
    (firstOf e).Deterministic s := by
  have hexclusive : ∀ l, s.value e l = true → s.value (-e) l ≠ true := by
    intro l hl
    simp [hs.value_neg he, hl]
  rintro q l r r' ⟨m, hm, hl, rfl⟩ ⟨m', hm', hl', rfl⟩
  obtain ⟨-, rfl | rfl⟩ := hasMove_firstOf.1 hm <;>
    obtain ⟨-, rfl | rfl⟩ := hasMove_firstOf.1 hm'
  · rfl
  · exact absurd hl (hexclusive l hl')
  · exact absurd hl' (hexclusive l hl)
  · rfl

theorem exists_formed_firstOf {v : Nat} (hv : v ≠ 0) : ∃ s t e,
    Diagram.Store.empty? 1 = .ok s ∧ Diagram.makeVariable v s = .ok e t ∧ t.Sound ∧
    (firstOf e).Formed t ∧ (firstOf e).Deterministic t ∧ t.Denotes e fun σ => σ v := by
  obtain ⟨s, t, e, hs, ht, hsound, hformed, hformed'⟩ := exists_formed_loop hv
  have he : t.Denotes e fun σ => σ v :=
    ((Diagram.yields_makeVariable (Diagram.Store.Sound.empty? hs) v).of_ok ht).2
  have hmove : (loop e).HasMove 0 ⟨0, e⟩ := hasMove_loop.2 ⟨rfl, rfl⟩
  have hmove' : (loop (-e)).HasMove 0 ⟨0, -e⟩ := hasMove_loop.2 ⟨rfl, rfl⟩
  exact ⟨s, t, e, hs, ht, hsound, formed_firstOf he.valid (hformed.satisfiable 0 _ hmove)
    (hformed'.satisfiable 0 _ hmove'), deterministic_firstOf hsound he.valid, he⟩

/-- The word that is found waits for no letter. -/
theorem returns_shortest_firstOf : ∃ s t e, Diagram.Store.empty? 1 = .ok s ∧
    Diagram.makeVariable 1 s = .ok e t ∧ t.Sound ∧ (firstOf e).Formed t ∧
    (firstOf e).Deterministic t ∧ (firstOf e).FitsLiterals t ∧
    Returns (firstOf e).acceptedWord? t fun w? u => u = t ∧
      (w? = none ↔ ∀ w, ¬(firstOf e).Admits t w) ∧
      ∀ w, w? = some w → (firstOf e).Admits t w ∧
        ∀ w', w'.length < w.length → ¬(firstOf e).Admits t w' := by
  obtain ⟨s, t, e, hs, ht, hsound, ha, had, he⟩ := exists_formed_firstOf one_ne_zero
  have hfits : (firstOf e).FitsLiterals t := by
    intro q m hm p hp
    suffices hp1 : p ∈ ({1} : Set Nat) by
      obtain rfl := hp1
      decide
    refine hp.mem fun σ τ hστ => ?_
    rcases hasMove_firstOf.1 hm with ⟨-, rfl | rfl⟩
    · simp only [(he.neg hsound).value_eq, hστ 1 rfl]
    · simp only [he.value_eq, hστ 1 rfl]
  exact ⟨s, t, e, hs, ht, hsound, ha, had, hfits, returns_shortest hsound ha had hfits⟩

def missesWord (a : Automaton) (s : Diagram.Store) : Bool :=
  match a.acceptedWord? s with
  | .ok (some w) _ =>
    match a.accepts w s with
    | .ok accepted _ => !accepted
    | .error _ _ => false
  | _ => false

theorem exists_of_missesWord (h : a.missesWord s = true) :
    ∃ w, a.acceptedWord? s = .ok (some w) s ∧ ¬a.Admits s w := by
  unfold missesWord at h
  split at h
  · rename_i w t hrun
    obtain rfl : t = s := by
      simp only [acceptedWord?, Diagram.ask] at hrun
      split at hrun <;> cases hrun
      rfl
    refine ⟨w, hrun, fun hadmits => ?_⟩
    rw [hadmits] at h
    cases h
  · cases h

/-- The letter that is made for the largest variable has another variable in place of it, which is
false, and does not satisfy the label. -/
theorem not_admits_acceptedWord? : ∃ s t e w, Diagram.Store.empty? 1 = .ok s ∧
    Diagram.makeVariable 4294967295 s = .ok e t ∧ (firstOf e).Formed t ∧
    (firstOf e).Deterministic t ∧ (firstOf e).acceptedWord? t = .ok (some w) t ∧
    ¬(firstOf e).Admits t w := by
  obtain ⟨s, t, e, hs, ht, -, hformed, hdet, -⟩ :=
    exists_formed_firstOf (v := 4294967295) (by decide)
  have hmisses : testVariable 4294967295 (fun t e => (firstOf e).missesWord t) = true := by
    decide +kernel
  rw [testVariable_eq _ hs ht] at hmisses
  obtain ⟨w, hword, hnot⟩ := exists_of_missesWord hmisses
  exact ⟨s, t, e, w, hs, ht, hformed, hdet, hword, hnot⟩

end Automaton

end RegularArithmetic
