import RegularArithmetic.Proofs.Program.Placement
import RegularArithmetic.Proofs.Program.Relating
import RegularArithmetic.Proofs.Program.Reuse

/-!
Multiples of an expression by doubling, wherever `adder` leads to the relation that has been
installed for it. Restrictions and declarations may be in force, and of the value that is multiplied
nothing is known but that it is a function of its other propositions.
-/

set_option autoImplicit false

namespace RegularArithmetic

open Binary (IsSum)
open Automaton (Carries times)
open Program (findVar Engine)

namespace Workspace

variable {w w' : Workspace} {d : Domain} {V : Set Nat} {M : (Nat → Nat) → Nat → Prop}
  {v x y : Value} {n n' : Nat} {k : Engine}

/-- For operands in the domain, `adder` leads to a relation of sums. -/
structure Adds (w : Workspace) (d : Domain) : Prop where
  resolves : ∃ name, w.program.resolveAlias name = .ok "bin_add" ∧ ∀ u v z : String,
    w.program.resolveCall ⟨"adder", [⟨.var u, some d⟩, ⟨.var v, some d⟩, ⟨.var z, some d⟩]⟩
      [d, d, d] = .ok ⟨name, [⟨.var u, some d⟩, ⟨.var v, some d⟩, ⟨.var z, some d⟩]⟩
  memo : ∃ q r, w.program.predicates["bin_add"]? = some q ∧ q.memo = some r ∧
    r.Means w.alphabet.diagrams fun _ => IsSum

theorem resolveCall_eq (hle : w ≤ w') (c : Call) (ds : List Domain) :
    w'.program.resolveCall c ds = w.program.resolveCall c ds := by
  have hcallable : w'.program.isCallable = w.program.isCallable := by
    funext name
    simp only [Program.isCallable, hle.predicates, hle.context]
  simp only [Program.resolveCall, hle.declarations, hle.context, hcallable]

theorem Adds.mono (h : w.Adds d) (hs : w.alphabet.diagrams.Sound) (hle : w ≤ w') : w'.Adds d := by
  obtain ⟨⟨name, halias, hcall⟩, q, r, hq, hr, hmeans⟩ := h
  refine ⟨⟨name, (resolveAlias_eq hle name).trans halias, fun u v z => ?_⟩, q, r, ?_, hr,
    hmeans.mono_store hs hle.alphabet.1⟩
  · rw [resolveCall_eq hle, hcall]
  · rw [hle.predicates, hq]

/-- In this state values can be added that are about propositions in `V`, and are in the domain. -/
structure Sums (w : Workspace) (d : Domain) (V : Set Nat) : Prop where
  sound : w.alphabet.diagrams.Sound
  framed : w.program.frames ≠ []
  adds : w.Adds d
  le_size : ∀ q ∈ V, q ≤ w.alphabet.size

theorem Sums.mono (h : w.Sums d V) (hle : w ≤ w') : w'.Sums d V where
  sound := h.sound.mono hle.alphabet.1
  framed hnil := by
    have hlength := hle.frames.length_eq
    rw [hnil] at hlength
    exact h.framed (List.length_eq_zero_iff.1 hlength)
  adds := h.adds.mono h.sound hle
  le_size q hq := (h.le_size q hq).trans (Alphabet.size_mono hle.alphabet)

/-- The value is in its place, with a proposition other than those in `V`, and its automaton carries
what `M` tells. -/
structure Bears (w : Workspace) (V : Set Nat) (M : (Nat → Nat) → Nat → Prop) (v : Value) :
    Prop where
  placed : v.Placed w
  temporary : v.temporary = true
  le_size : v.prop ≤ w.alphabet.size
  not_mem : v.prop ∉ V
  carries : v.automaton.Carries w.alphabet.diagrams V v.prop M

theorem Bears.mono (h : w.Bears V M v) (hs : w.alphabet.diagrams.Sound) (hle : w ≤ w') :
    w'.Bears V M v where
  placed := {
    bound := Program.findVar_of_grows hle.frames h.placed.named h.placed.bound
    named := fun hfuture => h.placed.named (hfuture.mono hle.temporaries) }
  temporary := h.temporary
  le_size := h.le_size.trans (Alphabet.size_mono hle.alphabet)
  not_mem := h.not_mem
  carries := h.carries.mono_store hs hle.alphabet.1

/-- What is summed up so far, which is nothing at first. -/
def Gathers (w : Workspace) (V : Set Nat) (M : (Nat → Nat) → Nat → Prop) (n : Nat) :
    Option Value → Prop
  | none => n = 0
  | some acc => w.Bears V (times n M) acc

theorem Gathers.mono {acc : Option Value} (h : w.Gathers V M n acc)
    (hs : w.alphabet.diagrams.Sound) (hle : w ≤ w') : w'.Gathers V M n acc := by
  cases acc with
  | none => exact h
  | some acc => exact Bears.mono h hs hle

theorem Gathers.le_size {acc : Option Value} (h : w.Gathers V M n acc) :
    ∀ a ∈ acc, a.prop ≤ w.alphabet.size := by
  rintro a rfl
  exact Bears.le_size h

end Workspace

namespace Program

open Workspace (Adds Bears)

variable {w w' : Workspace} {d : Domain} {V : Set Nat} {M : (Nat → Nat) → Nat → Prop}
  {v x y : Value} {n n' : Nat} {k : Engine}

theorem yields_relation_of_memo (hs : w.alphabet.diagrams.Sound) {name name' target : String}
    {vars : List (String × Domain)} {ps : List Nat} {q : Predicate} {r : Relation}
    {R : Nat → List Nat → Prop}
    (hcall : w.program.resolveCall ⟨name, vars.map fun (v, d) => ⟨.var v, some d⟩⟩
      (vars.map (·.2)) = .ok ⟨name', vars.map fun (v, d) => ⟨.var v, some d⟩⟩)
    (halias : w.program.resolveAlias name' = .ok target)
    (hq : w.program.predicates[target]? = some q) (hr : q.memo = some r)
    (hmeans : r.Means w.alphabet.diagrams R)
    (hvars : List.Forall₂ (fun v p => findVar v.1 w.program.frames = .bound p) vars ps) :
    Yields (k.relation name vars) w fun a w' =>
      a.Recognizes w'.alphabet.diagrams {p | p ∈ ps} (fun u => R u.length (ps.map (numbers u))) ∧
        w'.program = w.program := by
  have hcallOn : Yields (k.callOn name' (vars.map (·.1))) w fun a w' =>
      a.Recognizes w'.alphabet.diagrams {p | p ∈ ps} (fun u => R u.length (ps.map (numbers u))) ∧
        w'.program = w.program := by
    unfold Engine.callOn
    refine Yields.of_eq ?_ (bind_of_ok (relationOf_eq_of_resolveAlias halias hq hr))
    refine .ite (fun _ => .throw) fun hlength => ?_
    have hps : List.Forall₂ (fun v p => findVar v w.program.frames = .bound p)
        (vars.map (·.1)) ps := List.forall₂_map_left_iff.2 hvars
    refine Yields.of_eq ?_ (bind_of_ok (mapM_propOf_eq hps))
    have hlength : r.args.length = ps.length := (not_not.1 hlength).symm.trans hps.length_eq
    have hfst : (r.args.zip ps).map (·.1) = r.args := List.map_fst_zip hlength.le
    have hsnd : (r.args.zip ps).map (·.2) = ps := List.map_snd_zip hlength.ge
    have hrename := yields_renameBy (r.args.zip ps) R hs (hfst.symm ▸ hmeans.nodup)
      (hfst.symm ▸ hmeans.recognizes)
    rw [hsnd] at hrename
    exact yields_liftDiagram hrename
  have hresolved : k.relation name vars w =
      k.apply ⟨name', vars.map fun (v, d) => ⟨.var v, some d⟩⟩ w := by
    change (do
      k.apply (← w.program.resolveCall ⟨name, vars.map fun (v, d) => ⟨.var v, some d⟩⟩
        (vars.map (·.2))) : M Automaton) w = _
    rw [hcall]
    rfl
  refine Yields.of_eq ?_ hresolved
  unfold Engine.apply
  rw [mapM_argument, pure_bind]
  have hnames : (vars.map fun (v, _) => (v, (none : Option Value))).map (·.1) = vars.map (·.1) := by
    rw [List.map_map]
    rfl
  have hnone : (vars.map fun (v, _) => (v, (none : Option Value))).filterMap (·.2) = [] := by
    simp [List.filterMap_map]
  rw [hnames, hnone]
  refine hcallOn.bind fun a w' _ ha => ?_
  have hcombine : combine a [] = pure a := by
    rw [combine, List.foldlM_nil, pure_bind]
    exact Automaton.project_of_isEmpty rfl
  rw [hcombine]
  exact .pure ha

section

variable (hM : ∀ σ m m', M σ m → M σ m' → m = m')

include hM

theorem yields_result_bearing (hs : w.alphabet.diagrams.Sound) {name : String} {p : Nat}
    (hbound : findVar name w.program.frames = .bound p)
    (hnamed : ¬IsFuture w.program.temporaries name) (hsize : p ≤ w.alphabet.size)
    (hV : ∀ q ∈ V, q < p) (hx : w.Bears V (times n M) x) (hy : w.Bears V (times n' M) y)
    (hxp : x.prop < p) (hyp : y.prop < p) (hxy : x.prop = y.prop → n = n') {a : Automaton}
    (ha : a.Recognizes w.alphabet.diagrams {q | q ∈ [x.prop, y.prop, p]} fun u =>
      IsSum ([x.prop, y.prop, p].map (numbers u))) :
    Yields (Engine.result a [x, y] name p) w fun v w' =>
      w'.Bears V (times (n + n') M) v ∧ v.prop = p := by
  let W : Set Nat := insert p V ∪ {x.prop, y.prop}
  have ha' : a.Recognizes w.alphabet.diagrams W fun u =>
      IsSum ([x.prop, y.prop, p].map (numbers u)) := by
    refine ha.mono fun q hq => ?_
    have hq : q = x.prop ∨ q = y.prop ∨ q = p := by simpa using hq
    rcases hq with rfl | rfl | rfl <;> simp [W]
  have hvalues : ∀ v ∈ [x, y],
      v.automaton.Recognizes w.alphabet.diagrams W (v.automaton.Accepts w.alphabet.diagrams) := by
    have hW : ∀ {v : Value}, v.prop ∈ W → insert v.prop V ⊆ W := fun hv =>
      Set.insert_subset hv fun q hq => .inl (.inr hq)
    simp only [List.forall_mem_cons, List.not_mem_nil, false_implies, implies_true, and_true]
    exact ⟨hx.carries.recognizes.mono (hW (.inr (.inl rfl))),
      hy.carries.recognizes.mono (hW (.inr (.inr rfl)))⟩
  have htemporaries : temporaryPropsOf [x, y] = [x.prop, y.prop] := by
    simp [temporaryPropsOf, hx.temporary, hy.temporary]
  unfold Engine.result
  refine (yields_liftAlphabet (Program.yields_combine hs ha' hvalues)).bind
    fun b w' hle hcombined => .pure ⟨?_, rfl⟩
  obtain ⟨hb, hprogram⟩ := hcombined
  rw [htemporaries] at hb
  have hx' := hx.mono hs hle
  have hy' := hy.mono hs hle
  have hnew : p ∉ V := fun hp => Nat.lt_irrefl p (hV p hp)
  have hreads : W \ {q | q ∈ [x.prop, y.prop]} ⊆ insert p V := by
    rintro q ⟨hq | hq, hnot⟩
    · exact hq
    · exact absurd (by simpa using hq) hnot
  have hc : (b.withProps [p]).Recognizes w'.alphabet.diagrams (insert p V) fun u => ∃ u',
      Completes [x.prop, y.prop] u u' ∧ numbers u' x.prop + numbers u' y.prop = numbers u' p ∧
        x.automaton.Accepts w'.alphabet.diagrams u' ∧
        y.automaton.Accepts w'.alphabet.diagrams u' := by
    refine ((hb.mono hreads).congr fun u => exists_congr fun u' => ?_).withProps (by simp)
    have haccepts : ∀ {v M'}, w.Bears V M' v → (v.automaton.Accepts w'.alphabet.diagrams u' ↔
      v.automaton.Accepts w.alphabet.diagrams u') := fun hv =>
        Automaton.acceptsFrom_mono hs hle.alphabet.1 hv.carries.recognizes.formed
    simp only [List.map_cons, List.map_nil, IsSum, List.forall_mem_cons, List.not_mem_nil,
      false_implies, implies_true, and_true, haccepts hx, haccepts hy]
  exact {
    placed := ⟨hprogram ▸ hbound, hprogram ▸ hnamed⟩
    temporary := rfl
    le_size := hsize.trans (Alphabet.size_mono hle.alphabet)
    not_mem := hnew
    carries := hx'.carries.sum hM hy'.carries hx.not_mem hy.not_mem hnew hxp.ne' hyp.ne' hxy hc }

theorem yields_add_bearing (hw : w.Sums d V) (hx : w.Bears V (times n M) x)
    (hy : w.Bears V (times n' M) y) (hxy : x.prop = y.prop → n = n') :
    Yields (k.add d x y) w fun v w' =>
      w'.Bears V (times (n + n') M) v ∧ w.alphabet.size < v.prop := by
  unfold Engine.add
  refine (yields_temporary_new (by simp [hints]) hw.framed).bind fun r w₁ hle hr => ?_
  obtain ⟨name, p⟩ := r
  obtain ⟨hbound, hnamed, hlt, hsize⟩ := hr
  have hw₁ := hw.mono hle
  have hx₁ := hx.mono hw.sound hle
  have hy₁ := hy.mono hw.sound hle
  refine (yields_ask _).bind fun domain w' _ hasked => ?_
  obtain ⟨rfl, rfl⟩ := hasked
  obtain ⟨⟨name', halias, hcall⟩, q, r, hq, hr, hmeans⟩ := hw₁.adds
  -- Both operands are temporary, so that they count as operands in the domain of the sum.
  have hdomain : ∀ {v}, v.temporary = true → operandDomain w'.program d v = d := fun ht => by
    rw [operandDomain, if_pos ht]
  simp only [hdomain hx.temporary, hdomain hy.temporary]
  have hvars : List.Forall₂ (fun v p => findVar v.1 w'.program.frames = .bound p)
      [(x.var, d), (y.var, d), (name, d)] [x.prop, y.prop, p] :=
    .cons hx₁.placed.bound (.cons hy₁.placed.bound (.cons hbound .nil))
  refine (yields_relation_of_memo hw₁.sound (hcall x.var y.var name) halias hq hr hmeans
    hvars).bind fun a w₂ hle₁ hrelated => ?_
  obtain ⟨ha, hprogram⟩ := hrelated
  refine (yields_result_bearing hM (hw₁.mono hle₁).sound (hprogram ▸ hbound)
    (hprogram ▸ hnamed) (hsize.trans (Alphabet.size_mono hle₁.alphabet))
    (fun q hq => Nat.lt_of_le_of_lt (hw.le_size q hq) hlt) (hx₁.mono hw₁.sound hle₁)
    (hy₁.mono hw₁.sound hle₁) (Nat.lt_of_le_of_lt hx.le_size hlt)
    (Nat.lt_of_le_of_lt hy.le_size hlt) hxy ha).mono fun v w₃ _ hv => ⟨hv.1, hv.2 ▸ hlt⟩

theorem yields_added_bearing (hw : w.Sums d V) {acc : Option Value} {power : Value}
    (hacc : w.Gathers V M n acc) (hne : ∀ a ∈ acc, a.prop ≠ power.prop)
    (hpower : w.Bears V (times n' M) power) :
    Yields (match acc with
      | none => pure power
      | some a => k.add d a power) w fun v w' => w'.Bears V (times (n + n') M) v := by
  cases acc with
  | none =>
    obtain rfl : n = 0 := hacc
    exact .pure (by rwa [Nat.zero_add])
  | some a =>
    exact (yields_add_bearing hM hw hacc hpower fun h => absurd h (hne a rfl)).mono
      fun v w' _ h => h.1

theorem yields_multiple_bearing (m : Nat) (hm : 0 < m) : ∀ {n e : Nat} {acc : Option Value}
    {power : Value} {w : Workspace}, w.Sums d V → w.Gathers V M n acc →
    (∀ a ∈ acc, a.prop ≠ power.prop) → w.Bears V (times e M) power →
    Yields (k.multiple d acc power m) w fun v w' => w'.Bears V (times (n + m * e) M) v := by
  induction m using Nat.strong_induction_on with
  | _ m ih =>
    intro n e acc power w hw hacc hne hpower
    rw [Engine.multiple.eq_def]
    have hadded := yields_added_bearing (k := k) hM hw hacc hne hpower
    refine .ite (fun hone => ?_) fun hone => ?_
    · obtain rfl : m = 1 := by omega
      rwa [Nat.one_mul]
    -- The doubled power is new, so that its proposition is not the accumulator's.
    have hrest : ∀ {acc n' w₁}, w ≤ w₁ → w₁.Gathers V M n' acc →
        n' + m / 2 * (e + e) = n + m * e → Yields (do
          let power ← k.add d power power
          k.multiple d acc power (m / 2)) w₁ fun v w' => w'.Bears V (times (n + m * e) M) v := by
      intro acc n' w₁ hle hacc hsum
      have hw₁ := hw.mono hle
      have hpower₁ := hpower.mono hw.sound hle
      refine (yields_add_bearing hM hw₁ hpower₁ hpower₁ fun _ => rfl).bind
        fun power w₂ hle₁ ⟨hpower, hnew⟩ => ?_
      rw [← hsum]
      refine ih (m / 2) (by omega) (by omega) (hw₁.mono hle₁) (hacc.mono hw₁.sound hle₁)
        (fun a ha heq => ?_) hpower
      exact absurd (hacc.le_size a ha) (heq ▸ Nat.not_le.2 hnew)
    have hhalf : m / 2 * (e + e) = m / 2 * 2 * e := by
      rw [Nat.mul_assoc, Nat.two_mul]
    have hsplit : m * e = m / 2 * 2 * e + m % 2 * e := by
      rw [← Nat.add_mul, Nat.div_add_mod']
    by_cases hodd : m % 2 = 1
    · simp only [if_pos hodd]
      refine (hadded.map (Q := fun acc w₁ => w₁.Gathers V M (n + e) acc) fun v w₁ _ hv => hv).bind
        fun acc w₁ hle hacc => hrest hle hacc ?_
      rw [hodd, Nat.one_mul] at hsplit
      omega
    · simp only [if_neg hodd, pure_bind]
      refine hrest le_rfl hacc ?_
      rw [show m % 2 = 0 by omega, Nat.zero_mul] at hsplit
      omega

end

end Program

end RegularArithmetic
