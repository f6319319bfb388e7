import RegularArithmetic.Program.Arithmetic
import RegularArithmetic.Proofs.Program.Calls

/-!
Integer expressions: the value of an expression stands for what the expression does. The largest
part of it is about one operation, whose result is new and whose operands are quantified.
-/

set_option autoImplicit false

namespace RegularArithmetic

open Program (findVar Engine temporaryPropsOf)

theorem Completes.congr {T T' : List Nat} (h : ∀ p, p ∈ T ↔ p ∈ T') {u u' : Word} :
    Completes T u u' ↔ Completes T' u u' := by
  have hnil : T = [] ↔ T' = [] := by
    rw [List.eq_nil_iff_forall_not_mem, List.eq_nil_iff_forall_not_mem]
    simp only [h]
  simp only [Completes, h, hnil]

abbrev Operands := List (Value × (Valuation → Operand))

namespace Workspace

variable {I : Interpretation} {K : Limits} {w w' : Workspace} {l : Operands} {τ : Valuation}
  {p : Nat} {operands : List Value}

/-- The values stand for what they should, and the temporary ones have propositions of their own;
these were all made before proposition `p`. -/
structure HasOperands (w : Workspace) (K : Limits) (l : Operands) (p : Nat) : Prop where
  stands : ∀ e ∈ l, ∃ start, w.Stands K e.1 e.2 start
  lt : ∀ e ∈ l, e.1.prop < p
  nodup : (temporaryPropsOf (l.map (·.1))).Nodup

def slotsOf (w : Workspace) (l : Operands) (τ : Valuation) : List Slot :=
  l.map fun e => w.slotOf (e.2 τ) e.1

theorem HasOperands.temporaries_eq (h : w.HasOperands K l p) :
    Slot.temporaries (w.slotsOf l τ) = temporaryPropsOf (l.map (·.1)) := by
  have htemporary : ∀ e ∈ l, (w.slotOf (e.2 τ) e.1).operand.temporary = e.1.temporary := by
    intro e he
    obtain ⟨start, hX⟩ := h.stands e he
    exact hX.temporary τ
  rw [Slot.temporaries, slotsOf, temporaryPropsOf, List.filter_map, List.filter_map, List.map_map,
    List.map_map]
  have hfilter : l.filter ((·.operand.temporary) ∘ fun e => w.slotOf (e.2 τ) e.1) =
      l.filter ((·.temporary) ∘ (·.1)) := List.filter_congr htemporary
  rw [hfilter]
  rfl

theorem HasOperands.admits (h : w.HasOperands K l p) :
    ∀ e ∈ w.slotsOf l τ, w.Admits K τ e := by
  intro slot hslot
  obtain ⟨e, he, rfl⟩ := List.mem_map.1 hslot
  obtain ⟨start, hX⟩ := h.stands e he
  exact hX.admits τ

theorem HasOperands.mono (h : w.HasOperands K l p)
    (hv : ∀ v ∈ K.vars, ¬IsFuture w.program.temporaries v) (hs : w.alphabet.diagrams.Sound)
    (hle : w ≤ w') : w'.HasOperands K l p where
  stands e he := by
    obtain ⟨start, hX⟩ := h.stands e he
    exact ⟨start, hX.mono hv hle hs⟩
  lt := h.lt
  nodup := h.nodup

theorem HasOperands.of_le {p' : Nat} (h : w.HasOperands K l p) (hp : p ≤ p') :
    w.HasOperands K l p' :=
  { h with lt := fun e he => Nat.lt_of_lt_of_le (h.lt e he) hp }

theorem HasOperands.yields_combine (h : w.HasOperands K l p) (hs : w.alphabet.diagrams.Sound)
    (operands : List Value) (hoperands : ∀ v, v ∈ operands ↔ v ∈ l.map (·.1)) {a : Automaton}
    {E : Set Nat} (hE : ∀ q ∈ E, q ∉ temporaryPropsOf (l.map (·.1)))
    {R : Nat → List Nat → (Nat → Nat) → Prop}
    (hR : ∀ n vs σ σ', (∀ q ∈ E, σ q = σ' q) → (R n vs σ ↔ R n vs σ'))
    (ha : a.Recognizes w.alphabet.diagrams (E ∪ {q | q ∈ l.map (·.1.prop)}) fun u =>
      R u.length (l.map fun e => numbers u e.1.prop) (numbers u)) :
    Yields (liftM (Program.combine a operands) : Program.M Automaton) w fun b w' =>
      (∃ L, b.Recognizes w'.alphabet.diagrams (w.propsOf K ∪ E) L ∧ ∀ u τ, w.Fits K τ u →
        (L u ↔ Operand.Joined (l.map (·.2 τ)) (fun m vs => R m vs (numbers u)) u.length)) ∧
      w'.program = w.program := by
  have htemporaries : ∀ q, q ∈ temporaryPropsOf (l.map (·.1)) ↔ q ∈ temporaryPropsOf operands := by
    intro q
    simp only [temporaryPropsOf, List.mem_map, List.mem_filter, hoperands]
  have hreads : E ∪ {q | q ∈ l.map (·.1.prop)} ⊆
      w.propsOf K ∪ E ∪ {q | q ∈ temporaryPropsOf operands} := by
    rintro q (hq | hq)
    · exact .inl (.inr hq)
    · obtain ⟨e, he, rfl⟩ := List.mem_map.1 hq
      obtain ⟨start, hX⟩ := h.stands e he
      cases ht : e.1.temporary with
      | false => exact .inl (.inl (hX.mem_of_not_temporary ht))
      | true => exact .inr ((htemporaries _).1 (List.mem_map.2
          ⟨e.1, List.mem_filter.2 ⟨List.mem_map_of_mem he, ht⟩, rfl⟩))
  refine (Workspace.yields_combine hs (fun v hv => ?_) (ha.mono hreads)).mono
    fun b w' _ hcombined => ⟨⟨_, hcombined.1, fun u τ hfits => ?_⟩, hcombined.2⟩
  · obtain ⟨e, he, rfl⟩ := List.mem_map.1 ((hoperands v).1 hv)
    obtain ⟨start, hX⟩ := h.stands e he
    exact ⟨_, _, hX⟩
  · have hfit := fit_of_admits (h.admits (τ := τ)) (h.temporaries_eq ▸ h.nodup) hfits
    have hjoined := Slot.joined_iff hfit fun m vs => R m vs (numbers u)
    rw [h.temporaries_eq] at hjoined
    simp only [slotsOf, List.map_map, List.forall_mem_map] at hjoined
    refine Iff.trans (exists_congr fun u' => ?_) hjoined
    rw [← Completes.congr htemporaries]
    refine and_congr_right fun hcompletes => and_congr (hR _ _ _ _ fun q hq =>
      hcompletes.2.2 q (hE q hq)) ?_
    constructor
    · exact fun hall e he => hall e.1 ((hoperands e.1).2 (List.mem_map_of_mem he))
    · intro hall v hv
      obtain ⟨e, he, rfl⟩ := List.mem_map.1 ((hoperands v).1 hv)
      exact hall e he

end Workspace

namespace Program

open Automaton (Built)
open Workspace (HasOperands)

variable {I : Interpretation} {K : Limits} {w : Workspace} {k : Engine} {l : Operands}
  {operands : List Value}

theorem yields_result (hw : w.Ready I K) {name : String} {p start : Nat}
    (hp : w.Offers K name p start) (hl : w.HasOperands K l p)
    (hoperands : ∀ v, v ∈ operands ↔ v ∈ l.map (·.1)) {a : Automaton}
    {R : Nat → List Nat → Nat → Prop}
    (ha : a.Recognizes w.alphabet.diagrams ({p} ∪ {q | q ∈ l.map (·.1.prop)}) fun u =>
      R u.length (l.map fun e => numbers u e.1.prop) (numbers u p)) :
    Yields (Engine.result a operands name p) w fun v w' => w'.Stands K v (fun τ =>
      ⟨true, fun n c => Operand.Joined (l.map (·.2 τ)) (fun m vs => R m vs c) n⟩) start := by
  unfold Engine.result
  refine (hl.yields_combine hw.sound operands hoperands (E := {p}) (R := fun n vs σ => R n vs (σ p))
    (fun q hq hmem => ?_) (fun n vs σ σ' hσ => by rw [hσ p rfl]) ha).bind
      fun b w' hle ⟨⟨L, hb, hL⟩, hprogram⟩ => .pure ?_
  · obtain ⟨v, hv, hvq⟩ := List.mem_map.1 hmem
    obtain ⟨e, he, rfl⟩ := List.mem_map.1 (List.mem_filter.1 hv).1
    have hlt := hl.lt e he
    rw [hvq, Set.mem_singleton_iff.1 hq] at hlt
    exact Nat.lt_irrefl p hlt
  · have hprops : w'.propsOf K = w.propsOf K := by simp only [Workspace.propsOf, hprogram]
    rw [Set.union_singleton, ← hprops] at hb
    refine (hp.mono hle).stands (hb.withProps (by simp)) (fun _ => rfl) fun u τ hfits => hL u τ ?_
    simpa only [Workspace.Fits, hprogram] using hfits

private theorem eq_of_findVar {w w' : Workspace} (hle : w ≤ w') {vars : List (String × Domain)}
    {qs ps : List Nat} (hvars : List.Forall₂ (fun v q => findVar v.1 w.program.frames = .bound q ∧
      ¬IsFuture w.program.temporaries v.1) vars qs)
    (hps : List.Forall₂ (fun v p => findVar v.1 w'.program.frames = .bound p) vars ps) :
    ps = qs := by
  induction hvars generalizing ps with
  | nil =>
    cases hps
    rfl
  | cons hv _ ih =>
    cases hps with
    | cons hp hps =>
      have hbound := findVar_of_grows hle.frames hv.2 hv.1
      rw [hp] at hbound
      rw [Found.bound.inj hbound, ih hps]

theorem yields_relationBound (hw : w.Ready I K) {name : String} (hname : name ∈ K.names)
    {vars : List (String × Domain)} {qs : List Nat}
    (hvars : List.Forall₂ (fun v q => findVar v.1 w.program.frames = .bound q ∧
      ¬IsFuture w.program.temporaries v.1) vars qs) :
    Yields (k.relation name vars) w fun a w' =>
      a.Recognizes w'.alphabet.diagrams {q | q ∈ qs} fun u =>
        I.holds name u.length (qs.map (numbers u)) := by
  refine (yields_relation hw hname fun v hv => ?_).mono fun a w' hle ⟨ps, hps, ha⟩ => ?_
  · obtain ⟨q, -, -, hnot⟩ := exists_mem_of_forall₂ hvars hv
    exact hnot
  · exact eq_of_findVar hle hvars hps ▸ ha

theorem yields_operation_of (hw : w.Ready I K) (hl : w.HasOperands K l (w.alphabet.size + 1))
    {d : Domain} (vars : String → (Value → Domain) → List (String × Domain)) (qs : Nat → List Nat)
    (hvars : ∀ name domain p, List.Forall₂ (fun v q => v.1 = name ∧ q = p ∨
      ∃ e ∈ l, v.1 = e.1.var ∧ q = e.1.prop) (vars name domain) (qs p))
    {P : Value → Workspace → Prop}
    (hresult : ∀ {name : String} {p : Nat} {a : Automaton} {w' : Workspace}, w'.Ready I K →
      w'.Offers K name p w.alphabet.size → w'.HasOperands K l p →
      (a.Recognizes w'.alphabet.diagrams {q | q ∈ qs p} fun u =>
        I.holds "adder" u.length ((qs p).map (numbers u))) →
      Yields (Engine.result a operands name p) w' P) :
    Yields (do
      let (name, p) ← temporary "t"
      let domain ← ask fun q => operandDomain q d
      let a ← k.relation "adder" (vars name domain)
      Engine.result a operands name p) w P := by
  refine (yields_temporary (by simp [hints]) hw.framed).bind fun (name, p) w₁ hle hp => ?_
  have hw₁ := hw.mono hle
  have hl₁ := (hl.mono hw.suits.vars hw.sound hle).of_le hp.lt
  have hoffers := hp.offers hw.suits.vars
  refine (yields_ask _).bind fun domain w' _ hasked => ?_
  obtain rfl := hasked.2
  refine (yields_relationBound hw₁ hw₁.suits.context.1 ((hvars name domain p).imp ?_)).bind
    fun a w₂ hle₁ ha => ?_
  · rintro ⟨v, d'⟩ q (⟨rfl, rfl⟩ | ⟨e, he, rfl, rfl⟩)
    · exact ⟨hp.bound, hp.named⟩
    · obtain ⟨start, hX⟩ := hl₁.stands e he
      exact ⟨hX.bound, hX.named⟩
  · exact hresult (hw₁.mono hle₁) (hoffers.mono hle₁) (hl₁.mono hw₁.suits.vars hw₁.sound hle₁) ha

theorem yields_operation (hw : w.Ready I K)
    (hl : w.HasOperands K l (w.alphabet.size + 1))
    (hoperands : ∀ v, v ∈ operands ↔ v ∈ l.map (·.1)) {d : Domain}
    (vars : String → (Value → Domain) → List (String × Domain)) (qs : Nat → List Nat)
    (R : Nat → List Nat → Nat → Prop)
    (hvars : ∀ name domain p, List.Forall₂ (fun v q => v.1 = name ∧ q = p ∨
      ∃ e ∈ l, v.1 = e.1.var ∧ q = e.1.prop) (vars name domain) (qs p))
    (hqs : ∀ p q, q ∈ qs p ↔ q = p ∨ q ∈ l.map (·.1.prop))
    (hR : ∀ p n σ, I.holds "adder" n ((qs p).map σ) ↔ R n (l.map fun e => σ e.1.prop) (σ p)) :
    Yields (do
      let (name, p) ← temporary "t"
      let domain ← ask fun q => operandDomain q d
      let a ← k.relation "adder" (vars name domain)
      Engine.result a operands name p) w fun v w' => w'.Stands K v (fun τ =>
        ⟨true, fun n c => Operand.Joined (l.map (·.2 τ)) (fun m vs => R m vs c) n⟩)
        w.alphabet.size := by
  refine yields_operation_of hw hl vars qs hvars fun {_ p _ _} hw' hoffers hl' ha => ?_
  have hreads : {q | q ∈ qs p} ⊆ {p} ∪ {q | q ∈ l.map (·.1.prop)} := fun q hq => (hqs p q).1 hq
  exact yields_result hw' hoffers hl' hoperands
    ((ha.mono hreads).congr fun u => hR p u.length (numbers u))

section

variable {x y : Value} {X Y : Valuation → Operand} {start start' : Nat}

theorem hasOperands_pair (hx : w.Stands K x X start) (hy : w.Stands K y Y start')
    (hxy : x.temporary = true → y.temporary = true → x.prop ≠ y.prop) :
    w.HasOperands K [(x, X), (y, Y)] (w.alphabet.size + 1) where
  stands := by
    simp only [List.forall_mem_cons]
    exact ⟨⟨_, hx⟩, ⟨_, hy⟩, by simp⟩
  lt := by
    simp only [List.forall_mem_cons]
    exact ⟨Nat.lt_succ_of_le hx.le_size, Nat.lt_succ_of_le hy.le_size, by simp⟩
  nodup := by
    refine nodup_temporaryPropsOf_cons (fun htx p hp => ?_)
      (nodup_temporaryPropsOf_cons (by simp [temporaryPropsOf]) (by simp [temporaryPropsOf]))
    obtain ⟨z, hz, rfl⟩ := List.mem_map.1 hp
    obtain ⟨hz, htz⟩ := List.mem_filter.1 hz
    obtain rfl : z = y := by simpa using hz
    exact (hxy htx htz).symm

theorem hasOperands_single (hx : w.Stands K x X start) :
    w.HasOperands K [(x, X)] (w.alphabet.size + 1) where
  stands := by
    simp only [List.forall_mem_cons]
    exact ⟨⟨_, hx⟩, by simp⟩
  lt := by
    simp only [List.forall_mem_cons]
    exact ⟨Nat.lt_succ_of_le hx.le_size, by simp⟩
  nodup := nodup_temporaryPropsOf_cons (by simp [temporaryPropsOf]) (by simp [temporaryPropsOf])

theorem yields_add (hw : w.Ready I K) (hx : w.Stands K x X start) (hy : w.Stands K y Y start')
    (hxy : x.temporary = true → y.temporary = true → x.prop ≠ y.prop) (d : Domain) :
    Yields (k.add d x y) w fun v w' =>
      w'.Stands K v (fun τ => .sum I (X τ) (Y τ)) w.alphabet.size :=
  yields_operation hw (hasOperands_pair hx hy hxy) (by simp)
    (fun name domain => [(x.var, domain x), (y.var, domain y), (name, d)])
    (fun p => [x.prop, y.prop, p]) (fun m vs c => I.holds "adder" m (vs ++ [c]))
    (fun name domain p => by simp) (fun p q => by simp; tauto) fun p n σ => Iff.rfl

theorem yields_double (hw : w.Ready I K) (hx : w.Stands K x X start) (d : Domain) :
    Yields (k.add d x x) w fun v w' =>
      w'.Stands K v (fun τ => .double I (X τ)) w.alphabet.size :=
  yields_operation hw (hasOperands_single hx) (by simp)
    (fun name domain => [(x.var, domain x), (x.var, domain x), (name, d)])
    (fun p => [x.prop, x.prop, p]) (fun m vs c => I.holds "adder" m (vs ++ vs ++ [c]))
    (fun name domain p => by simp) (fun p q => by simp; tauto) fun p n σ => Iff.rfl

theorem yields_sub (hw : w.Ready I K) (hx : w.Stands K x X start) (hy : w.Stands K y Y start')
    (hxy : x.temporary = true → y.temporary = true → x.prop ≠ y.prop) (d : Domain) :
    Yields (k.sub d x y) w fun v w' =>
      w'.Stands K v (fun τ => .difference I (X τ) (Y τ)) w.alphabet.size :=
  yields_operation hw (hasOperands_pair hx hy hxy) (by simp)
    (fun name domain => [(y.var, domain y), (name, d), (x.var, domain x)])
    (fun p => [y.prop, p, x.prop])
    (fun m vs c => ∃ a b, vs = [a, b] ∧ I.holds "adder" m [b, c, a])
    (fun name domain p => by simp) (fun p q => by simp; tauto) fun p n σ => by simp

end

/-- An accumulator and the power to be added next: if both are temporary, their propositions
differ. -/
def Accumulates (w : Workspace) (K : Limits) (start : Nat) (acc : Option Value)
    (A : Option (Valuation → Operand)) (power : Value) : Prop :=
  Option.Rel (fun a X => w.Stands K a X start ∧
    (a.temporary = true → power.temporary = true → a.prop ≠ power.prop)) acc A

theorem yields_added (hw : w.Ready I K) {acc : Option Value} {A : Option (Valuation → Operand)}
    {power : Value} {P : Valuation → Operand} {start : Nat} (hstart : start ≤ w.alphabet.size)
    (hpower : w.Stands K power P start) (hacc : Accumulates w K start acc A power) (d : Domain) :
    Yields (match acc with
      | none => pure power
      | some a => k.add d a power) w fun v w' => w'.Stands K v (fun τ =>
        match A.map (· τ) with
        | none => P τ
        | some a => .sum I a (P τ)) start := by
  cases hacc with
  | none => exact .pure hpower
  | some h => exact (yields_add hw h.1 hpower h.2 d).mono fun v w' _ hv => hv.of_start_le hstart

theorem yields_multiple (d : Domain) (m : Nat) : ∀ {w : Workspace}, w.Ready I K →
    ∀ {acc : Option Value} {A : Option (Valuation → Operand)} {power : Value}
      {P : Valuation → Operand} {start : Nat}, start ≤ w.alphabet.size →
    w.Stands K power P start → Accumulates w K start acc A power →
    Yields (k.multiple d acc power m) w fun v w' =>
      w'.Stands K v (fun τ => .multiple I (A.map (· τ)) (P τ) m) start := by
  induction m using Nat.strong_induction_on with
  | _ m ih =>
    intro w hw acc A power P start hstart hpower hacc
    rw [Engine.multiple.eq_def]
    simp only [Operand.multiple.eq_def I _ _ m]
    have hadded := yields_added (k := k) hw hstart hpower hacc d
    by_cases hm : m ≤ 1
    · simp only [if_pos hm]
      exact hadded
    · simp only [if_neg hm]
      have hrest : ∀ {w₁ : Workspace}, w ≤ w₁ → ∀ {acc : Option Value}
          {A : Option (Valuation → Operand)},
          Option.Rel (fun a X => w₁.Stands K a X start) acc A →
          Yields (do
            let power ← k.add d power power
            k.multiple d acc power (m / 2)) w₁ fun v w' => w'.Stands K v
              (fun τ => .multiple I (A.map (· τ)) (.double I (P τ)) (m / 2)) start := by
        intro w₁ hle acc A hacc
        have hw₁ := hw.mono hle
        have hstart₁ := le_trans hstart (Alphabet.size_mono hle.alphabet)
        refine (yields_double hw₁ (hpower.mono hw.suits.vars hle hw.sound) d).bind
          fun power' w₂ hle₁ hpower' => ?_
        refine ih (m / 2) (by omega) (hw₁.mono hle₁)
          (le_trans hstart₁ (Alphabet.size_mono hle₁.alphabet)) (hpower'.of_start_le hstart₁) ?_
        cases hacc with
        | none => exact .none
        | some h =>
          refine .some ⟨h.mono hw₁.suits.vars hle₁ hw₁.sound, fun _ ht heq => ?_⟩
          have hlt := (hpower'.fresh ht).1
          have hle := h.le_size
          omega
      by_cases hodd : m % 2 = 1
      · simp only [if_pos hodd]
        refine (hadded.map (Q := fun acc w₁ => Option.Rel (fun a X => w₁.Stands K a X start) acc
          (some fun τ => match A.map (· τ) with
            | none => P τ
            | some a => .sum I a (P τ))) fun v w₁ _ hv => .some hv).bind fun acc w₁ hle hacc => ?_
        exact hrest hle hacc
      · simp only [if_neg hodd, pure_bind]
        refine hrest le_rfl ?_
        cases hacc with
        | none => exact .none
        | some h => exact .some h.1

section

variable {d : Domain} {name : String} {bs : Set String} {p : Nat} {a : Automaton}
  {S : Nat → Valuation → Prop}

theorem describes_about (h : w.Describes (K.about {name} bs) a S)
    (hp : findVar name w.program.frames = .bound p) :
    ∃ L, a.Recognizes w.alphabet.diagrams {p} L ∧
      ∀ u, L u ↔ S u.length fun _ => numbers u p := by
  obtain ⟨L, hL, hS⟩ := h
  refine ⟨L, hL.mono ?_, fun u => hS u _ ?_⟩
  · rintro q ⟨v, hv, hq⟩
    rw [Set.mem_singleton_iff.1 hv, hp] at hq
    exact (Found.bound.inj hq).symm
  · intro v hv q hq
    rw [Set.mem_singleton_iff.1 hv, hp] at hq
    rw [Found.bound.inj hq]

theorem domain_contains_iff (hd : d.Closed K) (n : Nat) (τ : Valuation) :
    d.Contains I n (τ name) ↔ ∀ c ∈ d.instantiate? name, c.Holds I n τ := by
  cases d with
  | restricted c =>
    simpa [Domain.instantiate?] using (Call.holds_instantiate (I := I) hd name n τ).symm
  | any => simp [Domain.Contains, Domain.instantiate?]
  | pending => exact hd.elim

theorem within_instantiate (hd : d.Closed K) {K' : Limits} (hnames : K.domains ⊆ K'.names)
    (hdomains : K.domains ⊆ K'.domains) (hname : name ∈ K'.vars) :
    ∀ c ∈ d.instantiate? name, c.Within K' := by
  cases d with
  | restricted c =>
    intro c' hc'
    obtain rfl : c.subst selfName name = c' := by simpa [Domain.instantiate?] using hc'
    exact Call.Within.instantiate hd hnames hdomains hname
  | any => simp [Domain.instantiate?]
  | pending => exact hd.elim

end

section

variable {d : Domain} {name : String}

theorem stands_of_describes {p start : Nat} {bs : Set String} {a : Automaton}
    {S : Nat → Valuation → Prop} {x : Operand} (hp : w.Offers K name p start)
    (ha : w.Describes (K.about {name} bs) a S) (hx : x.temporary = true)
    (hS : ∀ n τ, S n τ ↔ x.rel n (τ name)) :
    w.Stands K ⟨a, name, p, true⟩ (fun _ => x) start := by
  obtain ⟨L, hL, haccepts⟩ := describes_about ha hp.bound
  refine hp.stands (hL.mono fun q hq => .inl hq) (fun _ => hx) fun u τ _ => ?_
  rw [haccepts, hS]

theorem yields_zero (hk : k.Sound) (hw : w.Ready I K) (hd : d.Closed K) :
    Yields (k.zero d) w fun v w' =>
      w'.Stands K v (fun _ => .madeZero (d.sense I)) w.alphabet.size := by
  unfold Engine.zero
  refine (yields_temporary (by simp [hints]) hw.framed).bind fun (name, p) w₁ hle hp => ?_
  have hw₁ := hw.mono hle
  have hoffers := hp.offers hw.suits.vars
  refine (yields_liftFault (P := fun m x => x.diagrams.Sound ∧
    Built x.diagrams {q | q ∈ [p]} 1 (· = 0) (fun _ _ _ => False) m)
      ((Automaton.gives_start (by omega)).mono fun m hm => ⟨hw₁.sound, hm⟩)).bind
        fun m w₂ hle₁ hstarted => ?_
  obtain ⟨⟨hs, hm⟩, hprogram⟩ := hstarted
  refine (yields_liftAlphabet (Yields.liftDiagram (Diagram.yields_makeVariable hs p))).bind
    fun e w₃ hle₂ hvariable => ?_
  obtain ⟨he, hprogram₃⟩ := hvariable
  refine (yields_liftDiagram (Binary.yields_addZeros (hs.mono hle₂.alphabet.1)
    (hm.mono hs hle₂.alphabet.1) he)).bind fun m w₄ hle₃ hadded => ?_
  obtain ⟨hm, hprogram₄⟩ := hadded
  have hle₄ := le_trans hle₁ (le_trans hle₂ hle₃)
  have hw₄ := hw₁.mono hle₄
  have hoffers := hoffers.mono hle₄
  have hzero : w₄.Describes (K.about {name} ∅) (m.withProps [p]) fun _ τ => τ name = 0 := by
    refine ⟨_, hm.mono fun q hq => ⟨name, rfl, ?_⟩, fun u τ hfits => ?_⟩
    · rw [List.mem_singleton.1 hq]
      exact hoffers.bound
    · change _ ↔ τ name = 0
      rw [hfits name (Set.mem_singleton _) p hoffers.bound]
  have hcall : ∀ c ∈ d.instantiate? name, c.Within (K.about {name} ∅) :=
    within_instantiate hd hw₄.suits.domains.1 subset_rfl (Set.mem_singleton name)
  have hmeans : ∀ n (τ : Valuation),
      d.Contains I n (τ name) ↔ ∀ c ∈ d.instantiate? name, c.Holds I n τ :=
    domain_contains_iff hd
  split
  · rename_i hnone
    exact .pure (stands_of_describes hoffers hzero rfl fun n τ => by
      simp [Operand.madeZero, Domain.sense, hmeans, hnone])
  · rename_i c hsome
    have hw₄' : w₄.Ready I (K.about {name} ∅) :=
      hw₄.about (fun v hv => Set.mem_singleton_iff.1 hv ▸ hoffers.named) fun v hv => absurd hv id
    refine (yields_call hk hw₄' (hcall c (by simp [hsome]))).bind fun b w₅ hle₅ hb => ?_
    have hw₅ := hw₄'.mono hle₅
    refine ((hzero.mono hw₄'.suits.vars hle₅ hw₄.sound).yields_intersect hw₅.sound hb).bind
      fun b w₆ hle₆ hb => .pure ?_
    exact stands_of_describes ((hoffers.mono hle₅).mono hle₆) hb rfl fun n τ => by
      simp [Operand.madeZero, Domain.sense, hmeans, hsome]

theorem holds_conjoin {cs : List Call} {x : Expr} {B : Bounds} {n : Nat} {τ : Valuation} :
    (conjoin cs x).Holds I B n τ ↔ (∀ c ∈ cs, c.Holds I n τ) ∧ x.Holds I B n τ := by
  induction cs with
  | nil => simp [conjoin]
  | cons c cs ih =>
    rw [List.forall_mem_cons, and_assoc, ← ih]
    rfl

theorem within_conjoin {cs : List Call} {x : Expr} (hcs : ∀ c ∈ cs, c.Within K)
    (hx : x.Within K) : (conjoin cs x).Within K := by
  induction cs with
  | nil => exact hx
  | cons c cs ih =>
    rw [List.forall_mem_cons] at hcs
    exact ⟨⟨⟨hcs.1, fun h => nomatch h⟩, ih hcs.2⟩, fun h => nomatch h⟩

theorem within_of_conjoin {cs : List Call} {x : Expr} (h : (conjoin cs x).Within K) :
    x.Within K := by
  induction cs with
  | nil => exact h
  | cons c cs ih => exact ih h.1.2

theorem within_isOne (hd : d.Closed K) (hdomains : K.domains ⊆ K.names) (x y : String) :
    (Engine.isOne d x y).Within (K.about {x} {y}) := by
  have hcall : ∀ {v vs}, v ∈ vs → ∀ c ∈ d.instantiate? v, c.Within (K.about vs {y}) :=
    fun hv => within_instantiate hd hdomains subset_rfl hv
  have hnum : ∀ vs, (⟨.num 0, some d⟩ : Expr).Within (K.about vs {y}) := fun vs =>
    ⟨trivial, fun _ => Domain.Closed.mono hd subset_rfl⟩
  have hvar : ∀ {v vs}, v ∈ vs → (⟨.var v, some d⟩ : Expr).Within (K.about vs {y}) := fun hv =>
    ⟨hv, fun h => nomatch h⟩
  have hpositive : ∀ {v vs}, v ∈ vs → (Expr.not (.equal ⟨.var v, some d⟩ ⟨.num 0, some d⟩)).Within
      (K.about vs {y}) := fun hv =>
    ⟨⟨⟨hvar hv, hnum _⟩, fun h => nomatch h⟩, fun h => nomatch h⟩
  have hx : x ∈ ({x} : Set String) := Set.mem_singleton x
  have hyx : x ∈ insert y ({x} : Set String) := Set.mem_insert_of_mem y hx
  have hy : y ∈ insert y ({x} : Set String) := Set.mem_insert y {x}
  refine within_conjoin (fun c hc => hcall hx c (by simpa using hc))
    ⟨⟨hpositive hx, ?_⟩, fun h => nomatch h⟩
  refine ⟨⟨⟨Set.mem_singleton y, ?_, ⟨⟨hpositive hy, ⟨hvar hy, hvar hyx⟩, fun h => nomatch h⟩,
    fun h => nomatch h⟩⟩, fun h => nomatch h⟩, fun h => nomatch h⟩
  cases hguard : d.instantiate? y with
  | none => trivial
  | some c => exact hcall hy c hguard

theorem sense_known (hd : d.Closed K) :
    (⟨containsOf I (some d), I.known ((Domain.known? (some d)).getD .any)⟩ : Sense) =
      d.sense I := by
  cases d with
  | pending => exact hd.elim
  | _ => rfl

theorem constant_zero (D : Sense) : Operand.constant I D 0 = .zero D := by
  rw [Operand.constant, if_pos rfl, Operand.zero]

theorem holds_isOne (hd : d.Closed K) {x y : String} (hxy : x ≠ y) {B : Bounds}
    (hB : ∀ n τ, B y n τ) (n : Nat) (τ : Valuation) :
    (Engine.isOne d x y).Holds I B n τ ↔ (Operand.madeOne I (d.sense I)).rel n (τ x) := by
  rw [Engine.isOne, holds_conjoin]
  have hcontains : ∀ n a, (d.sense I).contains n a = d.Contains I n a := fun _ _ => rfl
  refine and_congr ?_ ?_
  · rw [hcontains]
    simpa only [Option.mem_toList, Option.mem_def] using (domain_contains_iff hd n τ).symm
  · simp only [Expr.Holds, Form.Holds, Expr.and, Expr.not, Expr.equal, Expr.less, Expr.forSome,
      Form.plain, Expr.isFormula, GuardHolds, hB, ← domain_contains_iff hd, Expr.operand,
      Form.operand, sense_known hd, hcontains, constant_zero, Function.update_self,
      Function.update_of_ne hxy, Comparison.relation, true_and]

/-- The variable that one is the value of, and the one that it is compared with. -/
def oneVariables : M (String × Nat × String) := do
  let (name, p) ← temporary "c"
  return (name, p, ← temporaryName "y")

theorem one_eq (d : Domain) : k.one d = do
    let (name, p, y) ← oneVariables
    let a ← k.formula (Engine.isOne d name y)
    return ⟨a.withProps [p], name, p, true⟩ := by
  simp only [Engine.one, oneVariables, bind_assoc, pure_bind]

theorem yields_oneVariables (hw : w.Ready I K) : Yields oneVariables w fun (name, p, y) w' =>
    w'.Ready I (K.about {name} {y}) ∧ w'.Offers K name p w.alphabet.size ∧ name ≠ y ∧
      w'.program.restrictions.visible y = [] := by
  unfold oneVariables
  refine (yields_temporary (by simp [hints]) hw.framed).bind fun (name, p) w₁ hle hp => ?_
  have hw₁ := hw.mono hle
  refine yields_temporaryName.bind fun y w₂ hle₁ hnamed => .pure ?_
  obtain ⟨hy, hw₂⟩ := hnamed
  have hfuture : IsFuture w₁.program.temporaries y := by
    rw [hy, isFuture_temporaryNameOf (by simp [hints])]
    exact Nat.lt_succ_self _
  have hnow : ¬IsFuture w₂.program.temporaries y := by
    rw [hy, hw₂, isFuture_temporaryNameOf (by simp [hints])]
    exact Nat.lt_irrefl _
  have hvisible : w₂.program.restrictions.visible y = [] :=
    (congrArg (·.visible y) hle₁.restrictions).trans (hw₁.restricted.visible_eq_nil hfuture)
  have hoffers := (hp.offers hw.suits.vars).mono hle₁
  have hw₂ : w₂.Ready I (K.about {name} {y}) := (hw₁.mono hle₁).about
    (fun v hv => Set.mem_singleton_iff.1 hv ▸ hoffers.named)
    fun v hv => Set.mem_singleton_iff.1 hv ▸ ⟨hnow, hvisible⟩
  exact ⟨hw₂, hoffers, fun heq => hp.named (heq ▸ hfuture), hvisible⟩

theorem yields_one (hk : k.Sound) (hw : w.Ready I K) (hd : d.Closed K) :
    Yields (k.one d) w fun v w' =>
      w'.Stands K v (fun _ => .madeOne I (d.sense I)) w.alphabet.size := by
  rw [one_eq]
  refine (yields_oneVariables hw).bind fun (name, p, y) w₂ _ ⟨hw₂, hoffers, hne, hvisible⟩ => ?_
  refine (hk.formula hw₂ (within_isOne hd hw.suits.domains.1 name y)).bind
    fun a w₃ hle₂ ha => .pure ?_
  have hoffers := hoffers.mono hle₂
  have ha : w₃.Describes (K.about {name} {y}) (a.withProps [p]) _ := ha.withProps fun q hq => by
    rw [List.mem_singleton.1 hq]
    exact ⟨name, Set.mem_singleton name, hoffers.bound⟩
  refine stands_of_describes hoffers ha rfl fun n τ => holds_isOne hd hne (fun n τ => ?_) n τ
  simp [Restrictions.bounds, hvisible]

theorem temporary_constant {D : Sense} (hD : ∀ n x, D.known n = some x → x.temporary = true)
    (n : Nat) :
    (Operand.constant I D n).temporary = true := by
  rw [Operand.constant]
  cases hknown : D.known n with
  | some x => exact hD n x hknown
  | none =>
    rw [Option.getD_none]
    split
    · rfl
    · split
      · rfl
      · split <;> rfl

theorem yields_rebind (hw : w.Ready I K) {v : Value} {x : Operand}
    (hv : v.automaton.IsOperand w.alphabet.diagrams v.prop x) (hx : x.temporary = true) :
    Yields (rebind v) w fun v' w' => w'.Stands K v' (fun _ => x) w.alphabet.size := by
  unfold rebind
  refine (yields_temporary (by simp [hints]) hw.framed).bind fun (name, p) w₁ hle hp => ?_
  have hoffers := hp.offers hw.suits.vars
  refine (yields_liftDiagram (Automaton.yields_rename (hw.mono hle).sound
    (hv.mono_store hw.sound hle.alphabet.1) _)).bind fun a w₂ hle₁ hrenamed => .pure ?_
  refine (hoffers.mono hle₁).stands ((hrenamed.1.mono ?_).withProps (by simp)) (fun _ => hx)
    fun u τ _ => ?_
  · rintro _ ⟨q, hq, rfl⟩
    rw [Set.mem_singleton_iff.1 hq]
    simp
  · simp only [numbers_map, List.length_map, if_true]

theorem yields_remember {x : M Value} {n : Nat}
    (hx : ∀ {I : Interpretation} {K : Limits}, w.Ready I K → d.Closed K →
      Yields x w fun v w' =>
        w'.Stands K v (fun _ => .constant I (d.sense I) n) w.alphabet.size)
    (hw : w.Ready I K) (hd : d.Closed K) :
    Yields (do
      let v ← x
      change fun p => { p with constants := ((n, d), v) :: p.constants }
      return v) w fun v w' =>
        w'.Stands K v (fun _ => .constant I (d.sense I) n) w.alphabet.size := by
  cases hrun : x w with
  | error e w₁ =>
    simp only [Yields, bind, EStateM.bind, hrun]
    exact (hx hw hd).of_error hrun
  | ok v w₁ =>
    obtain ⟨hle, hv⟩ := (hx hw hd).of_ok hrun
    simp only [Yields, bind, EStateM.bind, hrun, change, pure, EStateM.pure]
    refine ⟨?_, hv.of_eq rfl rfl rfl⟩
    have hright : ∀ I, w.Right I → w₁.Right I → Workspace.Right I ⟨w₁.alphabet,
        { w₁.program with constants := ((n, d), v) :: w₁.program.constants }⟩ := by
      intro I' hI' hI₁
      refine ⟨hI₁.sound, hI₁.declarations, hI₁.names, hI₁.relations, hI₁.settled,
        fun m e u hu he => ?_, hI₁.temporary, fun e m hknown => ?_⟩
      swap
      · rw [List.lookup_cons]
        split
        · simp
        · exact hI₁.known e m hknown
      rcases List.mem_cons.1 hu with heq | hu
      · cases heq
        have hd' : d.Closed I'.needs := Domain.Closed.mono he subset_rfl
        have hv' := ((hx (hI'.ready hw) hd').of_ok hrun).2
        have hnone : ∀ w : Workspace, w.propsOf I'.needs = ∅ := fun w =>
          Set.eq_empty_of_forall_notMem fun p hp => by
            obtain ⟨u, hu, -⟩ := hp
            exact hu
        have hrecognizes := hv'.recognizes.congr fun u =>
          hv'.accepts u (fun _ => 0) fun u hu => absurd hu id
        rwa [hnone, insert_empty_eq] at hrecognizes
      · exact hI₁.constants m e u hu he
    exact { hle with right := fun I' hI' => hright I' hI' (hle.right I' hI') }

/-- How a number is put together that is not remembered. -/
def Engine.made (k : Engine) (d : Domain) (n : Nat) : M Value :=
  if n = 0 then k.zero d
  else if n = 1 then k.one d
  else if n = Nat.pow 2 n.log2 then do
    let v ← k.constant d (n / 2)
    k.add d v v
  else do
    let v ← k.constant d (Nat.pow 2 n.log2)
    let w ← k.constant d (n - Nat.pow 2 n.log2)
    k.add d v w

theorem constant_eq (d : Domain) (n : Nat) : k.constant d n = do
    match (← ask (·.constants)).lookup (n, d) with
    | some v => rebind v
    | none =>
      let v ← k.made d n
      change fun p => { p with constants := ((n, d), v) :: p.constants }
      return v := by
  rw [Engine.constant.eq_def]
  refine bind_congr fun constants => ?_
  cases constants.lookup (n, d) with
  | some v => rfl
  | none =>
    simp only [Engine.made]
    split
    · rfl
    · split
      · rfl
      · split
        · simp only [bind_assoc]
        · simp only [bind_assoc]

theorem yields_constant (hk : k.Sound) (d : Domain) (n : Nat) :
    ∀ {I : Interpretation} {K : Limits} {w : Workspace}, w.Ready I K → d.Closed K →
      Yields (k.constant d n) w fun v w' =>
        w'.Stands K v (fun _ => .constant I (d.sense I) n) w.alphabet.size := by
  induction n using Nat.strong_induction_on with
  | _ n ih =>
    intro I K w hw hd
    rw [constant_eq]
    refine (yields_ask _).bind fun constants w' _ ⟨hconstants, hw'⟩ => ?_
    subst hconstants hw'
    split
    · rename_i v hv
      have hdI : d.Closed I.limits := Domain.Closed.mono hd hw.suits.domains.2
      exact yields_rebind hw (hw.right.constants n d v (mem_of_lookup hv) hdI)
        (temporary_constant (hw.right.temporary d) n)
    · rename_i hmiss
      refine yields_remember (fun {I K} hw hd => ?_) hw hd
      have hunknown : (d.sense I).known n = none := by
        by_contra hknown
        exact hw.right.known d n hknown hmiss
      simp only [Engine.made, Operand.constant.eq_def I _ n, hunknown, Option.getD_none]
      split
      · exact yields_zero hk hw hd
      · split
        · exact yields_one hk hw hd
        · split
          · refine (ih (n / 2) (by omega) hw hd).bind fun v w₁ hle hv => ?_
            exact (yields_double (hw.mono hle) hv d).mono fun v w₂ _ hv =>
              hv.of_start_le (Alphabet.size_mono hle.alphabet)
          · rename_i hzero _ hpower
            have hpos : 0 < Nat.pow 2 n.log2 := Nat.two_pow_pos _
            have hlt : Nat.pow 2 n.log2 < n :=
              Nat.lt_of_le_of_ne (Nat.log2_self_le hzero) (Ne.symm hpower)
            refine (ih _ hlt hw hd).bind fun v w₁ hle hv => ?_
            have hw₁ := hw.mono hle
            refine (ih _ (by omega) hw₁ hd).bind fun u w₂ hle₁ hu => ?_
            refine (yields_add (hw₁.mono hle₁) (hv.mono hw₁.suits.vars hle₁ hw₁.sound) hu
              (fun _ ht heq => ?_) d).mono fun v w₃ _ hv =>
                hv.of_start_le (Alphabet.size_mono (le_trans hle hle₁).alphabet)
            have hnew := (hu.fresh ht).1
            have hold := hv.le_size
            omega

theorem yields_scale (hk : k.Sound) (hw : w.Ready I K) (hd : d.Closed K) {x : Expr}
    (hx : x.isFormula = false) (hwithin : x.Within K) (n : Nat) :
    Yields (k.scale d n x) w fun v w' =>
      w'.Stands K v (fun τ => .scaled I (d.sense I) n (x.operand I τ)) w.alphabet.size := by
  unfold Engine.scale Operand.scaled
  split
  · exact yields_constant hk d 0 hw hd
  · refine (hk.value hw hx hwithin).bind fun v w₁ hle hv => ?_
    exact yields_multiple d n (hw.mono hle) (A := none) (Alphabet.size_mono hle.alphabet) hv .none

end

theorem closed_known {d : Option Domain} (hd : withinClosed d K) :
    ((Domain.known? d).getD .any).Closed K := by
  rcases d with _ | (_ | _ | c)
  · trivial
  · trivial
  · exact hd.elim
  · exact hd

theorem sense_getD {d : Option Domain} (hd : withinClosed d K) :
    (⟨containsOf I d, I.known ((Domain.known? d).getD .any)⟩ : Sense) =
      ((Domain.known? d).getD .any).sense I := by
  cases d with
  | none => rfl
  | some d => exact (sense_known hd).trans (by cases d <;> first | rfl | exact hd.elim)

theorem yields_variable (hw : w.Ready I K) {v : String} (hv : v ∈ K.vars) :
    Yields (do
      let p ← propOf v
      return ⟨Automaton.universal.withProps [p], v, p, false⟩ : M Value) w fun x w' =>
        w'.Stands K x (fun τ => .known (τ v)) w.alphabet.size := by
  refine (yields_propOf (hw.suits.vars v hv)).bind fun p w₁ hle hp => .pure ?_
  have hw₁ := hw.mono hle
  have huniversal : (Automaton.universal.withProps [p]).Recognizes w₁.alphabet.diagrams
      (insert p (w₁.propsOf K)) fun _ => True :=
    (Automaton.recognizes_universal hw₁.sound).withProps (by simp)
  exact ⟨hp, hw₁.suits.vars v hv, hw₁.framed.le_size hp, (fun ht => nomatch ht),
    fun _ => ⟨hv, fun _ => rfl⟩, fun _ => rfl, huniversal.accepting, fun u τ hfits =>
      (huniversal.accepts u).trans ⟨fun _ => (hfits v hv p hp).symm, fun _ => trivial⟩⟩

theorem operand_of_value {f : Form} {n : Nat} (h : f.value? = some n) (D : Sense)
    (τ : Valuation) : f.operand I D τ = .constant I D n ∧ f.usesDomain = true := by
  cases f with
  | num m =>
    cases h
    exact ⟨rfl, rfl⟩
  | arith op x y =>
    exact ⟨by simp only [Form.operand, h, Operand.arith],
      by cases op <;> simp [Form.usesDomain, h]⟩
  | _ => cases h

/-- Two values one after the other have propositions of their own, unless they are variables. -/
theorem yields_values {α : Type} {P : α → Workspace → Prop} (hk : k.Sound) (hw : w.Ready I K)
    {x y : Expr} (hx : x.isFormula = false) (hxK : x.Within K) (hy : y.isFormula = false)
    (hyK : y.Within K) {f : Value → Value → M α}
    (hf : ∀ {v u : Value} {w' : Workspace}, w'.Ready I K → w ≤ w' →
      w'.Stands K v (x.operand I) w.alphabet.size → w'.Stands K u (y.operand I) w.alphabet.size →
      (v.temporary = true → u.temporary = true → v.prop ≠ u.prop) → Yields (f v u) w' P) :
    Yields (do f (← k.value x) (← k.value y)) w P := by
  refine (hk.value hw hx hxK).bind fun v w₁ hle hv => ?_
  have hw₁ := hw.mono hle
  refine (hk.value hw₁ hy hyK).bind fun u w₂ hle₁ hu => ?_
  refine hf (hw₁.mono hle₁) (le_trans hle hle₁) (hv.mono hw₁.suits.vars hle₁ hw₁.sound)
    (hu.of_start_le (Alphabet.size_mono hle.alphabet)) fun _ ht heq => ?_
  have hnew := (hu.fresh ht).1
  have hold := hv.le_size
  omega

theorem yields_evaluateValue (hk : k.Sound) (hw : w.Ready I K) {x : Expr}
    (hx : x.isFormula = false) (hwithin : x.Within K) :
    Yields (k.evaluateValue x) w fun v w' =>
      w'.Stands K v (x.operand I) w.alphabet.size := by
  obtain ⟨f, d⟩ := x
  unfold Engine.evaluateValue
  simp only [Expr.value?]
  cases hvalue : f.value? with
  | some n =>
    have hd := hwithin.2 (operand_of_value (I := I) hvalue I.anything fun _ => 0).2
    refine (yields_constant hk _ n hw (closed_known hd)).mono fun v w' _ hv => ?_
    have hexpr : Expr.operand I ⟨f, d⟩ = fun _ =>
        .constant I (((Domain.known? d).getD .any).sense I) n := by
      funext τ
      rw [Expr.operand, (operand_of_value hvalue _ τ).1, sense_getD hd]
    rwa [hexpr]
  | none =>
    cases f with
    | var v => exact yields_variable hw hwithin.1
    | num n => cases hvalue
    | arith op y z =>
      obtain ⟨⟨hy, hyK⟩, hz, hzK⟩ := hwithin.1
      have hexpr : Expr.operand I ⟨.arith op y z, d⟩ = fun τ => .arith I
          ⟨containsOf I d, I.known ((Domain.known? d).getD .any)⟩ op none y.value? z.value?
          (y.operand I τ) (z.operand I τ) := by
        funext τ
        rw [Expr.operand, Form.operand, hvalue]
      rw [hexpr]
      cases op with
      | add =>
        refine yields_values hk hw hy hyK hz hzK fun hw₂ hle hv hu hvu => ?_
        exact (yields_add hw₂ hv hu hvu _).mono fun _ _ _ h =>
          h.of_start_le (Alphabet.size_mono hle.alphabet)
      | sub =>
        refine yields_values hk hw hy hyK hz hzK fun hw₂ hle hv hu hvu => ?_
        exact (yields_sub hw₂ hv hu hvu _).mono fun _ _ _ h =>
          h.of_start_le (Alphabet.size_mono hle.alphabet)
      | mul =>
        have hd := closed_known (hwithin.2 rfl)
        simp only [Operand.arith, sense_getD (hwithin.2 rfl)]
        cases y.value? with
        | some n => exact yields_scale hk hw hd hz hzK n
        | none =>
          cases z.value? with
          | some n => exact yields_scale hk hw hd hy hyK n
          | none => exact .throw
      | div => exact .throw
    | _ => cases hx

end Program

end RegularArithmetic
