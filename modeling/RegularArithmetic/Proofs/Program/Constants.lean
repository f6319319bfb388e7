import RegularArithmetic.Proofs.Automaton.Numerals
import RegularArithmetic.Proofs.Program.Prelude
import RegularArithmetic.Proofs.Program.Totality
import RegularArithmetic.Proofs.Program.Witness

/-!
Numbers of a domain as automata. What a number is put together from decides which words the
automaton accepts; that a reduced automaton is made of it in the end decides how many states it has.
Without a budget there is an automaton for every number.
-/

set_option autoImplicit false

namespace RegularArithmetic

open Program (Engine numberIn temporaryPropsOf)

/-- The automaton is reduced, unless it accepts nothing at all. -/
def Automaton.Compact (s : Diagram.Store) (a : Automaton) : Prop :=
  (∃ u, a.Accepts s u) → a.Reduced s

namespace Program

open Workspace (HasOperands)

variable {I : Interpretation} {K : Limits} {w : Workspace} {k : Engine} {d : Domain}

section

variable {l : Operands} {operands : List Value} {p : Nat}

theorem yields_reduced_result (hw : w.Ready I K) (hl : w.HasOperands K l p)
    (hoperands : ∀ v ∈ operands, v ∈ l.map (·.1)) (htemporary : temporaryPropsOf operands ≠ [])
    {a : Automaton} {V : Set Nat} {L : Word → Prop} (ha : a.Recognizes w.alphabet.diagrams V L)
    (name : String) : Yields (Engine.result a operands name p) w fun v w' =>
      v.automaton.Reduced w'.alphabet.diagrams := by
  unfold Engine.result
  refine (yields_liftAlphabet (yields_reduced_combine hw.sound (ha.mono (Set.subset_univ V))
    (M := fun v => v.automaton.Accepts w.alphabet.diagrams) (fun v hv => ?_) htemporary)).bind
      fun b w' _ ⟨hb, _⟩ => .pure (hb.declaring _)
  obtain ⟨e, he, rfl⟩ := List.mem_map.1 (hoperands v hv)
  obtain ⟨start, hX⟩ := hl.stands e he
  exact hX.recognizes.mono (Set.subset_univ _)

variable {x y : Value} {X Y : Valuation → Operand} {start start' : Nat}

theorem temporaryPropsOf_ne_nil {v : Value} (hv : v ∈ operands) (ht : v.temporary = true) :
    temporaryPropsOf operands ≠ [] :=
  List.ne_nil_of_mem (List.mem_map.2 ⟨v, List.mem_filter.2 ⟨hv, ht⟩, rfl⟩)

theorem yields_reduced_add (hw : w.Ready I K) (hx : w.Stands K x X start)
    (hy : w.Stands K y Y start')
    (hxy : x.temporary = true → y.temporary = true → x.prop ≠ y.prop) (ht : x.temporary = true)
    (d : Domain) : Yields (k.add d x y) w fun v w' => v.automaton.Reduced w'.alphabet.diagrams :=
  yields_operation_of hw (hasOperands_pair hx hy hxy)
    (fun name domain => [(x.var, domain x), (y.var, domain y), (name, d)])
    (fun p => [x.prop, y.prop, p]) (fun name domain p => by simp) fun hw' _ hl ha =>
      yields_reduced_result hw' hl (by simp)
        (temporaryPropsOf_ne_nil List.mem_cons_self ht) ha _

theorem yields_reduced_double (hw : w.Ready I K) (hx : w.Stands K x X start)
    (ht : x.temporary = true) (d : Domain) :
    Yields (k.add d x x) w fun v w' => v.automaton.Reduced w'.alphabet.diagrams :=
  yields_operation_of hw (hasOperands_single hx)
    (fun name domain => [(x.var, domain x), (x.var, domain x), (name, d)])
    (fun p => [x.prop, x.prop, p]) (fun name domain p => by simp) fun hw' _ hl ha =>
      yields_reduced_result hw' hl (by simp)
        (temporaryPropsOf_ne_nil List.mem_cons_self ht) ha _

end

theorem exists_isOne_eq_and (d : Domain) (x y : String) :
    ∃ f g, Engine.isOne d x y = Expr.and f g := by
  rw [Engine.isOne]
  cases d.instantiate? x with
  | none => exact ⟨_, _, rfl⟩
  | some c => exact ⟨_, _, rfl⟩

theorem yields_compact_and (n : Nat) (hw : w.Ready I K) {f g : Expr}
    (hwithin : (Expr.and f g).Within K) :
    Yields ((Engine.ofDepth n).formula (Expr.and f g)) w fun a w' =>
      a.Compact w'.alphabet.diagrams := by
  cases n with
  | zero => exact .throw
  | succ n =>
    obtain ⟨hf, hg⟩ := hwithin.1
    have hk := sound_ofDepth n
    refine (hk.formula hw hf).bind fun a w₁ hle ha => ?_
    have hw₁ := hw.mono hle
    obtain ⟨L, hL, -⟩ := id ha
    refine (yields_liftFault (P := fun e _ => e = true ↔ ∀ u, ¬L u)
      (Automaton.gives_isEmpty_of_recognizes hw₁.sound hL)).bind fun empty w₂ hle₁ hdecided => ?_
    obtain ⟨hempty, -⟩ := hdecided
    have hw₂ := hw₁.mono hle₁
    have hL₂ := hL.mono_store hw₁.sound hle₁.alphabet.1
    refine .ite (fun he => .pure fun ⟨u, hu⟩ => ?_) fun _ => ?_
    · exact absurd ((hL₂.accepts u).1 hu) (hempty.1 he u)
    · refine (hk.formula hw₂ hg).bind fun b w₃ hle₂ ⟨M, hM, _⟩ => ?_
      have hL₃ := (hL₂.mono_store hw₂.sound hle₂.alphabet.1).mono (Set.subset_univ _)
      exact (yields_liftAlphabet (Automaton.yields_reduced_intersect (hw₂.mono hle₂).sound hL₃
        (hM.mono (Set.subset_univ _)))).mono fun c w₄ _ hc _ => hc.1

theorem yields_compact_one (n : Nat) (hw : w.Ready I K) (hd : d.Closed K) :
    Yields ((Engine.ofDepth n).one d) w fun v w' => v.automaton.Compact w'.alphabet.diagrams := by
  rw [one_eq]
  refine (yields_oneVariables hw).bind fun (name, p, y) w' _ ⟨hw', _⟩ => ?_
  have hwithin := within_isOne hd hw.suits.domains.1 name y
  obtain ⟨f, g, hand⟩ := exists_isOne_eq_and d name y
  dsimp only
  rw [hand] at hwithin ⊢
  refine (yields_compact_and n hw' hwithin).bind fun a w₁ _ ha => .pure fun ⟨u, hu⟩ => ?_
  exact (ha ⟨u, (Automaton.acceptsFrom_declaring _).1 hu⟩).declaring _

theorem yields_compact_made (n : Nat) (hw : w.Ready I K) (hd : d.Closed K) {m : Nat}
    (hm : m ≠ 0) : Yields ((Engine.ofDepth n).made d m) w fun v w' =>
      v.automaton.Compact w'.alphabet.diagrams := by
  have hk := sound_ofDepth n
  have htemporary : ∀ {w' : Workspace} {v : Value} {start : Nat} (m : Nat), w'.Ready I K →
      w'.Stands K v (fun _ => .constant I (d.sense I) m) start → v.temporary = true :=
    fun m hw' hv => (hv.temporary fun _ => 0).symm.trans
      (temporary_constant (hw'.right.temporary d) m)
  unfold Engine.made
  rw [if_neg hm]
  split
  · exact yields_compact_one n hw hd
  · split
    · refine (yields_constant hk d (m / 2) hw hd).bind fun v w₁ hle hv => ?_
      exact (yields_reduced_double (hw.mono hle) hv (htemporary _ (hw.mono hle) hv) d).mono
        fun _ _ _ hv _ => hv
    · refine (yields_constant hk d _ hw hd).bind fun v w₁ hle hv => ?_
      have hw₁ := hw.mono hle
      refine (yields_constant hk d _ hw₁ hd).bind fun u w₂ hle₁ hu => ?_
      have hw₂ := hw₁.mono hle₁
      have hv₂ := hv.mono hw₁.suits.vars hle₁ hw₁.sound
      refine (yields_reduced_add hw₂ hv₂ hu (fun _ ht heq => ?_) (htemporary _ hw₂ hv₂) d).mono
        fun _ _ _ hv _ => hv
      have hnew := (hu.fresh ht).1
      have hold := hv.le_size
      omega

theorem made_of_constant {m : Nat} (hmiss : w.program.constants.lookup (m, d) = none) {v : Value}
    {w' : Workspace} (hrun : k.constant d m w = .ok v w') :
    ∃ w₁, k.made d m w = .ok v w₁ ∧ w'.alphabet = w₁.alphabet := by
  rw [constant_eq] at hrun
  obtain ⟨constants, w₀, hask, hrun⟩ := exists_of_bind_eq_ok hrun
  cases hask
  rw [hmiss] at hrun
  obtain ⟨u, w₁, hmade, hrun⟩ := exists_of_bind_eq_ok hrun
  cases hrun
  exact ⟨w₁, hmade, rfl⟩

end Program

/-- The names in `D`, and those that arithmetic asks for, say what `Γ` does; the names in `D` may be
those of domains. Nothing is said of literals, and nothing is remembered. -/
def Relations.bounding (Γ : Relations) (D : Set String) : Interpretation :=
  ⟨D ∪ {"adder", "equal", "less"}, D, fun name _ => Γ name, fun _ _ _ => False, fun _ _ => none⟩

theorem Relations.follows_bounding (Γ : Relations) (D : Set String) : (Γ.bounding D).Follows Γ :=
  ⟨fun _ _ => rfl, fun _ _ => rfl⟩

namespace Workspace

open Binary (IsSum AreEqual IsLess)

variable {w : Workspace} {d : Domain} {S : Set Nat} {name : String} {Γ : Relations}

/-- The relation between so many numbers that the name leads to has been evaluated and is `R`. -/
def Defines (w : Workspace) (name : String) (n : Nat) (R : List Nat → Prop) : Prop :=
  ∃ target q r, w.program.resolveAlias name = .ok target ∧
    w.program.predicates[target]? = some q ∧ q.memo = some r ∧ r.args.length = n ∧
    r.Means w.alphabet.diagrams fun _ => R

theorem Defines.exists_memo {n : Nat} {R : List Nat → Prop} (h : w.Defines name n R)
    {target : String} {q : Predicate} (htarget : w.program.resolveAlias name = .ok target)
    (hq : w.program.predicates[target]? = some q) :
    ∃ r, q.memo = some r ∧ r.args.length = n ∧ r.Means w.alphabet.diagrams fun _ => R := by
  obtain ⟨target', q', r, htarget', hq', hr⟩ := h
  obtain rfl := Except.ok.inj (htarget'.symm.trans htarget)
  obtain rfl := Option.some.inj (hq'.symm.trans hq)
  exact ⟨r, hr⟩

theorem Defines.remembers {n : Nat} {R : List Nat → Prop} (h : w.Defines name n R) :
    w.Remembers name n := by
  obtain ⟨target, q, r, htarget, hq, hr, hn, -⟩ := h
  exact ⟨target, q, r, htarget, hq, hr, hn⟩

theorem Defines.settled {n : Nat} {R : List Nat → Prop} (h : w.Defines name n R) :
    w.Settled name := by
  intro target q htarget hq hmemo
  obtain ⟨r, hr, -⟩ := h.exists_memo htarget hq
  rw [hr] at hmemo
  cases hmemo

theorem Defines.arity_unique {n m : Nat} {R R' : List Nat → Prop} (h : w.Defines name n R)
    (h' : w.Defines name m R') : n = m := by
  obtain ⟨target, q, r, htarget, hq, hr, hn, -⟩ := h
  obtain ⟨r', hr', hm, -⟩ := h'.exists_memo htarget hq
  obtain rfl := Option.some.inj (hr'.symm.trans hr)
  exact hn.symm.trans hm

/-- The numbers in a domain, which is that of all numbers or is made of a predicate of one
argument. -/
inductive Spans (w : Workspace) : Domain → Set Nat → Prop
  | any : w.Spans .any Set.univ
  | restricted {name : String} {S : Set Nat} (h : w.Defines name 1 fun as => ∃ a ∈ S, as = [a])
    (e : Option Domain) : w.Spans (.restricted ⟨name, [⟨.var selfName, e⟩]⟩) S

theorem Spans.covers (h : w.Spans d S) : w.Covers d := by
  cases h with
  | any => exact .any
  | restricted h e => exact .restricted h.remembers e

/-- Nothing is declared, arithmetic asks for the usual relations, and no constant is remembered. The
variables in scope have propositions that exist. -/
structure Counts (w : Workspace) : Prop where
  sound : w.alphabet.diagrams.Sound
  framed : w.Framed
  positive : ∀ f ∈ w.program.frames, ∀ v p, (v, p) ∈ f.vars → p ≠ 0
  declarations : w.program.declarations = []
  adder : w.Defines "adder" 3 IsSum
  equal : w.Defines "equal" 2 AreEqual
  less : w.Defines "less" 2 IsLess
  constants : w.program.constants = []

section

/-! No variable is restricted whose name the evaluator has yet to make. -/

variable (h : w.Counts)
  (hnames : ∀ v, w.program.restrictions.visible v ≠ [] → ¬IsFuture w.program.temporaries v)

include h hnames

theorem Counts.ready (hΓ : Γ.Count) {D : Set String}
    (hD : ∀ name ∈ D, ∃ n, w.Defines name n (Γ name)) :
    w.Ready (Γ.bounding D) (Γ.bounding D).needs := by
  have hdefines : ∀ name ∈ (Γ.bounding D).names, ∃ n, w.Defines name n (Γ name) := by
    rintro name (hname | rfl | rfl | rfl)
    · exact hD name hname
    · exact ⟨3, hΓ.adder.symm ▸ h.adder⟩
    · exact ⟨2, hΓ.equal.symm ▸ h.equal⟩
    · exact ⟨2, hΓ.less.symm ▸ h.less⟩
  have hright : w.Right (Γ.bounding D) := {
    sound := h.sound
    declarations := h.declarations
    names := subset_rfl
    relations := fun name hname target q r htarget hq hr => by
      obtain ⟨n, hn⟩ := hdefines name hname
      obtain ⟨r', hr', -, hmeans⟩ := hn.exists_memo htarget hq
      obtain rfl := Option.some.inj (hr'.symm.trans hr)
      exact hmeans
    settled := fun name hname => by
      obtain ⟨n, hn⟩ := hD name hname
      exact hn.settled
    constants := fun n d v hv => by
      rw [h.constants] at hv
      cases hv
    temporary := fun d n x hx => nomatch hx
    known := fun d n hknown => absurd rfl hknown }
  exact hright.ready_needs h.framed ⟨h.adder.settled, h.equal.settled, h.less.settled⟩ hnames

theorem Counts.exists_ready (hd : w.Spans d S) :
    ∃ (I : Interpretation) (Γ : Relations), I.Follows Γ ∧ Γ.Count ∧ w.Ready I I.needs ∧
      d.Closed I.needs ∧ (d.sense I).Comprises S := by
  cases hd with
  | any =>
    refine ⟨Relations.binary.bounding ∅, .binary, Relations.follows_bounding _ _,
      Relations.count_binary, h.ready hnames Relations.count_binary fun name hname => ?_, trivial,
      ⟨fun n a _ => ?_, fun n => rfl⟩⟩
    · exact absurd hname (Set.notMem_empty name)
    · simp [Domain.sense, Domain.Contains]
  | @restricted name _ hname e =>
    let Γ := Relations.binary.define name fun as => ∃ a ∈ S, as = [a]
    have hne : name ∉ ["adder", "equal", "less"] := by
      simp only [List.mem_cons, List.not_mem_nil, or_false, not_or]
      refine ⟨?_, ?_, ?_⟩
      · rintro rfl
        exact absurd (hname.arity_unique h.adder) (by decide)
      · rintro rfl
        exact absurd (hname.arity_unique h.equal) (by decide)
      · rintro rfl
        exact absurd (hname.arity_unique h.less) (by decide)
    have hΓ : Γ.Count := Relations.count_binary.define hne _
    have hself : Γ name = fun as => ∃ a ∈ S, as = [a] := Relations.define_self _ _ _
    refine ⟨Γ.bounding {name}, Γ, Relations.follows_bounding _ _, hΓ, h.ready hnames hΓ ?_, ?_,
      ⟨fun n a ha => ?_, fun n => rfl⟩⟩
    · rintro _ rfl
      exact ⟨1, hself ▸ hname⟩
    · exact ⟨rfl, ⟨rfl, Set.mem_singleton selfName, by rintro ⟨⟩⟩, trivial⟩
    · have hjoined := Operand.joined_iff (.cons (Operand.is_known ha) .nil) (Γ name)
      change Operand.Joined [.known (Function.update (fun _ => 0) selfName a selfName)] _ n ↔ _
      rw [Function.update_self]
      refine hjoined.trans ?_
      rw [hself]
      simp

theorem Counts.yields_recognizes (hd : w.Spans d S) {k : Engine} (hk : k.Sound) (n : Nat) :
    Yields (k.constant d n) w fun v w' =>
      v.automaton.Recognizes w'.alphabet.diagrams {v.prop} fun u =>
        IsConstant S n (numbers u v.prop) := by
  obtain ⟨I, Γ, hI, hΓ, hready, hclosed, hcomprises⟩ := h.exists_ready hnames hd
  obtain ⟨o, ho⟩ := IsConstant.exists_option S n
  have hconstant := Operand.is_constant_of_comprises (n := 0) hI hΓ hcomprises n ho
  refine (Program.yields_constant hk d n hready hclosed).mono fun v w' _ hv => ?_
  have hprops : w'.propsOf I.needs = ∅ := Set.eq_empty_of_forall_notMem fun p ⟨u, hu, _⟩ =>
    absurd hu (Set.notMem_empty u)
  have hrecognizes := hv.recognizes
  rw [hprops, insert_empty_eq] at hrecognizes
  refine hrecognizes.congr fun u => ?_
  have hfits : w'.Fits I.needs (fun _ => 0) u := fun v hv => absurd hv (Set.notMem_empty v)
  rw [hv.accepts u _ hfits, ← ho]
  exact hconstant.rel u.length (Nat.zero_le _) _ (numbers_lt u v.prop)

theorem Counts.yields_compact (hd : w.Spans d S) {n : Nat} (hn : n ≠ 0) (depth : Nat) :
    Yields ((Engine.ofDepth depth).constant d n) w fun v w' =>
      v.automaton.Compact w'.alphabet.diagrams := by
  obtain ⟨I, Γ, hI, hΓ, hready, hclosed, hcomprises⟩ := h.exists_ready hnames hd
  have hconstant := h.yields_recognizes hnames hd (Program.sound_ofDepth depth) n
  have hmiss : w.program.constants.lookup (n, d) = none := by
    rw [h.constants]
    rfl
  refine .intro (fun v w' hrun => ⟨(hconstant.of_ok hrun).1, ?_⟩) fun e w' => hconstant.of_error
  obtain ⟨w₁, hmade, halphabet⟩ := Program.made_of_constant hmiss hrun
  rw [halphabet]
  exact ((Program.yields_compact_made depth hready hclosed hn).of_ok hmade).2

theorem Counts.succeeds_constantOf (hd : w.Spans d S) (hbudget : w.alphabet.budget = none)
    (n : Nat) : Succeeds (Program.constantOf d n) w := by
  obtain ⟨I, Γ, -, -, hready, hclosed, -⟩ := h.exists_ready hnames hd
  have hassured : w.Assured I I.needs d :=
    { hready with
      closed := hclosed
      covers := hd.covers
      adder := h.adder.remembers
      equal := h.equal.remembers
      less := h.less.remembers
      bound := fun v hv => absurd hv (Set.notMem_empty v)
      positive := h.positive
      budget := hbudget }
  have hdepth : 9 ≤ Engine.limit := by
    unfold Engine.limit
    omega
  exact (Program.succeeds_constant hdepth n hassured).bind_pure

/-- The automaton of a constant admits the words in which its proposition has the number that the
constant is in the domain. For a positive constant that is in the domain, it has one state more than
the number has digits. -/
theorem Counts.yields_constantOf (hd : w.Spans d S) (n : Nat) :
    Yields (Program.constantOf d n) w fun r w' => ∃ p, r.args = [p] ∧
      (∀ u, r.automaton.Admits w'.alphabet.diagrams u ↔ IsConstant S n (numberIn p u)) ∧
      (n ≠ 0 → ∀ a, IsConstant S n a → r.automaton.size = (Nat.digits 2 a).length + 1) := by
  have hcompact : Yields (Engine.standard.constant d n) w fun v w' => n ≠ 0 →
      v.automaton.Compact w'.alphabet.diagrams := by
    by_cases hn : n = 0
    · exact (h.yields_recognizes hnames hd Program.sound_standard n).mono
        fun _ _ _ _ hne => absurd hn hne
    · exact (h.yields_compact hnames hd hn _).mono fun _ _ _ hv _ => hv
  refine ((h.yields_recognizes hnames hd Program.sound_standard n).and hcompact).bind
    fun v w' hle ⟨hv, hcompact⟩ => .pure ⟨v.prop, rfl, fun u => ?_, fun hn a ha => ?_⟩
  · rw [hv.formed.readable.admits_iff (h.sound.mono hle.alphabet.1) hv.deterministic, hv.accepts,
      numberIn_eq]
  · have hiff : ∀ u, v.automaton.Accepts w'.alphabet.diagrams u ↔ numbers u v.prop = a := fun u =>
      (hv.accepts u).trans ⟨fun hu => hu.unique ha, fun hu => hu ▸ ha⟩
    obtain ⟨u, -, hu⟩ := exists_word (σ := fun _ => a) fun _ => Nat.lt_two_pow_self
    exact (hcompact hn ⟨u, (hiff u).2 (hu v.prop)⟩).size_eq_digits (ha.ne_zero hn) hiff

end

end Workspace

end RegularArithmetic
