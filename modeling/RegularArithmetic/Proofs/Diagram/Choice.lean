import RegularArithmetic.Diagram.Choice
import RegularArithmetic.Proofs.Diagram.Canonicity

/-!
If-then-else computes the choice of the functions, and the connectives are theirs. Storing a new
node keeps the store sound; results that are still remembered are used as they are.
-/

set_option autoImplicit false

namespace RegularArithmetic.Diagram

open RegularArithmetic.Store (Interner DirectMapped)

variable {s t : Store} {e f g h : Edge} {φ ψ : Assignment → Bool}

/-- Asking changes nothing. -/
theorem Yields.ask {α : Type} {q : Store → Except Fault α} {P : α → Store → Prop}
    (hq : Gives (q s) fun a => P a s) : Yields (ask q) s P := by
  refine .intro (fun a t ha => ?_) fun e t he => ?_
  · simp only [Diagram.ask] at ha
    split at ha <;> cases ha
    exact ⟨le_rfl, hq a ‹_›⟩
  · simp only [Diagram.ask] at he
    split at he <;> cases he
    exact le_rfl

namespace Store

theorem empty?_eq {bits : Nat} (h : bits ≤ 31) : Store.empty? bits =
    .ok ⟨((Interner.empty bits).add .terminal).2, .empty (min bits 16)⟩ := by
  simp only [Store.empty?, Interner.empty?, DirectMapped.empty?, if_pos h,
    if_pos (show min bits 16 ≤ 31 by omega)]
  rfl

theorem le_of_empty? {bits : Nat} (hs : Store.empty? bits = .ok s) : bits ≤ 31 := by
  by_contra h
  simp only [Store.empty?, Interner.empty?, if_neg h] at hs
  cases hs

theorem get?_empty? {bits : Nat} (hs : Store.empty? bits = .ok s) (i : Nat) :
    s.nodes.get? i = if i = 1 then some Node.terminal else none := by
  rw [empty?_eq (le_of_empty? hs)] at hs
  cases hs
  rw [Interner.get?_add, Interner.get?_empty]
  rfl

theorem Sound.empty? {bits : Nat} (hs : Store.empty? bits = .ok s) : s.Sound := by
  have hget := get?_empty? hs
  have hnone : ∀ i n, i ≠ 1 → s.nodes.get? i ≠ some n := by
    intro i n hi
    simp [hget, hi]
  rw [empty?_eq (le_of_empty? hs)] at hs
  cases hs
  exact
    { shaped := (Interner.Shaped.empty bits).add Node.terminal
      terminal := hget 1
      placed := fun i n hi hn => absurd hn (hnone i n hi)
      linked := fun i n hi hn => absurd hn (hnone i n hi)
      distinct := fun i _ n hi _ hn => absurd hn (hnone i n hi)
      results := fun t e he => by simp [DirectMapped.peek_empty] at he }

theorem Sound.withResults (hs : s.Sound) {r : DirectMapped Triple Edge}
    (hr : ∀ t e, r.peek t = some e → s.IsChoice t e) : Sound ⟨s.nodes, r⟩ := by
  have hvalue : ∀ e σ, value ⟨s.nodes, r⟩ e σ = s.value e σ := by
    intro e σ
    rw [value, value, eval_congr (s := ⟨s.nodes, r⟩) (t := s) rfl]
  exact
    { shaped := hs.shaped
      terminal := hs.terminal
      placed := fun i n hi hn =>
        { hs.placed i n hi hn with
          above_low := (hs.placed i n hi hn).above_low
          above_high := (hs.placed i n hi hn).above_high }
      linked := hs.linked
      distinct := hs.distinct
      results := fun t e he =>
        { triple := ⟨(hr t e he).triple.f, (hr t e he).triple.g, (hr t e he).triple.h⟩
          valid := (hr t e he).valid
          value_eq := fun σ => by
            simp only [hvalue, (hr t e he).value_eq σ, chosen] } }

theorem le_withResults (s : Store) {r : DirectMapped Triple Edge}
    (hr : s.Sound → ∀ t e, r.peek t = some e → s.IsChoice t e) : s ≤ ⟨s.nodes, r⟩ :=
  ⟨fun hs => hs.withResults (hr hs), fun _ _ => id⟩

theorem Sound.push (hs : s.Sound) {nodes : Interner Node} {n : Node}
    (happended : s.nodes.Appended n nodes) (hn : s.Placed (s.size + 1) n) :
    Sound ⟨nodes, s.results⟩ ∧ s ≤ ⟨nodes, s.results⟩ := by
  have hold : ∀ i m, s.nodes.get? i = some m → nodes.get? i = some m :=
    fun _ _ => happended.get?_of_some
  have hplaced : ∀ i m, s.Placed i m → i ≤ s.size + 1 → Placed ⟨nodes, s.results⟩ i m := by
    intro i m hp hi
    have habove : ∀ d : Edge, d.index < i → s.Above m.var d →
        Above ⟨nodes, s.results⟩ m.var d := by
      intro d hd hv k hk hd1
      obtain ⟨hsize, -⟩ | hk := happended.cases hk
      · change d.index = s.size + 1 at hsize
        omega
      · exact hv k hk hd1
    exact { hp with
      above_low := habove _ hp.low_lt hp.above_low
      above_high := habove _ hp.high_lt hp.above_high }
  -- The nodes alone are sound, which makes the remembered results right again.
  have hnodes : Sound ⟨nodes, .empty 0⟩ :=
    { shaped := happended.shaped
      terminal := hold _ _ hs.terminal
      placed := by
        intro i m hi hm
        obtain ⟨rfl, rfl⟩ | hm := happended.cases hm
        · exact { hplaced _ _ hn le_rfl with
            above_low := (hplaced _ _ hn le_rfl).above_low
            above_high := (hplaced _ _ hn le_rfl).above_high }
        · have hp := hplaced i m (hs.placed i m hi hm)
            (by have := (Interner.le_size_of_get? hm).2; simp only [size]; omega)
          exact { hp with above_low := hp.above_low, above_high := hp.above_high }
      linked := by
        intro i m hi
        exact happended.linked (hs.linked i m hi)
      distinct := by
        intro i j m hi hj
        exact happended.unique (hs.linked i m hi) (hs.linked j m hj) (hs.distinct i j m hi hj)
      results := fun t e he => by simp [DirectMapped.peek_empty] at he }
  have hle : s ≤ ⟨nodes, .empty 0⟩ := ⟨fun _ => hnodes, hold⟩
  have hsound : Sound ⟨nodes, s.results⟩ :=
    hnodes.withResults fun t e he => (hs.results t e he).mono hs hle
  exact ⟨hsound, fun _ => hsound, hold⟩

end Store

theorem yields_internNode (hs : s.Sound) {v : Nat} {low high : Edge} (hv : v ≠ 0)
    (hlow : s.Valid low) (hhigh : s.Valid high) (hpos : high.isNegated = false)
    (halow : s.Above v low) (hahigh : s.Above v high) :
    Yields (internNode v low high) s fun e t =>
      t.Denotes e fun σ => if σ v then s.value high σ else s.value low σ := by
  by_cases heq : low = high
  · have hrun : internNode v low high s = .ok low s := by simp [internNode, heq]
    simp only [Yields, hrun]
    refine ⟨le_rfl, hlow, ?_⟩
    funext σ
    simp [heq]
  -- Either way the edge leads to a node that is placed and has the two edges.
  have hdenotes : ∀ (t : Store) (i : Nat), s ≤ t → i ≠ 1 →
      t.nodes.get? i = some ⟨v, low, high⟩ →
      t.Denotes (.toNode i) fun σ => if σ v then s.value high σ else s.value low σ := by
    intro t i hst hi hget
    refine ⟨⟨_, hget⟩, ?_⟩
    funext σ
    rw [(hs.mono hst).value_node (e := .toNode i) hget hi, Edge.along_toNode]
    simp only [Node.select]
    split
    · rw [hs.value_mono hst hhigh]
    · rw [hs.value_mono hst hlow]
  have hne : ∀ i, s.nodes.get? i = some ⟨v, low, high⟩ → i ≠ 1 := by
    rintro i hi rfl
    rw [hs.terminal] at hi
    cases hi
    exact hv rfl
  rcases Interner.put_cases (t := s.nodes) ⟨v, low, high⟩ hs.shaped with
    ⟨i, hput, hget⟩ | ⟨nodes, hput, happended⟩
  · have hrun : internNode v low high s = .ok (.toNode i) s := by
      simp [internNode, heq, hput]
    simp only [Yields, hrun]
    exact ⟨le_rfl, hdenotes s i le_rfl (hne i hget) hget⟩
  · have hrun : internNode v low high s = .ok (.toNode (s.nodes.size + 1)) ⟨nodes, s.results⟩ := by
      simp [internNode, heq, hput]
    obtain ⟨nl, hnl⟩ := hlow
    obtain ⟨nh, hnh⟩ := hhigh
    have hsizel := Interner.le_size_of_get? hnl
    have hsizeh := Interner.le_size_of_get? hnh
    have hplaced : s.Placed (s.size + 1) ⟨v, low, high⟩ :=
      { var_ne_zero := hv
        low_ne_zero := hsizel.1
        high_ne_zero := hsizeh.1
        low_lt := by simp only [Store.size]; omega
        high_lt := by simp only [Store.size]; omega
        high_positive := hpos
        low_ne_high := heq
        above_low := halow
        above_high := hahigh }
    have hpush := hs.push happended hplaced
    simp only [Yields, hrun]
    exact ⟨hpush.2, hdenotes _ _ hpush.2 (by omega) happended.get?_last⟩

/-- "If `v` then `high` else `low`", for edges that only test variables behind `v`. -/
theorem yields_makeNode (hs : s.Sound) {v : Nat} {low high : Edge} (hlow : s.Denotes low φ)
    (hhigh : s.Denotes high ψ) (halow : s.Above v low) (hahigh : s.Above v high) :
    Yields (makeNode v low high) s fun e t => t.Denotes e fun σ => if σ v then ψ σ else φ σ := by
  unfold makeNode
  by_cases hv : v = 0
  · rw [if_pos hv]
    exact .throw
  rw [if_neg hv]
  by_cases hneg : high.isNegated = true
  · rw [if_pos hneg]
    have hpos : (-high).isNegated = false := by
      rw [Edge.isNegated_neg hhigh.valid.index_ne_zero, hneg]
      rfl
    refine (yields_internNode hs hv (Store.valid_neg.2 hlow.valid) (Store.valid_neg.2 hhigh.valid)
      hpos (by simpa using halow) (by simpa using hahigh)).bind fun e t hst he => ?_
    refine .pure ((he.neg (hs.mono hst)).congr fun σ => ?_)
    rw [(hlow.neg hs).value_eq, (hhigh.neg hs).value_eq]
    split <;> simp
  · rw [if_neg hneg]
    refine (yields_internNode hs hv hlow.valid hhigh.valid (Bool.eq_false_of_not_eq_true hneg)
      halow hahigh).mono fun e t _ he => ?_
    rwa [hlow.value_eq, hhigh.value_eq] at he

theorem yields_makeVariable (hs : s.Sound) (v : Nat) :
    Yields (makeVariable v) s fun e t => t.Denotes e fun σ => σ v :=
  (yields_makeNode hs hs.denotes_zero hs.denotes_one (Store.above_of_index_eq_one rfl)
    (Store.above_of_index_eq_one rfl)).mono fun _ _ _ he => he.congr fun σ => by
      cases σ v <;> rfl

namespace Triple

variable {tr : Triple}

theorem isChoice_settled? (hs : s.Sound) (htr : s.ValidTriple tr) (he : tr.settled? = some e) :
    s.IsChoice tr e := by
  obtain ⟨f, g, h⟩ := tr
  have hf : s.Valid f := htr.f
  have hg : s.Valid g := htr.g
  have hh : s.Valid h := htr.h
  refine ⟨htr, ?_, fun σ => ?_⟩
  · simp only [settled?] at he
    split_ifs at he <;> rw [← Option.some.inj he]
    all_goals first
      | assumption | exact hs.valid_one | exact hs.valid_zero | exact Store.valid_neg.2 hf
  · have hneg : s.value (-f) σ = !s.value f σ := hs.value_neg hf
    simp only [settled?] at he
    split_ifs at he <;> simp only [Option.some.injEq] at he <;> subst he
    all_goals cases hvalue : s.value f σ <;> simp_all [Store.chosen]

theorem validTriple_absorb (hs : s.Sound) (htr : s.ValidTriple tr) : s.ValidTriple tr.absorb := by
  obtain ⟨f, g, h⟩ := tr
  simp only [absorb]
  split_ifs
  · exact ⟨htr.f, hs.valid_one, htr.h⟩
  · exact ⟨htr.f, htr.g, hs.valid_zero⟩
  · exact ⟨htr.f, hs.valid_zero, htr.h⟩
  · exact ⟨htr.f, htr.g, hs.valid_one⟩
  · exact htr

theorem chosen_absorb (hs : s.Sound) (htr : s.ValidTriple tr) (σ : Assignment) :
    s.chosen tr.absorb σ = s.chosen tr σ := by
  obtain ⟨f, g, h⟩ := tr
  have hf : s.Valid f := htr.f
  simp only [absorb]
  split_ifs
  all_goals simp_all only [Store.chosen, hs.value_neg, Store.value_one, Store.value_zero]
  all_goals cases s.value f σ <;> rfl

theorem gives_orient (hs : s.Sound) (htr : s.ValidTriple tr) :
    Gives (tr.orient s) fun tr' => s.ValidTriple tr' ∧ ∀ σ, s.chosen tr' σ = s.chosen tr σ := by
  obtain ⟨f, g, h⟩ := tr
  have hf : s.Valid f := htr.f
  have hg : s.Valid g := htr.g
  have hh : s.Valid h := htr.h
  unfold orient
  refine .bind_of_forall fun i => ?_
  refine .bind_of_forall fun j => ?_
  refine .bind_of_forall fun k => ?_
  refine .pure ?_
  split_ifs
  all_goals refine ⟨⟨?_, ?_, ?_⟩, fun σ => ?_⟩
  all_goals first
    | exact hs.valid_one | exact hs.valid_zero | assumption
    | exact Store.valid_neg.2 ‹_› | skip
  all_goals simp_all only [Store.chosen, hs.value_neg, Store.value_one, Store.value_zero]
  all_goals cases s.value f σ <;> first | rfl | (cases s.value g σ <;> rfl) |
    (cases s.value h σ <;> rfl)

theorem validTriple_regular (htr : s.ValidTriple tr) : s.ValidTriple tr.regular.1 := by
  obtain ⟨f, g, h⟩ := tr
  have hf : s.Valid f := htr.f
  have hg : s.Valid g := htr.g
  have hh : s.Valid h := htr.h
  simp only [regular]
  split_ifs <;> constructor <;> simpa

theorem chosen_regular (hs : s.Sound) (htr : s.ValidTriple tr) (σ : Assignment) :
    s.chosen tr.regular.1 σ = (tr.regular.2 ^^ s.chosen tr σ) := by
  obtain ⟨f, g, h⟩ := tr
  have hf : s.Valid f := htr.f
  have hg : s.Valid g := htr.g
  have hh : s.Valid h := htr.h
  simp only [regular]
  split_ifs
  all_goals simp only [Store.chosen, hs.value_neg hf, hs.value_neg hg, hs.value_neg hh]
  all_goals cases s.value f σ <;> simp

theorem gives_top (hs : s.Sound) (tr : Triple) :
    Gives (tr.top s) fun m => m ≠ 0 →
      s.Above (m - 1) tr.f ∧ s.Above (m - 1) tr.g ∧ s.Above (m - 1) tr.h := by
  intro m hm
  have hvar : ∀ e i, (s.node e).map Node.var = .ok i →
      s.Above (i - 1) e ∧ (i = 0 → e.index = 1) := by
    intro e i hi
    cases hn : s.node e with
    | error f => simp [hn, Except.map] at hi
    | ok n =>
      obtain rfl : n.var = i := by simpa [hn, Except.map] using hi
      have hget := Store.get?_of_node hn
      have hne : e.index ≠ 1 → n.var ≠ 0 := fun he => (hs.placed _ n he hget).var_ne_zero
      refine ⟨fun n' hn' he => ?_, fun h0 => by_contra fun he => hne he h0⟩
      rw [hget] at hn'
      cases hn'
      have := hne he
      omega
  obtain ⟨f, g, h⟩ := tr
  simp only [top] at hm
  cases hf : s.node f with
  | error _ => simp [hf, bind, Except.bind] at hm
  | ok i =>
    cases hg : s.node g with
    | error _ => simp [hf, hg, bind, Except.bind] at hm
    | ok j =>
      cases hh : s.node h with
      | error _ => simp [hf, hg, hh, bind, Except.bind] at hm
      | ok k =>
        simp only [hf, hg, hh, bind, Except.bind, pure, Except.pure, Except.ok.injEq] at hm
        obtain ⟨haf, _⟩ := hvar f i.var (by rw [hf]; rfl)
        obtain ⟨hag, hgt⟩ := hvar g j.var (by rw [hg]; rfl)
        obtain ⟨hah, hht⟩ := hvar h k.var (by rw [hh]; rfl)
        intro h0
        refine ⟨haf.mono ?_, ?_, ?_⟩
        · split_ifs at hm <;> omega
        · by_cases hj : j.var = 0
          · exact Store.above_of_index_eq_one (hgt hj)
          · exact hag.mono (by split_ifs at hm <;> omega)
        · by_cases hk : k.var = 0
          · exact Store.above_of_index_eq_one (hht hk)
          · exact hah.mono (by split_ifs at hm <;> omega)

end Triple

/-- The two halves of `e` where `v` is false and where it is true. -/
structure Store.AreHalves (s : Store) (e : Edge) (v : Nat) (c : Edge × Edge) : Prop where
  ne_zero : v ≠ 0
  low : s.Valid c.1
  high : s.Valid c.2
  above_low : s.Above v c.1
  above_high : s.Above v c.2
  value_eq : ∀ σ, s.value e σ = if σ v then s.value c.2 σ else s.value c.1 σ

theorem Store.gives_cofactors (hs : s.Sound) {v : Nat} (he : s.Valid e)
    (hv : s.Above (v - 1) e) : Gives (s.cofactors e v) (s.AreHalves e v) := by
  unfold Store.cofactors
  by_cases h0 : v = 0
  · rw [if_pos h0]
    exact .throw
  rw [if_neg h0]
  by_cases ht : e.isTerminal = true
  · rw [if_pos ht]
    have hi := Edge.isTerminal_iff.1 ht
    exact .pure ⟨h0, he, he, above_of_index_eq_one hi, above_of_index_eq_one hi, fun σ => by simp⟩
  rw [if_neg ht]
  have hi : e.index ≠ 1 := fun hi => ht (Edge.isTerminal_iff.2 hi)
  obtain ⟨n, hn⟩ := he
  have hp := hs.placed _ n hi hn
  have hle : v ≤ n.var := by
    have := hv n hn hi
    omega
  rw [node_eq hn]
  change Gives (if v < n.var then _ else _) _
  by_cases hlt : v < n.var
  · rw [if_pos hlt]
    have habove : s.Above v e := by
      intro m hm _
      rw [hn] at hm
      cases hm
      exact hlt
    exact .pure ⟨h0, ⟨n, hn⟩, ⟨n, hn⟩, habove, habove, fun σ => by simp⟩
  · rw [if_neg hlt]
    obtain rfl : v = n.var := by omega
    rw [if_neg (by simp)]
    have hhalves : s.AreHalves e n.var (e.along n.low, e.along n.high) :=
      { ne_zero := h0
        low := valid_along.2 (hs.valid_select hn hi false)
        high := valid_along.2 (hs.valid_select hn hi true)
        above_low := above_along.2 hp.above_low
        above_high := above_along.2 hp.above_high
        value_eq := fun σ => by
          rw [hs.value_node hn hi, Node.select]
          split <;> rfl }
    simp only [Edge.along] at hhalves
    refine .pure ?_
    split at hhalves <;> simp_all

theorem yields_remembered (hs : s.Sound) (tr : Triple) :
    Yields (remembered tr) s fun e t => ∀ d ∈ e, t.IsChoice tr d := by
  have hr : ∀ tr' e', (s.results.find tr).2.peek tr' = some e' → s.IsChoice tr' e' := by
    intro tr' e' h'
    rw [DirectMapped.peek_find] at h'
    exact hs.results tr' e' h'
  have hrun : remembered tr s = .ok (s.results.find tr).1 ⟨s.nodes, (s.results.find tr).2⟩ := rfl
  have hle := s.le_withResults fun _ => hr
  rw [Yields, hrun]
  refine ⟨hle, fun d hd => ?_⟩
  rw [DirectMapped.find_fst] at hd
  exact (hs.results tr d hd).mono hs hle

theorem yields_remember (hs : s.Sound) {tr : Triple} (he : s.IsChoice tr e) :
    Yields (remember tr e) s fun _ _ => True := by
  have hr : ∀ tr' e', (s.results.insert tr e).peek tr' = some e' → s.IsChoice tr' e' := by
    intro tr' e' h'
    rcases DirectMapped.peek_insert h' with ⟨rfl, rfl⟩ | h'
    · exact he
    · exact hs.results tr' e' h'
  have hrun : remember tr e s = .ok () ⟨s.nodes, s.results.insert tr e⟩ := rfl
  rw [Yields, hrun]
  exact ⟨s.le_withResults fun _ => hr, trivial⟩

theorem yields_split (hs : s.Sound) {choose : Triple → M Edge} {tr : Triple}
    (htr : s.ValidTriple tr)
    (hchoose : ∀ t, t.Sound → ∀ tr', t.ValidTriple tr' → Yields (choose tr') t fun e u =>
      u.IsChoice tr' e) :
    Yields (split choose tr) s fun e t => t.IsChoice tr e := by
  unfold split
  refine (Yields.ask (P := fun m u => s.Sound ∧ s = u ∧ (m ≠ 0 → s.Above (m - 1) tr.f ∧
    s.Above (m - 1) tr.g ∧ s.Above (m - 1) tr.h)) ?_).bind ?_
  · exact (Triple.gives_top hs tr).mono fun m hm => ⟨hs, rfl, hm⟩
  rintro m _ - ⟨-, rfl, hm⟩
  by_cases h0 : m = 0
  · subst h0
    exact Yields.bind (P := fun _ _ => False) (Yields.ask (by
      rintro c hc
      simp [Store.cofactors, throw, throwThe, MonadExceptOf.throw, bind, Except.bind] at hc))
      fun _ _ _ h => h.elim
  obtain ⟨haf, hag, hah⟩ := hm h0
  have hcofactors : ∀ e, s.Valid e → s.Above (m - 1) e →
      Yields (ask (·.cofactors e m)) s fun c t => s = t ∧ s.AreHalves e m c :=
    fun e he hv => Yields.ask ((Store.gives_cofactors hs he hv).mono fun c hc => ⟨rfl, hc⟩)
  refine (hcofactors tr.f htr.f haf).bind ?_
  rintro ⟨f₀, f₁⟩ _ - ⟨rfl, hf⟩
  refine (hcofactors tr.g htr.g hag).bind ?_
  rintro ⟨g₀, g₁⟩ _ - ⟨rfl, hg⟩
  refine (hcofactors tr.h htr.h hah).bind ?_
  rintro ⟨h₀, h₁⟩ _ - ⟨rfl, hh⟩
  -- The results test later variables only, since the functions of the halves do.
  have habove : ∀ {t f' g' h' e}, s ≤ t → t.IsChoice ⟨f', g', h'⟩ e → s.Valid f' → s.Valid g' →
      s.Valid h' → s.Above m f' → s.Above m g' → s.Above m h' → t.Above m e := by
    intro t f' g' h' e hst he hf' hg' hh' hvf hvg hvh
    have ht := hs.mono hst
    refine ht.above_of_value_congr fun σ τ hστ => ?_
    simp only [he.value_eq, Store.chosen,
      ht.value_congr hστ (hf'.mono hst) (hvf.mono_store hf' hst),
      ht.value_congr hστ (hg'.mono hst) (hvg.mono_store hg' hst),
      ht.value_congr hστ (hh'.mono hst) (hvh.mono_store hh' hst)]
  refine (hchoose s hs ⟨f₀, g₀, h₀⟩ ⟨hf.low, hg.low, hh.low⟩).bind fun low t hst hlow => ?_
  have ht := hs.mono hst
  refine (hchoose t ht ⟨f₁, g₁, h₁⟩ ⟨hf.high.mono hst, hg.high.mono hst, hh.high.mono hst⟩).bind
    fun high u htu hhigh => ?_
  have hsu := le_trans hst htu
  have hu := hs.mono hsu
  have hlow := hlow.mono ht htu
  have halow : u.Above m low :=
    habove hsu hlow hf.low hg.low hh.low hf.above_low hg.above_low hh.above_low
  have hahigh : u.Above m high :=
    habove hsu hhigh hf.high hg.high hh.high hf.above_high hg.above_high hh.above_high
  refine (yields_makeNode hu ⟨hlow.valid, funext hlow.value_eq⟩
    ⟨hhigh.valid, funext hhigh.value_eq⟩ halow hahigh).mono fun e v huv he => ?_
  have hsv := le_trans hsu huv
  have hlows : s.ValidTriple ⟨f₀, g₀, h₀⟩ := ⟨hf.low, hg.low, hh.low⟩
  have hhighs : s.ValidTriple ⟨f₁, g₁, h₁⟩ := ⟨hf.high, hg.high, hh.high⟩
  refine ⟨htr.mono hsv, he.valid, fun σ => ?_⟩
  rw [he.value_eq, hs.chosen_mono hsv htr,
    hs.chosen_mono hsu hlows, hs.chosen_mono hsu hhighs]
  simp only [Store.chosen, hf.value_eq, hg.value_eq, hh.value_eq]
  cases σ m <;> rfl

theorem yields_chooseWithin (depth : Nat) : ∀ s : Store, s.Sound → ∀ tr, s.ValidTriple tr →
    Yields (chooseWithin depth tr) s fun e t => t.IsChoice tr e := by
  induction depth with
  | zero => exact fun _ _ _ _ => .throw
  | succ depth ih =>
    intro s hs tr htr
    rw [chooseWithin]
    cases hsettled : tr.settled? with
    | some e => exact .pure (Triple.isChoice_settled? hs htr hsettled)
    | none =>
      have habsorb := Triple.validTriple_absorb hs htr
      have hchosen := Triple.chosen_absorb hs htr
      dsimp only
      cases hsettled' : tr.absorb.settled? with
      | some e =>
        have he := Triple.isChoice_settled? hs habsorb hsettled'
        exact .pure ⟨htr, he.valid, fun σ => (he.value_eq σ).trans (hchosen σ)⟩
      | none =>
        refine (Yields.ask (P := fun tr' u => s = u ∧ s.ValidTriple tr' ∧
          ∀ σ, s.chosen tr' σ = s.chosen tr σ) ?_).bind ?_
        · exact (Triple.gives_orient hs habsorb).mono fun tr' h =>
            ⟨rfl, h.1, fun σ => (h.2 σ).trans (hchosen σ)⟩
        rintro tr' _ - ⟨rfl, htr', hchosen'⟩
        have hregular := Triple.validTriple_regular htr'
        have hflag := Triple.chosen_regular hs htr'
        generalize tr'.regular = form at hregular hflag ⊢
        obtain ⟨reg, negated⟩ := form
        have hresult : ∀ {e t}, s ≤ t → t.IsChoice reg e →
            t.IsChoice tr (if negated = true then -e else e) := by
          intro e t hst he
          refine ⟨htr.mono hst, ?_, fun σ => ?_⟩
          · split
            · exact Store.valid_neg.2 he.valid
            · exact he.valid
          · rw [hs.chosen_mono hst htr, ← hchosen' σ]
            have hσ := hflag σ
            rw [← hs.chosen_mono hst hregular, ← he.value_eq σ] at hσ
            cases negated with
            | true => simp [(hs.mono hst).value_neg he.valid, hσ]
            | false => simpa using hσ
        refine (yields_remembered hs reg).bind fun found t hst hfound => ?_
        cases found with
        | some e => exact .pure (hresult hst (hfound e rfl))
        | none =>
          have ht := hs.mono hst
          refine (yields_split ht (hregular.mono hst) ih).bind fun e u htu he => ?_
          refine (yields_remember (ht.mono htu) he).bind fun _ v huv _ => ?_
          exact .pure (hresult (le_trans (le_trans hst htu) huv) (he.mono (ht.mono htu) huv))

theorem yields_ite {χ : Assignment → Bool} (hs : s.Sound) (hf : s.Denotes f χ)
    (hg : s.Denotes g φ) (hh : s.Denotes h ψ) :
    Yields (ite f g h) s fun e t => t.Denotes e fun σ => if χ σ then φ σ else ψ σ := by
  refine (yields_chooseWithin _ s hs ⟨f, g, h⟩ ⟨hf.valid, hg.valid, hh.valid⟩).mono
    fun e t hst he => ⟨he.valid, funext fun σ => ?_⟩
  rw [he.value_eq, hs.chosen_mono hst ⟨hf.valid, hg.valid, hh.valid⟩]
  simp only [Store.chosen, hf.value_eq, hg.value_eq, hh.value_eq]

section

variable (hs : s.Sound) (he : s.Denotes e φ) (hf : s.Denotes f ψ)

include hs he hf

theorem yields_conj : Yields (conj e f) s fun r t => t.Denotes r fun σ => φ σ && ψ σ :=
  (yields_ite hs he hf hs.denotes_zero).mono fun _ _ _ hr => hr.congr fun σ => by
    cases φ σ <;> rfl

theorem yields_disj : Yields (disj e f) s fun r t => t.Denotes r fun σ => φ σ || ψ σ :=
  (yields_ite hs he hs.denotes_one hf).mono fun _ _ _ hr => hr.congr fun σ => by
    cases φ σ <;> rfl

theorem yields_iff : Yields (iff e f) s fun r t => t.Denotes r fun σ => φ σ == ψ σ :=
  (yields_ite hs he hf (hf.neg hs)).mono fun _ _ _ hr => hr.congr fun σ => by
    cases φ σ <;> cases ψ σ <;> rfl

end

theorem yields_disjAll (hs : s.Sound) {es : List Edge} (hes : ∀ e ∈ es, s.Valid e) :
    Yields (disjAll es) s fun r t => t.Denotes r fun σ => es.any (s.value · σ) := by
  suffices h : ∀ (es : List Edge) (r : Edge) (χ : Assignment → Bool) (t : Store), s ≤ t →
      (∀ e ∈ es, s.Valid e) → t.Denotes r χ → Yields (es.foldlM disj r) t fun r u =>
        u.Denotes r fun σ => χ σ || es.any (s.value · σ) by
    exact (h es .zero _ s le_rfl hes hs.denotes_zero).mono fun _ _ _ hr => hr.congr fun σ => by
      simp
  intro es
  induction es with
  | nil =>
    intro r χ t _ _ hr
    exact .pure (hr.congr fun σ => by simp)
  | cons e es ih =>
    intro r χ t hst hes hr
    have ht := hs.mono hst
    have he : s.Valid e := hes e (by simp)
    rw [List.foldlM_cons]
    refine (yields_disj ht hr (he.denotes.mono hs hst)).bind fun r u htu hr => ?_
    refine (ih r _ u (le_trans hst htu) (fun e he => hes e (by simp [he])) hr).mono
      fun _ _ _ hr => hr.congr fun σ => ?_
    simp only [List.any_cons, Bool.or_assoc]

end RegularArithmetic.Diagram
