import RegularArithmetic.Proofs.Diagram.Requests
import RegularArithmetic.Proofs.Diagram.Totality

/-!
If-then-else and the connectives give an edge for all edges of a store, and reading that edge gives
what reading the arguments says. It does not matter what the store was asked for before, nor which
results it remembers.
-/

set_option autoImplicit false

namespace RegularArithmetic.Diagram

variable {s t : Store} {e f g h : Edge} {φ ψ χ : Assignment → Bool}

/-- Reading the edge gives the value of the function, under every assignment. -/
def Store.Evaluates (s : Store) (e : Edge) (φ : Assignment → Bool) : Prop :=
  ∀ σ, s.eval σ e = .ok (φ σ)

theorem Store.Denotes.evaluates (he : s.Denotes e φ) (hs : s.Sound) : s.Evaluates e φ := by
  intro σ
  rw [hs.eval_eq he.valid, he.value_eq]

theorem returns_evaluates {x : M Edge} (hs : s.Sound)
    (hx : Returns x s fun e t => t.Denotes e φ) : Returns x s fun e t => t.Evaluates e φ :=
  hx.mono fun _ _ hst he => he.evaluates (hs.mono hst)

/-- The value of a connective, by those of its two sides. -/
def Connective.value : Connective → Bool → Bool → Bool
  | conj, a, b => a && b
  | disj, a, b => a || b
  | xor, a, b => a ^^ b
  | iff, a, b => a == b
  | implies, a, b => !a || b

theorem returns_join (hs : s.Sound) (c : Connective) (hf : s.Denotes f φ) (hg : s.Denotes g ψ) :
    Returns (c.join f g) s fun e t => t.Denotes e fun σ => c.value (φ σ) (ψ σ) := by
  have hchoice : ∀ {d e : Edge} {χ χ' : Assignment → Bool}, s.Denotes d χ → s.Denotes e χ' →
      (∀ σ, c.value (φ σ) (ψ σ) = if φ σ then χ σ else χ' σ) →
      Returns (ite f d e) s fun e t => t.Denotes e fun σ => c.value (φ σ) (ψ σ) := by
    intro d e χ χ' hd he heq
    apply (returns_ite hs hf hd he).mono
    intro r t _ hr
    exact hr.congr fun σ => (heq σ).symm
  cases c with
  | conj =>
    apply hchoice hg hs.denotes_zero
    intro σ
    cases φ σ <;> rfl
  | disj =>
    apply hchoice hs.denotes_one hg
    intro σ
    cases φ σ <;> rfl
  | xor =>
    apply hchoice (hg.neg hs) hg
    intro σ
    cases φ σ <;> cases ψ σ <;> rfl
  | iff =>
    apply hchoice hg (hg.neg hs)
    intro σ
    cases φ σ <;> cases ψ σ <;> rfl
  | implies =>
    apply hchoice hg hs.denotes_one
    intro σ
    cases φ σ <;> rfl

theorem returns_conjAll (hs : s.Sound) {es : List Edge} (hes : ∀ e ∈ es, s.Valid e) :
    Returns (conjAll es) s fun r t => t.Denotes r fun σ => es.all (s.value · σ) := by
  have hloop : Returns (conjAll es) s fun r t =>
      s ≤ t ∧ t.Denotes r fun σ => es.all (s.value · σ) := by
    apply Returns.foldlM
      (fun done r t => s ≤ t ∧ t.Denotes r fun σ => done.all (s.value · σ))
    · exact ⟨le_rfl, hs.denotes_one.congr fun σ => by simp⟩
    · rintro done e rest hl r t ⟨hst, hr⟩
      have he : s.Valid e := hes e (by simp [hl])
      apply (returns_conj (hs.mono hst) hr (he.denotes.mono hs hst)).mono
      intro r' u htu hr'
      exact ⟨le_trans hst htu, hr'.congr fun σ => by simp⟩
  exact hloop.mono fun _ _ _ hr => hr.2

/-- Edges of the store have values, and if-then-else and the connectives are made of these. -/
structure Store.Computes (s : Store) : Prop where
  value : ∀ e, s.Valid e → s.Evaluates e (s.value e)
  ite : ∀ f g h, s.Valid f → s.Valid g → s.Valid h →
    Returns (ite f g h) s fun e t =>
      t.Evaluates e fun σ => if s.value f σ then s.value g σ else s.value h σ
  join : ∀ (c : Connective) f g, s.Valid f → s.Valid g →
    Returns (c.join f g) s fun e t => t.Evaluates e fun σ => c.value (s.value f σ) (s.value g σ)
  conjAll : ∀ es, (∀ e ∈ es, s.Valid e) →
    Returns (conjAll es) s fun e t => t.Evaluates e fun σ => es.all (s.value · σ)
  disjAll : ∀ es, (∀ e ∈ es, s.Valid e) →
    Returns (disjAll es) s fun e t => t.Evaluates e fun σ => es.any (s.value · σ)

/-- Whatever the store remembers, as long as it is right. -/
theorem Store.Sound.computes (hs : s.Sound) : s.Computes where
  value _ he := he.denotes.evaluates hs
  ite _ _ _ hf hg hh := returns_evaluates hs (returns_ite hs hf.denotes hg.denotes hh.denotes)
  join c _ _ hf hg := returns_evaluates hs (returns_join hs c hf.denotes hg.denotes)
  conjAll _ hes := returns_evaluates hs (returns_conjAll hs hes)
  disjAll _ hes := returns_evaluates hs (returns_disjAll hs hes)

variable {rs : List Request}

/-- If-then-else and the connectives compute theirs after whatever was asked for before. -/
theorem after_computes {bits : Nat} (hs : Store.empty? bits = .ok s) (hrs : Orderly rs s) :
    (after rs s).Computes :=
  (sound_after hs hrs).computes

/-- The conjunction of two edges, one with a node in front of the other's. -/
theorem after_computes_conj : ∃ s, Store.empty? 1 = .ok s ∧
    Orderly [.var 2, .node 1 .zero ⟨2⟩] s ∧
    Returns (conj ⟨2⟩ ⟨3⟩) (after [.var 2, .node 1 .zero ⟨2⟩] s) fun e t => t.Evaluates e fun σ =>
      (after [.var 2, .node 1 .zero ⟨2⟩] s).value ⟨2⟩ σ &&
        (after [.var 2, .node 1 .zero ⟨2⟩] s).value ⟨3⟩ σ := by
  have hs : Store.empty? 1 = _ := Store.empty?_eq (by decide)
  obtain ⟨hrs, hf, hg, -⟩ := orderly_pair hs
  exact ⟨_, hs, hrs, (after_computes hs hrs).join .conj ⟨2⟩ ⟨3⟩ hf hg⟩

end RegularArithmetic.Diagram
