import Mathlib.Data.Finset.Card
import Mathlib.Data.Finset.Image
import RegularArithmetic.Proofs.Automaton.Labels
import RegularArithmetic.Proofs.Automaton.Trimming

/-!
Minimizing keeps the language. States of one block agree on acceptance and on the letters into
each block, once the blocks are refined until their number stays the same; so a state accepts
what the state of its block does in the smaller automaton.
-/

set_option autoImplicit false

namespace RegularArithmetic.Automaton

open Diagram (Edge Assignment)

variable {s t : Diagram.Store} {a : Automaton} {V : Set Nat} {L : Word → Prop}
  {block : Array Nat} {count : Nat}

/-- The letter leads from `q` into block `b`. -/
def Into (s : Diagram.Store) (a : Automaton) (block : Array Nat) (q : Nat) (l : Assignment)
    (b : Nat) : Prop :=
  ∃ r, Step s a q l r ∧ block.getD r 0 = b

/-- The states are in one block, and the same letters lead from them into each block. -/
def Alike (s : Diagram.Store) (a : Automaton) (block : Array Nat) (q q' : Nat) : Prop :=
  block.getD q 0 = block.getD q' 0 ∧ ∀ l b, Into s a block q l b ↔ Into s a block q' l b

/-- The key lists the block of `q` and the letters that lead into each block, by increasing
blocks. -/
def IsSignature (s : Diagram.Store) (a : Automaton) (block : Array Nat) (q : Nat)
    (key : List Int) : Prop :=
  ∃ into : List (Nat × Edge),
    key = (block.getD q 0 : Int) :: into.flatMap (fun (b, e) => [(b : Int), e.code]) ∧
    Ascending into ∧ (∀ b e, (b, e) ∈ into → IsLabel s Set.univ e) ∧
    ∀ b l, Keyed s into b l ↔ Into s a block q l b

theorem into_mono (hs : s.Sound) (hst : s ≤ t) (h : a.Formed s) {q b : Nat} {l : Assignment} :
    Into t a block q l b ↔ Into s a block q l b := by
  simp only [Into, step_mono hs hst h]

theorem IsSignature.mono (hs : s.Sound) (hst : s ≤ t) (h : a.Formed s) {q : Nat} {key : List Int}
    (hkey : IsSignature s a block q key) : IsSignature t a block q key := by
  obtain ⟨into, rfl, hascending, hlabels, hkeyed⟩ := hkey
  refine ⟨into, rfl, hascending, fun b e he => (hlabels b e he).mono_store hs hst, fun b l => ?_⟩
  rw [into_mono hs hst h, ← hkeyed, keyed_mono hs hst hlabels]

private theorem flatMap_codes_inj : ∀ {x y : List (Nat × Edge)},
    x.flatMap (fun (b, e) => [(b : Int), e.code]) = y.flatMap (fun (b, e) => [(b : Int), e.code]) →
      x = y
  | [], [], _ => rfl
  | [], _ :: _, h => by simp at h
  | _ :: _, [], h => by simp at h
  | (b, ⟨c⟩) :: x, (b', ⟨c'⟩) :: y, h => by
    simp only [List.flatMap_cons, List.cons_append, List.nil_append, List.cons.injEq,
      Int.natCast_inj] at h
    obtain ⟨rfl, rfl, h⟩ := h
    rw [flatMap_codes_inj h]

theorem IsSignature.alike {q q' : Nat} {key : List Int} (h : IsSignature s a block q key)
    (h' : IsSignature s a block q' key) : Alike s a block q q' := by
  obtain ⟨into, rfl, -, -, hkeyed⟩ := h
  obtain ⟨into', heq, -, -, hkeyed'⟩ := h'
  obtain ⟨hblock, hinto⟩ := List.cons.inj heq
  obtain rfl := flatMap_codes_inj hinto
  exact ⟨Int.natCast_inj.1 hblock, fun l b => (hkeyed b l).symm.trans (hkeyed' b l)⟩

theorem Alike.signature_eq (hs : s.Sound) {q q' : Nat} {key key' : List Int}
    (halike : Alike s a block q q') (h : IsSignature s a block q key)
    (h' : IsSignature s a block q' key') : key = key' := by
  obtain ⟨into, rfl, hascending, hlabels, hkeyed⟩ := h
  obtain ⟨into', rfl, hascending', hlabels', hkeyed'⟩ := h'
  rw [halike.1, hascending.eq_of_keyed_iff hs hascending' hlabels hlabels' fun b l => ?_]
  rw [hkeyed, hkeyed', halike.2]

theorem returns_signature (hs : s.Sound) (h : a.Recognizes s V L) {q : Nat} {st : State}
    (hq : a.states[q]? = some st) :
    Returns (signature block q st) s fun key t => IsSignature t a block q key := by
  have hlabel : ∀ m ∈ st.moves, IsLabel s Set.univ m.label := fun m hm =>
    (h.mono (Set.subset_univ V)).isLabel ((hasMove_iff hq).2 hm)
  unfold signature
  refine (returns_gather (V := Set.univ) hs fun k e hke => ?_).bind
    fun into t hst ⟨hascending, hlabels, hkeyed⟩ => ?_
  · obtain ⟨m, hm, heq⟩ := List.mem_map.1 hke
    cases heq
    exact hlabel m hm
  · refine .pure ⟨into, rfl, hascending, hlabels, fun b l => ?_⟩
    rw [hkeyed, into_mono hs hst h.formed]
    constructor
    · rintro ⟨e, he, hl⟩
      obtain ⟨m, hm, heq⟩ := List.mem_map.1 he
      cases heq
      exact ⟨m.target, ⟨m, (hasMove_iff hq).2 hm, hl, rfl⟩, rfl⟩
    · rintro ⟨r, ⟨m, hm, hl, rfl⟩, rfl⟩
      exact ⟨m.label, List.mem_map.2 ⟨m, (hasMove_iff hq).1 hm, rfl⟩, hl⟩

/-- The blocks are numbered without gaps, and agree on acceptance. -/
structure Blocks (a : Automaton) (block : Array Nat) (count : Nat) : Prop where
  size_eq : block.size = a.size
  card_eq : ((Finset.range a.size).image fun q => block.getD q 0).card = count
  accepting : ∀ q q', q < a.size → q' < a.size → block.getD q 0 = block.getD q' 0 →
    (a.Accepting q ↔ a.Accepting q')

/-- What the signatures of the first states have given. -/
private structure Numbered (s : Diagram.Store) (a : Automaton) (block : Array Nat) (n : Nat)
    (r : Std.TreeMap (List Int) Nat × Array Nat) : Prop where
  size_eq : r.2.size = n
  lt : ∀ q < n, r.2.getD q 0 < r.1.size
  met : ∀ b < r.1.size, ∃ q < n, r.2.getD q 0 = b
  signature : ∀ q < n, ∃ key, r.1[key]? = some (r.2.getD q 0) ∧ IsSignature s a block q key
  known : ∀ (key : List Int) b, r.1[key]? = some b → b < r.1.size
  inj : ∀ (key key' : List Int) b, r.1[key]? = some b → r.1[key']? = some b → key = key'

private theorem Numbered.mono (hs : s.Sound) (hst : s ≤ t) (h : a.Formed s) {n : Nat}
    {r : Std.TreeMap (List Int) Nat × Array Nat} (hr : Numbered s a block n r) :
    Numbered t a block n r :=
  { hr with
    signature := fun q hq => by
      obtain ⟨key, hkey, hsig⟩ := hr.signature q hq
      exact ⟨key, hkey, hsig.mono hs hst h⟩ }

private theorem getD_push_of_lt {x : Array Nat} {b q : Nat} (hq : q < x.size) :
    (x.push b).getD q 0 = x.getD q 0 := by
  rw [Array.getD_eq_getD_getElem?, Array.getD_eq_getD_getElem?, Array.getElem?_push,
    if_neg (by omega)]

private theorem getD_push_self {x : Array Nat} {b : Nat} : (x.push b).getD x.size 0 = b := by
  rw [Array.getD_eq_getD_getElem?, Array.getElem?_push, if_pos rfl]
  rfl

private theorem Numbered.push_old {n b : Nat} {numbers : Std.TreeMap (List Int) Nat}
    {next : Array Nat} (h : Numbered s a block n (numbers, next)) {key : List Int}
    (hkey : numbers[key]? = some b) (hsig : IsSignature s a block n key) :
    Numbered s a block (n + 1) (numbers, next.push b) where
  size_eq := by simpa using h.size_eq
  lt q hq := by
    rcases Nat.lt_succ_iff_lt_or_eq.1 hq with hq | rfl
    · rw [getD_push_of_lt (h.size_eq ▸ hq)]
      exact h.lt q hq
    · rw [← h.size_eq, getD_push_self]
      exact h.known key b hkey
  met c hc := by
    obtain ⟨q, hq, hb⟩ := h.met c hc
    exact ⟨q, by omega, by rwa [getD_push_of_lt (h.size_eq ▸ hq)]⟩
  signature q hq := by
    rcases Nat.lt_succ_iff_lt_or_eq.1 hq with hq | rfl
    · rw [getD_push_of_lt (h.size_eq ▸ hq)]
      exact h.signature q hq
    · refine ⟨key, ?_, hsig⟩
      rw [← h.size_eq, getD_push_self]
      exact hkey
  known := h.known
  inj := h.inj

private theorem Numbered.push_new {n : Nat} {numbers : Std.TreeMap (List Int) Nat}
    {next : Array Nat} (h : Numbered s a block n (numbers, next)) {key : List Int}
    (hkey : numbers[key]? = none) (hsig : IsSignature s a block n key) :
    Numbered s a block (n + 1) (numbers.insert key numbers.size, next.push numbers.size) := by
  have hsize : (numbers.insert key numbers.size).size = numbers.size + 1 := by
    rw [Std.TreeMap.size_insert, if_neg]
    rw [Std.TreeMap.contains_iff_mem, Std.TreeMap.mem_iff_isSome_getElem?, hkey]
    simp
  have hget : ∀ key', (numbers.insert key numbers.size)[key']? =
      if key = key' then some numbers.size else numbers[key']? := by
    intro key'
    rw [Std.TreeMap.getElem?_insert]
    simp
  refine ⟨by simpa using h.size_eq, fun q hq => ?_, fun c hc => ?_, fun q hq => ?_,
    fun key' b hb => ?_, fun key₁ key₂ b h₁ h₂ => ?_⟩
  · rw [hsize]
    rcases Nat.lt_succ_iff_lt_or_eq.1 hq with hq | rfl
    · rw [getD_push_of_lt (h.size_eq ▸ hq)]
      exact Nat.lt_succ_of_lt (h.lt q hq)
    · rw [← h.size_eq, getD_push_self]
      omega
  · rw [hsize] at hc
    rcases Nat.lt_succ_iff_lt_or_eq.1 hc with hc | rfl
    · obtain ⟨q, hq, hb⟩ := h.met c hc
      exact ⟨q, by omega, by rwa [getD_push_of_lt (h.size_eq ▸ hq)]⟩
    · exact ⟨n, by omega, by rw [← h.size_eq, getD_push_self]⟩
  · rcases Nat.lt_succ_iff_lt_or_eq.1 hq with hq | rfl
    · obtain ⟨key', hkey', hsig'⟩ := h.signature q hq
      refine ⟨key', ?_, hsig'⟩
      rw [getD_push_of_lt (h.size_eq ▸ hq), hget, if_neg, hkey']
      rintro rfl
      rw [hkey] at hkey'
      cases hkey'
    · refine ⟨key, ?_, hsig⟩
      rw [← h.size_eq, getD_push_self, hget, if_pos rfl]
  · rw [hsize]
    rw [hget] at hb
    split at hb
    · cases hb
      omega
    · have : b < numbers.size := h.known key' b hb
      omega
  · rw [hget] at h₁ h₂
    split at h₁ <;> split at h₂
    · simp_all
    · cases h₁
      exact absurd (h.known key₂ _ h₂) (lt_irrefl _)
    · cases h₂
      exact absurd (h.known key₁ _ h₁) (lt_irrefl _)
    · exact h.inj key₁ key₂ b h₁ h₂

structure Refines (s : Diagram.Store) (a : Automaton) (block : Array Nat) (r : Array Nat × Nat) :
    Prop where
  size_eq : r.1.size = a.size
  lt : ∀ q < a.size, r.1.getD q 0 < r.2
  met : ∀ b < r.2, ∃ q < a.size, r.1.getD q 0 = b
  alike : ∀ q q', q < a.size → q' < a.size → r.1.getD q 0 = r.1.getD q' 0 → Alike s a block q q'
  joined : ∀ q q', q < a.size → q' < a.size → Alike s a block q q' → r.1.getD q 0 = r.1.getD q' 0

theorem returns_refine (hs : s.Sound) (h : a.Recognizes s V L) :
    Returns (a.refine block) s fun r t => Refines t a block r := by
  unfold refine
  refine Returns.bind (P := fun r t => Numbered t a block a.size r) ?_ ?_
  · refine Returns.mono (P := fun r t => s ≤ t ∧
      Numbered t a block a.states.toList.zipIdx.length r) ?_ fun r t _ hr => by
        simpa [size] using hr.2
    refine Returns.foldlM (fun done r t => s ≤ t ∧ Numbered t a block done.length r) ?_ ?_
    · exact ⟨le_rfl, rfl, by simp, by simp, by simp, by simp, by simp⟩
    · rintro done ⟨st, q⟩ rest hl ⟨numbers, next⟩ t ⟨hst, hnum⟩
      have hget : a.states.toList.zipIdx[done.length]? = some (st, q) := by rw [hl]; simp
      obtain ⟨hq, hst'⟩ : q = done.length ∧ a.states[q]? = some st := by
        rw [List.getElem?_zipIdx] at hget
        simp only [Option.map_eq_some_iff, Prod.mk.injEq] at hget
        obtain ⟨x, hx, rfl, rfl⟩ := hget
        simpa using hx
      subst hq
      have ht := hs.mono hst
      dsimp only
      refine (returns_signature ht (h.mono_store hs hst) hst').bind fun key u htu hkey => ?_
      have hnum := hnum.mono ht htu (h.formed.mono_store hst)
      rw [List.length_append, List.length_singleton]
      cases hfound : numbers[key]? with
      | some b => exact .pure ⟨le_trans hst htu, hnum.push_old hfound hkey⟩
      | none => exact .pure ⟨le_trans hst htu, hnum.push_new hfound hkey⟩
  · rintro ⟨numbers, next⟩ t hst hnum
    refine .pure ⟨hnum.size_eq, hnum.lt, hnum.met, fun q q' hq hq' heq => ?_,
      fun q q' hq hq' halike => ?_⟩
    all_goals
      obtain ⟨key, hkey, hsig⟩ := hnum.signature q hq
      obtain ⟨key', hkey', hsig'⟩ := hnum.signature q' hq'
      dsimp only at hkey hkey' ⊢
    · dsimp only at heq
      rw [← heq] at hkey'
      obtain rfl := hnum.inj key key' _ hkey hkey'
      exact hsig.alike hsig'
    · obtain rfl := halike.signature_eq (hs.mono hst) hsig hsig'
      exact Option.some.inj (hkey.symm.trans hkey')

theorem nodup_eraseDups : ∀ l : List Nat, l.eraseDups.Nodup
  | [] => by simp
  | n :: l => by
    rw [List.eraseDups_cons, List.nodup_cons]
    exact ⟨by simp [List.mem_eraseDups], nodup_eraseDups _⟩
  termination_by l => l.length
  decreasing_by
    have := List.length_filter_le (fun m => !m == n) l
    simp only [List.length_cons]
    omega

theorem blocks_initial (a : Automaton) : Blocks a a.initialBlocks.1 a.initialBlocks.2 := by
  have hget : ∀ q, q < a.size → ∃ st, a.states[q]? = some st ∧
      (a.states.map (·.accepting.toNat)).getD q 0 = st.accepting.toNat := by
    intro q hq
    refine ⟨a.states[q], Array.getElem?_eq_getElem hq, ?_⟩
    simp only [size] at hq
    simp [Array.getD_eq_getD_getElem?, hq]
  refine ⟨by simp [initialBlocks, size], ?_, fun q q' hq hq' heq => ?_⟩
  · simp only [initialBlocks]
    rw [← List.toFinset_card_of_nodup (nodup_eraseDups _)]
    congr 1
    ext b
    simp only [Finset.mem_image, Finset.mem_range, List.mem_toFinset, List.mem_eraseDups,
      Array.mem_toList_iff, Array.mem_map]
    constructor
    · rintro ⟨q, hq, rfl⟩
      obtain ⟨st, hst, hb⟩ := hget q hq
      exact ⟨st, Array.mem_of_getElem? hst, hb.symm⟩
    · rintro ⟨st, hst, rfl⟩
      obtain ⟨q, hq⟩ := Array.mem_iff_getElem?.1 hst
      have hlt : q < a.size := (Array.getElem?_eq_some_iff.1 hq).1
      obtain ⟨st', hst', hb⟩ := hget q hlt
      rw [hq] at hst'
      cases hst'
      exact ⟨q, hlt, hb⟩
  · obtain ⟨st, hst, hb⟩ := hget q hq
    obtain ⟨st', hst', hb'⟩ := hget q' hq'
    simp only [initialBlocks] at heq
    rw [hb, hb'] at heq
    rw [accepting_iff hst, accepting_iff hst']
    cases h : st.accepting <;> cases h' : st'.accepting <;> simp_all

theorem Blocks.refined (h : Blocks a block count) {r : Array Nat × Nat}
    (hr : Refines s a block r) : Blocks a r.1 r.2 ∧ count ≤ r.2 ∧
      (r.2 = count → ∀ q q', q < a.size → q' < a.size →
        (r.1.getD q 0 = r.1.getD q' 0 ↔ block.getD q 0 = block.getD q' 0)) := by
  obtain ⟨next, count'⟩ := r
  have hcard : ((Finset.range a.size).image fun q => next.getD q 0).card = count' := by
    rw [← Finset.card_range count']
    congr 1
    ext b
    simp only [Finset.mem_image, Finset.mem_range]
    constructor
    · rintro ⟨q, hq, rfl⟩
      exact hr.lt q hq
    · exact hr.met b
  -- Each new block lies in one old block, so the pairs of both are as many as the new blocks.
  let pairs := (Finset.range a.size).image fun q => (next.getD q 0, block.getD q 0)
  have hfst : pairs.image Prod.fst = (Finset.range a.size).image fun q => next.getD q 0 := by
    rw [Finset.image_image]
    rfl
  have hsnd : pairs.image Prod.snd = (Finset.range a.size).image fun q => block.getD q 0 := by
    rw [Finset.image_image]
    rfl
  have hinj : Set.InjOn Prod.fst (pairs : Set (Nat × Nat)) := by
    rintro ⟨n, b⟩ h₁ ⟨n', b'⟩ h₂ (rfl : n = n')
    simp only [pairs, Finset.coe_image, Set.mem_image, Finset.coe_range, Set.mem_Iio,
      Prod.mk.injEq] at h₁ h₂
    obtain ⟨q, hq, hn, rfl⟩ := h₁
    obtain ⟨q', hq', hn', rfl⟩ := h₂
    rw [(hr.alike q q' hq hq' (hn.trans hn'.symm)).1]
  have hpairs : pairs.card = count' := by
    rw [← Finset.card_image_of_injOn hinj, hfst, hcard]
  refine ⟨⟨hr.size_eq, hcard, fun q q' hq hq' heq => ?_⟩, ?_, fun hcount q q' hq hq' => ?_⟩
  · exact h.accepting q q' hq hq' (hr.alike q q' hq hq' heq).1
  · have hle : (pairs.image Prod.snd).card ≤ pairs.card := Finset.card_image_le
    rwa [hsnd, h.card_eq, hpairs] at hle
  · refine ⟨fun heq => (hr.alike q q' hq hq' heq).1, fun heq => ?_⟩
    dsimp only at hcount
    have hinj' : Set.InjOn Prod.snd (pairs : Set (Nat × Nat)) := by
      rw [← Finset.card_image_iff, hsnd, h.card_eq, hpairs, hcount]
    have hmem : ∀ q, q < a.size → (next.getD q 0, block.getD q 0) ∈ (pairs : Set (Nat × Nat)) :=
      fun q hq => Finset.mem_coe.2 (Finset.mem_image_of_mem _ (Finset.mem_range.2 hq))
    exact congrArg Prod.fst (hinj' (hmem q hq) (hmem q' hq') heq)

/-- Blocks that no signature splits, numbered from 0 on. -/
structure Stable (s : Diagram.Store) (a : Automaton) (block : Array Nat) (count : Nat) : Prop where
  lt : ∀ q < a.size, block.getD q 0 < count
  met : ∀ b < count, ∃ q < a.size, block.getD q 0 = b
  alike : ∀ q q', q < a.size → q' < a.size → block.getD q 0 = block.getD q' 0 →
    Alike s a block q q'

theorem Stable.mono (h : Stable s a block count) (hs : s.Sound) (hst : s ≤ t)
    (hformed : a.Formed s) : Stable t a block count :=
  { h with
    alike := fun q q' hq hq' heq => ⟨heq, fun l b => by
      rw [into_mono hs hst hformed, into_mono hs hst hformed]
      exact (h.alike q q' hq hq' heq).2 l b⟩ }

theorem Refines.stable (h : Blocks a block count) (hformed : a.Formed s) {r : Array Nat × Nat}
    (hr : Refines s a block r) (hcount : r.2 = count) : Stable s a r.1 r.2 := by
  have hsame := (h.refined hr).2.2 hcount
  have hinto : ∀ q q', q < a.size → Alike s a block q q' → ∀ l b, Into s a r.1 q l b →
      Into s a r.1 q' l b := by
    rintro q q' hq halike l b ⟨p, hp, rfl⟩
    obtain ⟨p', hp', heq⟩ := (halike.2 l _).1 ⟨p, hp, rfl⟩
    exact ⟨p', hp', (hsame p' p (hp'.lt hformed) (hp.lt hformed)).2 heq⟩
  refine ⟨hr.lt, hr.met, fun q q' hq hq' heq => ⟨heq, fun l b => ?_⟩⟩
  have halike := hr.alike q q' hq hq' heq
  exact ⟨hinto q q' hq halike l b,
    hinto q' q hq' ⟨halike.1.symm, fun l b => (halike.2 l b).symm⟩ l b⟩

/-- Related states accept or reject alike, and their steps lead to related states. -/
structure Bisimulation (s : Diagram.Store) (a : Automaton) (R : Nat → Nat → Prop) : Prop where
  symm : ∀ q q', R q q' → R q' q
  accepting : ∀ q q', R q q' → a.Accepting q → a.Accepting q'
  step : ∀ q q' l r, R q q' → Step s a q l r → ∃ r', Step s a q' l r' ∧ R r r'

def Joins (a : Automaton) (block : Array Nat) (R : Nat → Nat → Prop) : Prop :=
  ∀ q q', q < a.size → q' < a.size → R q q' → block.getD q 0 = block.getD q' 0

theorem Bisimulation.mono_store (hs : s.Sound) (hst : s ≤ t) (h : a.Formed s)
    {R : Nat → Nat → Prop} (hR : Bisimulation s a R) : Bisimulation t a R where
  symm := hR.symm
  accepting := hR.accepting
  step q q' l r hq hr := by
    simp only [step_mono hs hst h] at hr ⊢
    exact hR.step q q' l r hq hr

theorem Bisimulation.of_mono_store (hs : s.Sound) (hst : s ≤ t) (h : a.Formed s)
    {R : Nat → Nat → Prop} (hR : Bisimulation t a R) : Bisimulation s a R where
  symm := hR.symm
  accepting := hR.accepting
  step q q' l r hq hr := by
    simp only [← step_mono hs hst h] at hr ⊢
    exact hR.step q q' l r hq hr

theorem Bisimulation.joins_initial {R : Nat → Nat → Prop} (hR : Bisimulation s a R) :
    Joins a a.initialBlocks.1 R := by
  intro q q' hq hq' hqq'
  have hst : a.states[q]? = some a.states[q] := Array.getElem?_eq_getElem hq
  have hst' : a.states[q']? = some a.states[q'] := Array.getElem?_eq_getElem hq'
  have hiff : a.Accepting q ↔ a.Accepting q' :=
    ⟨hR.accepting q q' hqq', hR.accepting q' q (hR.symm q q' hqq')⟩
  rw [accepting_iff hst, accepting_iff hst', Bool.eq_iff_iff.symm] at hiff
  simp [initialBlocks, Array.getD_eq_getD_getElem?, hst, hst', hiff]

theorem Refines.joins (h : a.Formed s) {r : Array Nat × Nat} (hr : Refines s a block r)
    {R : Nat → Nat → Prop} (hR : Bisimulation s a R) (hblock : Joins a block R) :
    Joins a r.1 R := by
  have hinto : ∀ q q' l b, R q q' → Into s a block q l b → Into s a block q' l b := by
    rintro q q' l _ hqq' ⟨p, hp, rfl⟩
    obtain ⟨p', hp', hpp'⟩ := hR.step q q' l p hqq' hp
    exact ⟨p', hp', hblock p' p (hp'.lt h) (hp.lt h) (hR.symm p p' hpp')⟩
  exact fun q q' hq hq' hqq' => hr.joined q q' hq hq' ⟨hblock q q' hq hq' hqq', fun l b =>
    ⟨hinto q q' l b hqq', hinto q' q l b (hR.symm q q' hqq')⟩⟩

theorem returns_refineUntilStable (hs : s.Sound) (h : a.Recognizes s V L) (rounds : Nat)
    (hblocks : Blocks a block count) (hrounds : a.size < rounds + count) :
    Returns (a.refineUntilStable rounds (block, count)) s fun r t =>
      Blocks a r.1 r.2 ∧ Stable t a r.1 r.2 ∧
        ∀ R, Bisimulation s a R → Joins a block R → Joins a r.1 R := by
  induction rounds generalizing s block count with
  | zero =>
    have hle := Finset.card_image_le (s := Finset.range a.size) (f := fun q => block.getD q 0)
    rw [hblocks.card_eq, Finset.card_range] at hle
    omega
  | succ rounds ih =>
    rw [refineUntilStable]
    refine (returns_refine hs h).bind fun r t hst hr => ?_
    obtain ⟨next, count'⟩ := r
    have h' := h.mono_store hs hst
    obtain ⟨hnext, hle, -⟩ := hblocks.refined hr
    have hjoins : ∀ R, Bisimulation s a R → Joins a block R → Joins a next R := fun R hR =>
      hr.joins h'.formed (hR.mono_store hs hst h.formed)
    dsimp only at hnext hle ⊢
    by_cases hcount : count' = count
    · rw [if_pos hcount]
      exact .pure ⟨hnext, hr.stable hblocks h'.formed hcount, hjoins⟩
    · rw [if_neg hcount]
      refine (ih (hs.mono hst) h' hnext (by omega)).mono
        fun r u _ ⟨hblocks', hstable, hjoins'⟩ => ⟨hblocks', hstable, fun R hR hblock => ?_⟩
      exact hjoins' R (hR.mono_store hs hst h.formed) (hjoins R hR hblock)

/-- An automaton whose states are blocks that are closed under moves, each with the moves of one
of its members. -/
private structure IsQuotient (s : Diagram.Store) (V : Set Nat) (a : Automaton)
    (block : Array Nat) (leader : Nat → Nat) (order : List Nat) (c : Automaton) : Prop where
  props_eq : c.props = a.props
  size_eq : c.size = order.length
  simple : c.Simple
  labels : ∀ i m, c.HasMove i m → IsLabel s V m.label
  accepting : ∀ i b : Nat, order[i]? = some b → (c.Accepting i ↔ a.Accepting (leader b))
  step : ∀ i b : Nat, order[i]? = some b → ∀ l j, Step s c i l j ↔
    ∃ b', order[j]? = some b' ∧ Into s a block (leader b) l b'

/-- A quotient by stable blocks, of which those that can be reached are listed. -/
private structure IsMinimized (s : Diagram.Store) (V : Set Nat) (a : Automaton) (block : Array Nat)
    (count : Nat) (leader : Nat → Nat) (order : List Nat) (c : Automaton) : Prop where
  quotient : IsQuotient s V a block leader order c
  blocks : Blocks a block count
  stable : Stable s a block count
  joins : ∀ R, Bisimulation s a R → Joins a block R
  nodup : order.Nodup
  first : order[0]? = some (block.getD 0 0)
  leads : ∀ b ∈ order, leader b < a.size ∧ block.getD (leader b) 0 = b
  closed : ∀ b ∈ order, ∀ l b', Into s a block (leader b) l b' → b' ∈ order

section

variable {leader : Nat → Nat} {order : List Nat} {c : Automaton}
  (hc : IsMinimized s V a block count leader order c)

include hc

private theorem IsMinimized.exists_block {i : Nat} (hi : i < c.size) :
    ∃ b ∈ order, order[i]? = some b :=
  have hi : i < order.length := hc.quotient.size_eq ▸ hi
  ⟨_, List.getElem_mem hi, List.getElem?_eq_getElem hi⟩

private theorem IsMinimized.index_unique {i j : Nat} {b : Nat} (hi : order[i]? = some b)
    (hj : order[j]? = some b) : i = j :=
  (List.getElem?_inj (List.getElem?_eq_some_iff.1 hi).1 hc.nodup).1 (hi.trans hj.symm)

private theorem IsMinimized.alike_leader {i q : Nat} (hq : q < a.size)
    (hi : order[i]? = some (block.getD q 0)) :
    Alike s a block q (leader (block.getD q 0)) ∧
      (a.Accepting q ↔ a.Accepting (leader (block.getD q 0))) := by
  obtain ⟨hlt, heq⟩ := hc.leads _ (List.mem_of_getElem? hi)
  exact ⟨hc.stable.alike q _ hq hlt heq.symm, hc.blocks.accepting q _ hq hlt heq.symm⟩

private theorem IsMinimized.exists_step (h : a.Formed s) {i q r : Nat} {l : Assignment}
    (hq : q < a.size) (hi : order[i]? = some (block.getD q 0)) (hr : Step s a q l r) :
    ∃ j, Step s c i l j ∧ r < a.size ∧ order[j]? = some (block.getD r 0) := by
  have hinto := ((hc.alike_leader hq hi).1.2 l _).1 ⟨r, hr, rfl⟩
  obtain ⟨j, hj⟩ := List.mem_iff_getElem?.1 (hc.closed _ (List.mem_of_getElem? hi) l _ hinto)
  exact ⟨j, (hc.quotient.step i _ hi l j).2 ⟨_, hj, hinto⟩, hr.lt h, hj⟩

private theorem IsMinimized.acceptsFrom_iff (h : a.Formed s) {i q : Nat} (hq : q < a.size)
    (hi : order[i]? = some (block.getD q 0)) (w : Word) :
    AcceptsFrom s c i w ↔ AcceptsFrom s a q w := by
  constructor
  · refine acceptsFrom_of_simulation
      (fun i q : Nat => q < a.size ∧ order[i]? = some (block.getD q 0)) ?_ ?_ w i q ⟨hq, hi⟩
    · rintro i q ⟨hq, hi⟩ hacc
      exact (hc.alike_leader hq hi).2.2 ((hc.quotient.accepting i _ hi).1 hacc)
    · rintro i q l j w ⟨hq, hi⟩ hj -
      obtain ⟨b', hb', hinto⟩ := (hc.quotient.step i _ hi l j).1 hj
      obtain ⟨r, hr, rfl⟩ := ((hc.alike_leader hq hi).1.2 l b').2 hinto
      exact ⟨r, hr, hr.lt h, hb'⟩
  · refine acceptsFrom_of_simulation
      (fun q i : Nat => q < a.size ∧ order[i]? = some (block.getD q 0)) ?_ ?_ w q i ⟨hq, hi⟩
    · rintro q i ⟨hq, hi⟩ hacc
      exact (hc.quotient.accepting i _ hi).2 ((hc.alike_leader hq hi).2.1 hacc)
    · rintro q i l r w ⟨hq, hi⟩ hr -
      exact hc.exists_step h hq hi hr

private theorem IsMinimized.recognizes (hs : s.Sound) (h : a.Recognizes s V L) :
    c.Recognizes s V L := by
  have hlabels := hc.quotient.labels
  refine ⟨⟨?_, ?_, fun i m hm => (hlabels i m hm).valid, fun i m hm => (hlabels i m hm).ne_zero⟩,
    ?_, ⟨fun i m hm => (hlabels i m hm).depends, hc.quotient.props_eq ▸ h.reads.props⟩,
    fun w => (hc.acceptsFrom_iff h.formed h.formed.nonempty hc.first w).trans (h.accepts w)⟩
  · rw [hc.quotient.size_eq]
    exact (List.getElem?_eq_some_iff.1 hc.first).1
  · intro i m hm
    obtain ⟨b, -, hi⟩ := hc.exists_block hm.lt
    obtain ⟨l, hl⟩ := (hlabels i m hm).exists_value hs
    obtain ⟨b', hb', -⟩ := (hc.quotient.step i b hi l m.target).1 ⟨m, hm, hl, rfl⟩
    rw [hc.quotient.size_eq]
    exact (List.getElem?_eq_some_iff.1 hb').1
  · intro i l j j' hj hj'
    obtain ⟨b, -, hi⟩ := hc.exists_block (by obtain ⟨m, hm, -⟩ := hj; exact hm.lt)
    obtain ⟨b', hb', r, hr, rfl⟩ := (hc.quotient.step i b hi l j).1 hj
    obtain ⟨b'', hb'', r', hr', rfl⟩ := (hc.quotient.step i b hi l j').1 hj'
    obtain rfl := h.deterministic _ _ _ _ hr hr'
    exact hc.index_unique hb' hb''

private theorem IsMinimized.reaches (h : a.Formed s) {w : Word} : ∀ {i q r : Nat}, q < a.size →
    order[i]? = some (block.getD q 0) → Reaches s a q w r →
      ∃ j, Reaches s c i w j ∧ order[j]? = some (block.getD r 0) := by
  induction w with
  | nil =>
    rintro i q _ - hi rfl
    exact ⟨i, rfl, hi⟩
  | cons l w ih =>
    rintro i q r hq hi ⟨p, hp, hr⟩
    obtain ⟨j, hj, hlt, hjp⟩ := hc.exists_step h hq hi hp
    obtain ⟨k, hk, hkr⟩ := ih hlt hjp hr
    exact ⟨k, ⟨j, hj, hk⟩, hkr⟩

private theorem IsMinimized.isTrim (hs : s.Sound) (h : a.Formed s) (ha : a.IsTrim s) :
    c.IsTrim s := by
  have hleader : ∀ {i b : Nat}, order[i]? = some b → leader b < a.size ∧
      order[i]? = some (block.getD (leader b) 0) := by
    intro i b hi
    obtain ⟨hlt, heq⟩ := hc.leads b (List.mem_of_getElem? hi)
    exact ⟨hlt, heq.symm ▸ hi⟩
  refine ⟨fun i hi => ?_, ha.productive.imp (fun hproductive i hi => ?_) fun ⟨hsize, hmoves⟩ => ?_⟩
  · obtain ⟨b, -, hb⟩ := hc.exists_block hi
    obtain ⟨hlt, hb'⟩ := hleader hb
    obtain ⟨w, hw⟩ := ha.reachable _ hlt
    obtain ⟨j, hj, hjb⟩ := hc.reaches h h.nonempty hc.first hw
    obtain rfl := hc.index_unique hb' hjb
    exact ⟨w, hj⟩
  · obtain ⟨b, -, hb⟩ := hc.exists_block hi
    obtain ⟨hlt, hb'⟩ := hleader hb
    obtain ⟨w, hw⟩ := hproductive _ hlt
    exact ⟨w, (hc.acceptsFrom_iff h hlt hb' w).2 hw⟩
  · have honly : ∀ {i : Nat}, i < c.size → i = 0 := by
      intro i hi
      obtain ⟨b, -, hb⟩ := hc.exists_block hi
      obtain ⟨hlt, hb'⟩ := hleader hb
      obtain hzero : leader b = 0 := by omega
      rw [hzero] at hb'
      exact hc.index_unique hb' hc.first
    have hpos : 0 < c.size := by
      rw [hc.quotient.size_eq]
      exact (List.getElem?_eq_some_iff.1 hc.first).1
    refine ⟨?_, fun i m hm => ?_⟩
    · by_contra hne
      have := honly (i := 1) (by omega)
      omega
    · obtain ⟨b, -, hb⟩ := hc.exists_block hm.lt
      obtain ⟨l, hl⟩ := (hc.quotient.labels i m hm).exists_value hs
      obtain ⟨b', -, r, ⟨m', hm', -⟩, -⟩ := (hc.quotient.step i b hb l m.target).1 ⟨m, hm, hl, rfl⟩
      exact hmoves _ m' hm'

end

def Separated (s : Diagram.Store) (a : Automaton) : Prop :=
  ∀ p q, p < a.size → q < a.size → (∀ w, AcceptsFrom s a p w ↔ AcceptsFrom s a q w) → p = q

theorem bisimulation_of_isTrim (h : a.Formed s) (hdeterministic : a.Deterministic s)
    (htrim : a.IsTrim s) :
    Bisimulation s a fun q q' => ∀ w, AcceptsFrom s a q w ↔ AcceptsFrom s a q' w where
  symm _ _ hqq' w := (hqq' w).symm
  accepting _ _ hqq' hq := (hqq' []).1 hq
  step q q' l r hqq' hr := by
    have honly : ∀ {q r}, Step s a q l r → ∀ w, AcceptsFrom s a q (l :: w) ↔ AcceptsFrom s a r w :=
      fun {q r} hr w => ⟨fun ⟨r', hr', hw⟩ => hdeterministic q l r' r hr' hr ▸ hw,
        fun hw => ⟨r, hr, hw⟩⟩
    obtain ⟨w, hw⟩ : ∃ w, AcceptsFrom s a r w := by
      obtain hproductive | ⟨-, hmoves⟩ := htrim.productive
      · exact hproductive r (hr.lt h)
      · obtain ⟨m, hm, -⟩ := hr
        exact absurd hm (hmoves q m)
    obtain ⟨r', hr', -⟩ := (hqq' (l :: w)).1 ⟨r, hr, hw⟩
    exact ⟨r', hr', fun v => (honly hr v).symm.trans ((hqq' (l :: v)).trans (honly hr' v))⟩

private theorem IsMinimized.separated {leader : Nat → Nat} {order : List Nat} {c : Automaton}
    (hc : IsMinimized s V a block count leader order c) (h : a.Recognizes s V L)
    (ha : a.IsTrim s) : c.Separated s := by
  intro i j hi hj hij
  obtain ⟨b, hbmem, hb⟩ := hc.exists_block hi
  obtain ⟨b', hbmem', hb'⟩ := hc.exists_block hj
  obtain ⟨hlt, heq⟩ := hc.leads b hbmem
  obtain ⟨hlt', heq'⟩ := hc.leads b' hbmem'
  have hjoined := hc.joins _ (bisimulation_of_isTrim h.formed h.deterministic ha) _ _ hlt hlt'
    fun w => by
      rw [← hc.acceptsFrom_iff h.formed hlt (heq.symm ▸ hb),
        ← hc.acceptsFrom_iff h.formed hlt' (heq'.symm ▸ hb'), hij w]
  rw [heq, heq'] at hjoined
  exact hc.index_unique hb (hjoined ▸ hb')

private theorem leader_mem (count : Nat) (l : List (Nat × Nat)) {b : Nat} (hb : b < count)
    (hl : ∃ q, (b, q) ∈ l) :
    ∃ q, (b, q) ∈ l ∧ (l.foldr (fun (b, q) x => x.setIfInBounds b q)
      (Array.replicate count 0)).getD b 0 = q := by
  have hsize : ∀ l : List (Nat × Nat), (l.foldr (fun (b, q) x => x.setIfInBounds b q)
      (Array.replicate count 0)).size = count := by
    intro l
    induction l with
    | nil => simp
    | cons head l ih => simpa using ih
  induction l with
  | nil => simp at hl
  | cons head l ih =>
    obtain ⟨b', q'⟩ := head
    rw [List.foldr_cons, Array.getD_eq_getD_getElem?, Array.getElem?_setIfInBounds, hsize]
    by_cases hbb : b' = b
    · subst hbb
      exact ⟨q', by simp, by simp [hb]⟩
    · rw [if_neg hbb, ← Array.getD_eq_getD_getElem?]
      obtain ⟨q, hq⟩ := hl
      have hq : (b, q) ∈ l := by
        rcases List.mem_cons.1 hq with h | h
        · cases h
          exact absurd rfl hbb
        · exact h
      obtain ⟨q, hq, heq⟩ := ih ⟨q, hq⟩
      exact ⟨q, List.mem_cons_of_mem _ hq, heq⟩

private def leaders (block : Array Nat) (count : Nat) : Array Nat :=
  block.toList.zipIdx.foldr (fun (b, q) l => l.setIfInBounds b q) (Array.replicate count 0)

private theorem leaders_spec (hblocks : Blocks a block count) (hstable : Stable s a block count)
    {b : Nat} (hb : b < count) : (leaders block count).getD b 0 < a.size ∧
      block.getD ((leaders block count).getD b 0) 0 = b := by
  obtain ⟨q, hq, hqb⟩ := hstable.met b hb
  have hget : block[q]? = some b := by
    rw [← hblocks.size_eq] at hq
    rw [Array.getD_eq_getD_getElem?, Array.getElem?_eq_getElem hq] at hqb
    rw [Array.getElem?_eq_getElem hq, ← hqb]
    rfl
  obtain ⟨q', hq', heq⟩ := leader_mem count block.toList.zipIdx hb
    ⟨q, List.mem_zipIdx_iff_getElem?.2 (by simpa using hget)⟩
  have hget' : block[q']? = some b := by simpa using List.mem_zipIdx_iff_getElem?.1 hq'
  rw [leaders, heq, ← hblocks.size_eq, Array.getD_eq_getD_getElem?, hget']
  exact ⟨(Array.getElem?_eq_some_iff.1 hget').1, rfl⟩

/-- A state that does what `q` does, between blocks that are numbered as they are listed. -/
private structure Represents (s : Diagram.Store) (V : Set Nat) (a : Automaton) (block : Array Nat)
    (order : List Nat) (q : Nat) (st : State) (t : Diagram.Store) : Prop where
  accepting : st.accepting = true ↔ a.Accepting q
  single : (st.moves.map (·.target)).Nodup
  labels : ∀ m ∈ st.moves, IsLabel t V m.label
  takes : ∀ l j, Takes t st.moves l j ↔ ∃ b, order[j]? = some b ∧ Into s a block q l b

private theorem Represents.mono {u : Diagram.Store} {order : List Nat} {q : Nat} {st : State}
    (h : Represents s V a block order q st t) (ht : t.Sound) (htu : t ≤ u) :
    Represents s V a block order q st u where
  accepting := h.accepting
  single := h.single
  labels m hm := (h.labels m hm).mono_store ht htu
  takes l j := by rw [takes_mono ht htu h.labels, h.takes]

private theorem returns_represents (number : Nat → Nat) (hs : s.Sound) (hst : s ≤ t)
    (h : a.Recognizes s V L) {order : List Nat} {q : Nat} {st : State}
    (hq : a.states[q]? = some st) (hin : ∀ m ∈ st.moves, block.getD m.target 0 ∈ order)
    (hnumber : ∀ r i : Nat, order[i]? = some (block.getD r 0) → number r = i)
    {add : List Move → Move → Diagram.M (List Move)}
    (hadd : ∀ m ∈ st.moves, ∀ ms, add ms m = merge ms ⟨number m.target, m.label⟩) :
    Returns (do return { st with moves := ← st.moves.foldlM add [] }) t fun st' u =>
      Represents s V a block order q st' u := by
  have ht := hs.mono hst
  have hlabel : ∀ m ∈ st.moves, IsLabel s V m.label := fun m hm => h.isLabel ((hasMove_iff hq).2 hm)
  refine (returns_mergeAll (V := V) (fun m => number m.target)
    (fun m => s.value m.label) ?_).bind ?_
  · intro m hm u htu ms hms hnodup
    have hm' := (hlabel m hm).mono_store hs (le_trans hst htu)
    rw [hadd m hm]
    refine (returns_merge (m := ⟨number m.target, m.label⟩) (ht.mono htu) hms hm'.valid
      hm'.depends hnodup).mono fun ms' v _ hms' => ?_
    rwa [hs.value_mono (le_trans hst htu) (hlabel m hm).valid] at hms'
  · rintro ms u htu ⟨⟨hlabels, htakes⟩, hnodup⟩
    refine .pure ⟨(accepting_iff hq).symm, hnodup, hlabels, fun l j => ?_⟩
    rw [htakes]
    constructor
    · rintro ⟨m, hm, hl, rfl⟩
      obtain ⟨i, hi⟩ := List.mem_iff_getElem?.1 (hin m hm)
      refine ⟨_, ?_, m.target, ⟨m, (hasMove_iff hq).2 hm, hl, rfl⟩, rfl⟩
      rw [hnumber m.target i hi, hi]
    · rintro ⟨_, hj, r, ⟨m, hm, hl, rfl⟩, rfl⟩
      exact ⟨m, (hasMove_iff hq).1 hm, hl, hnumber m.target j hj⟩

private theorem isQuotient_of_represents (hs : s.Sound) (hst : s ≤ t) (h : a.Formed s)
    {leader : Nat → Nat} {order : List Nat} {states : List State}
    (hmade : List.Forall₂ (fun b st => Represents s V a block order (leader b) st t) order states) :
    IsQuotient t V a block leader order ⟨states.toArray, a.props⟩ := by
  have hget : ∀ {i b : Nat}, order[i]? = some b → ∃ st, states.toArray[i]? = some st ∧
      Represents s V a block order (leader b) st t := by
    intro i b hi
    obtain ⟨st, hst, hr⟩ := forall₂_getElem? hmade hi
    exact ⟨st, by simpa using hst, hr⟩
  refine ⟨rfl, ?_, ?_, ?_, ?_, ?_⟩
  · simpa [size] using hmade.length_eq.symm
  · intro i st hst
    obtain ⟨b, -, hr⟩ := exists_mem_of_forall₂ hmade.flip
      (List.mem_of_getElem? (by simpa using hst : states[i]? = some st))
    exact hr.single
  · rintro i m hm
    have hi : i < order.length := by
      have := hm.lt
      simpa [size, hmade.length_eq] using this
    obtain ⟨st, hst', hr⟩ := hget (List.getElem?_eq_getElem hi)
    exact hr.labels m ((hasMove_iff hst').1 hm)
  · intro i b hi
    obtain ⟨st, hst', hr⟩ := hget hi
    rw [accepting_iff hst', hr.accepting]
  · intro i b hi l j
    obtain ⟨st, hst', hr⟩ := hget hi
    simp only [into_mono hs hst h]
    rw [← hr.takes l j]
    exact step_iff_takes (a := ⟨states.toArray, a.props⟩) hst'

private theorem returns_isMinimized (hs : s.Sound) (h : a.Recognizes s V L) :
    Returns a.minimize s fun c t => ∃ block count leader order,
      IsMinimized t V a block count leader order c := by
  unfold minimize
  refine Returns.bind (P := fun _ _ => True)
    (Returns.liftExcept ((answers_requireClosed h.formed).mono fun _ _ => trivial)) ?_
  rintro _ s₁ hst -
  replace h := h.mono_store hs hst
  replace hs := hs.mono hst
  clear hst
  refine (returns_refineUntilStable hs h _ (blocks_initial a) (by omega)).bind ?_
  rintro ⟨block, count⟩ s₂ hst ⟨hblocks, hstable, hjoins⟩
  replace hjoins : ∀ R, Bisimulation s₁ a R → Joins a block R := fun R hR =>
    hjoins R hR hR.joins_initial
  have h₁ := h
  have hs₁ := hs
  replace h := h.mono_store hs hst
  replace hs := hs.mono hst
  have hleader : ∀ b < count, _ := fun b hb => leaders_spec hblocks hstable hb
  have hstate : ∀ b < count, a.states[(leaders block count).getD b 0]? =
      some (a.states.getD ((leaders block count).getD b 0) default) := by
    intro b hb
    have hlt := (hleader b hb).1
    generalize (leaders block count).getD b 0 = q at hlt
    rw [Array.getD_eq_getD_getElem?, Array.getElem?_eq_getElem hlt]
    rfl
  have hlt := hstable.lt 0 h.formed.nonempty
  refine Returns.bind (P := fun r _ => Search.Met count (· < count) r.1 ∧
    r.1.order[0]? = some (block.getD 0 0) ∧ Search.Ended _ _ r.1 r.2)
    (Returns.liftExcept (Search.answers_run (fun _ hb => hb) hlt (fun b hb => .ok fun m hm => ?_)
      fun _ _ => .ok trivial)) ?_
  · obtain ⟨m', hm', rfl⟩ := List.mem_map.1 hm
    exact hstable.lt _ (h.formed.closed _ m' ((hasMove_iff (hstate b hb)).2 hm'))
  rintro ⟨met, found⟩ s₃ hst₃ ⟨hmet, hzero, hended⟩
  have h₃ := h.mono_store hs hst₃
  have hs₃ := hs.mono hst₃
  dsimp only at hmet hzero hended ⊢
  have hin : ∀ b ∈ met.order, ∀ m ∈ (a.states.getD ((leaders block count).getD b 0) default).moves,
      block.getD m.target 0 ∈ met.order := by
    intro b hb m hm
    obtain ⟨ms, hms, hall⟩ := hended.closed hb
    obtain rfl := Except.ok.inj hms
    exact hall _ (List.mem_map.2 ⟨m, hm, rfl⟩)
  have hnumber : ∀ {b i}, (numbering count met.order).getD b none = some i ↔
      met.order[i]? = some b :=
    numbering_eq_some hmet.nodup fun b hb => hmet.lt hb
  refine (Returns.mapM (fun b st t => t.Sound ∧ Represents s₃ V a block met.order
    ((leaders block count).getD b 0) st t) ?_ met.order s₃ ?_).bind ?_
  · rintro b st t u htu ⟨ht, hr⟩
    exact ⟨ht.mono htu, hr.mono ht htu⟩
  · intro b hb t hst
    refine (returns_represents
      (fun r => ((numbering count met.order).getD (block.getD r 0) none).getD 0) hs₃ hst h₃
      (hstate b (hmet.lt hb)) (hin b hb) (fun r i hi => ?_) fun m hm ms => ?_).mono
      fun st u htu hr => ⟨hs₃.mono (le_trans hst htu), hr⟩
    · rw [hnumber.2 hi, Option.getD_some]
    · obtain ⟨i, hi⟩ := List.mem_iff_getElem?.1 (hin b hb m hm)
      rw [hnumber.2 hi, Option.getD_some]
  · intro states t hst₄ hmade
    have hle := le_trans hst₃ hst₄
    exact .pure ⟨block, count, fun b => (leaders block count).getD b 0, met.order, {
      quotient := isQuotient_of_represents hs₃ hst₄ h₃.formed (hmade.imp fun _ _ hr => hr.2)
      blocks := hblocks
      stable := hstable.mono hs hle h.formed
      joins := fun R hR => hjoins R (hR.of_mono_store hs₁ (le_trans hst hle) h₁.formed)
      nodup := hmet.nodup
      first := hzero
      leads := fun b hb => hleader b (hmet.lt hb)
      closed := by
        rintro b hb l _ ⟨r, ⟨m, hm, -, rfl⟩, rfl⟩
        exact hin b hb m ((hasMove_iff (hstate b (hmet.lt hb))).1 hm) }⟩

theorem returns_minimize (hs : s.Sound) (h : a.Recognizes s V L) :
    Returns a.minimize s fun c t => c.Recognizes t V L ∧ c.Simple ∧
      (a.IsTrim s → c.IsTrim t ∧ c.Separated t) := by
  refine (returns_isMinimized hs h).mono fun c t hst ⟨_, _, _, _, hc⟩ => ?_
  have ht := hs.mono hst
  have h' := h.mono_store hs hst
  refine ⟨hc.recognizes ht h', hc.quotient.simple, fun htrim => ?_⟩
  have htrim := htrim.mono_store hs hst h.formed
  exact ⟨hc.isTrim ht h'.formed htrim, hc.separated h' htrim⟩

/-- Reducing succeeds. The result has no superfluous states, at most one move from one state to
another, and any two states accept different words. -/
theorem returns_reduce (hs : s.Sound) (h : a.Recognizes s V L) :
    Returns a.reduce s fun b t => b.Recognizes t V L ∧ b.Simple ∧ b.IsTrim t ∧ b.Separated t := by
  refine Returns.bind (P := fun b t => t.Sound ∧ b.Recognizes t V L ∧ b.IsTrim t)
    (Returns.liftExcept ((answers_trim hs h).mono fun _ hb => ⟨hs, hb⟩)) ?_
  rintro b t - ⟨ht, hb, htrim⟩
  exact (returns_minimize ht hb).mono fun c u _ ⟨hc, hsimple, hreduced⟩ =>
    ⟨hc, hsimple, hreduced htrim⟩

theorem yields_reduce (hs : s.Sound) (h : a.Recognizes s V L) :
    Yields a.reduce s fun b t => b.Recognizes t V L :=
  (returns_reduce hs h).yields.mono fun _ _ _ hb => hb.1

end RegularArithmetic.Automaton
