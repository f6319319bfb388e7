import Mathlib.Data.List.Forall2
import Std.Data.String.ToNat
import RegularArithmetic.Program.Basic
import RegularArithmetic.Proofs.Computation

/-!
The names of temporary variables, and how frames grow during an evaluation: a temporary variable
gets a name that no variable had before, a free variable is bound once, and the propositions of
all new variables are new.
-/

set_option autoImplicit false

namespace RegularArithmetic

/-- The name of the temporary variable that is made as number `k`. -/
def temporaryNameOf (hint : String) (k : Nat) : String := s!"{reservedStart}{hint}{k}"

def hints : List String := ["t", "c", "y", "len", "n"]

/-- The name is that of a temporary variable made after number `k`. -/
def IsFuture (k : Nat) (v : String) : Prop :=
  ∃ hint ∈ hints, ∃ j, k < j ∧ v = temporaryNameOf hint j

theorem toList_temporaryNameOf (hint : String) (k : Nat) : (temporaryNameOf hint k).toList =
    reservedStart.toList ++ (hint.toList ++ Nat.toDigits 10 k) := by
  have hstart : toString reservedStart = reservedStart := rfl
  have hhint : toString hint = hint := rfl
  simp [temporaryNameOf, hstart, hhint]

theorem reserved_temporaryNameOf (hint : String) (k : Nat) :
    reservedStart.toList <+: (temporaryNameOf hint k).toList := by
  rw [toList_temporaryNameOf]
  exact List.prefix_append _ _

private theorem digits_temporaryNameOf {hint : String} (h : hint ∈ hints) (k : Nat) :
    (temporaryNameOf hint k).toList.filter Char.isDigit = Nat.toDigits 10 k := by
  have hhint : hint.toList.filter Char.isDigit = [] := by
    simp only [hints, List.mem_cons, List.not_mem_nil, or_false] at h
    rcases h with rfl | rfl | rfl | rfl | rfl <;> rfl
  have hstart : reservedStart.toList.filter Char.isDigit = [] := rfl
  have hdigits : (Nat.toDigits 10 k).filter Char.isDigit = Nat.toDigits 10 k :=
    List.filter_eq_self.2 fun c hc => Nat.isDigit_of_mem_toDigits (by decide) (by decide) hc
  rw [toList_temporaryNameOf, List.filter_append, List.filter_append, hstart, hhint, hdigits,
    List.nil_append, List.nil_append]

theorem temporaryNameOf_inj {hint hint' : String} (h : hint ∈ hints) (h' : hint' ∈ hints)
    {j k : Nat} (heq : temporaryNameOf hint j = temporaryNameOf hint' k) : j = k := by
  have hdigits := congrArg (fun v => v.toList.filter Char.isDigit) heq
  simp only [digits_temporaryNameOf h, digits_temporaryNameOf h'] at hdigits
  refine Nat.repr_injective (String.toList_inj.1 ?_)
  simpa using hdigits

theorem isFuture_temporaryNameOf {hint : String} (h : hint ∈ hints) {j k : Nat} :
    IsFuture k (temporaryNameOf hint j) ↔ k < j := by
  constructor
  · rintro ⟨hint', h', j', hj', heq⟩
    rwa [temporaryNameOf_inj h h' heq]
  · exact fun hj => ⟨hint, h, j, hj, rfl⟩

theorem IsFuture.mono {j k : Nat} {v : String} (h : IsFuture k v) (hjk : j ≤ k) : IsFuture j v := by
  obtain ⟨hint, hhint, i, hi, rfl⟩ := h
  exact ⟨hint, hhint, i, Nat.lt_of_le_of_lt hjk hi, rfl⟩

/-- A temporary name begins like all names of the evaluator, and has a digit. -/
theorem IsFuture.reserved {k : Nat} {v : String} (h : IsFuture k v) :
    reservedStart.toList <+: v.toList ∧ v.toList.filter Char.isDigit ≠ [] := by
  obtain ⟨hint, hhint, i, -, rfl⟩ := h
  refine ⟨reserved_temporaryNameOf hint i, ?_⟩
  rw [digits_temporaryNameOf hhint]
  exact Nat.toDigits_ne_nil

namespace Program

/-- The frame later on, after propositions up to `n'` and temporary names up to `k'` were made,
when there were propositions up to `n` and temporary names up to `k`. -/
structure FrameGrows (n n' k k' : Nat) (f f' : Frame) : Prop where
  kind : f'.kind = f.kind
  owner : f'.owner = f.owner
  vars : ∃ extra, f'.vars = extra ++ f.vars ∧ (extra.map (·.2)).Nodup ∧ ∀ v p, (v, p) ∈ extra →
    (n < p ∧ p ≤ n') ∧ ¬IsFuture k' v ∧ (IsFuture k v ∨ f.kind = .free ∧ f.vars.lookup v = none)

variable {n n' n'' k k' k'' : Nat} {f f' f'' : Frame} {fs fs' : List Frame} {v : String} {p : Nat}

theorem FrameGrows.refl (f : Frame) : FrameGrows n n' k k' f f :=
  ⟨rfl, rfl, [], rfl, by simp, by simp⟩

theorem FrameGrows.trans (h : FrameGrows n n' k k' f f') (h' : FrameGrows n' n'' k' k'' f' f'')
    (hn : n ≤ n') (hn' : n' ≤ n'') (hk : k ≤ k') (hk' : k' ≤ k'') :
    FrameGrows n n'' k k'' f f'' := by
  obtain ⟨extra, hvars, hnodup, hextra⟩ := h.vars
  obtain ⟨extra', hvars', hnodup', hextra'⟩ := h'.vars
  refine ⟨h'.kind.trans h.kind, h'.owner.trans h.owner, extra' ++ extra, ?_, ?_, fun v p hp => ?_⟩
  · rw [hvars', hvars, List.append_assoc]
  · rw [List.map_append]
    refine List.nodup_append.2 ⟨hnodup', hnodup, fun p hp q hq hpq => ?_⟩
    obtain ⟨⟨v, _⟩, hv, rfl⟩ := List.mem_map.1 hp
    obtain ⟨⟨u, _⟩, hu, rfl⟩ := List.mem_map.1 hq
    have hlate := (hextra' v _ hv).1.1
    have hearly := (hextra u _ hu).1.2
    omega
  · rcases List.mem_append.1 hp with hp | hp
    · obtain ⟨hlt, hnot, hcases⟩ := hextra' v p hp
      refine ⟨⟨by omega, hlt.2⟩, hnot, hcases.imp (·.mono hk) fun ⟨hkind, hlookup⟩ => ?_⟩
      rw [hvars, List.lookup_append, Option.or_eq_none_iff] at hlookup
      exact ⟨h.kind ▸ hkind, hlookup.2⟩
    · obtain ⟨hlt, hnot, hcases⟩ := hextra v p hp
      exact ⟨⟨hlt.1, by omega⟩, fun hfuture => hnot (hfuture.mono hk'), hcases⟩

theorem lookup_eq_none_of_not_mem {vars : List (String × Nat)} (h : ∀ p, (v, p) ∉ vars) :
    vars.lookup v = none := by
  rw [List.lookup_eq_none_iff]
  rintro ⟨u, q⟩ hq
  rw [bne_iff_ne]
  rintro rfl
  exact h q hq

theorem mem_of_lookup {α β : Type} [BEq α] [LawfulBEq α] {l : List (α × β)} {a : α} {b : β}
    (h : l.lookup a = some b) : (a, b) ∈ l := by
  obtain ⟨l₁, l₂, rfl, -⟩ := List.lookup_eq_some_iff.1 h
  simp

theorem exists_of_findVar (h : findVar v fs = .bound p) : ∃ f ∈ fs, (v, p) ∈ f.vars := by
  induction fs with
  | nil => cases h
  | cons f fs ih =>
    rw [findVar] at h
    split at h
    · rename_i heq
      cases h
      exact ⟨f, by simp, mem_of_lookup heq⟩
    · split at h
      · obtain ⟨g, hg, hv⟩ := ih h
        exact ⟨g, by simp [hg], hv⟩
      · cases h
      · cases h

theorem findVar_of_grows (h : List.Forall₂ (FrameGrows n n' k k') fs fs') (hv : ¬IsFuture k v)
    (hbound : findVar v fs = .bound p) : findVar v fs' = .bound p := by
  induction h with
  | nil => exact hbound
  | @cons f f' fs fs' hf _ ih =>
    obtain ⟨extra, hvars, -, hextra⟩ := hf.vars
    rw [findVar] at hbound ⊢
    have hnot : (f.kind ≠ .free ∨ f.vars.lookup v ≠ none) → extra.lookup v = none := by
      intro hold
      refine lookup_eq_none_of_not_mem fun q hq => ?_
      rcases (hextra v q hq).2.2 with hfuture | ⟨hkind, hlookup⟩
      · exact hv hfuture
      · exact hold.elim (· hkind) (· hlookup)
    cases hlookup : f.vars.lookup v with
    | some q =>
      rw [hlookup] at hbound
      rw [hvars, List.lookup_append, hnot (.inr (by simp [hlookup])), Option.none_or, hlookup]
      exact hbound
    | none =>
      rw [hlookup] at hbound
      cases hkind : f.kind with
      | transparent =>
        rw [hvars, List.lookup_append, hnot (.inl (by simp [hkind])), Option.none_or, hlookup,
          hf.kind, hkind]
        rw [hkind] at hbound
        exact ih hbound
      | free => simp [hkind] at hbound
      | sealed => simp [hkind] at hbound

theorem findVar_before (h : List.Forall₂ (FrameGrows n n' k k') fs fs')
    (hbound : findVar v fs' = .bound p) : findVar v fs = .bound p ∨ n < p := by
  induction h with
  | nil => exact .inl hbound
  | @cons f f' fs fs' hf _ ih =>
    obtain ⟨extra, hvars, -, hextra⟩ := hf.vars
    rw [findVar] at hbound ⊢
    rw [hvars, List.lookup_append] at hbound
    cases hlookup : extra.lookup v with
    | some q =>
      rw [hlookup, Option.some_or] at hbound
      cases hbound
      exact .inr (hextra v p (mem_of_lookup hlookup)).1.1
    | none =>
      rw [hlookup, Option.none_or] at hbound
      cases hlookup' : f.vars.lookup v with
      | some q =>
        rw [hlookup'] at hbound
        exact .inl hbound
      | none =>
        rw [hlookup', hf.kind] at hbound
        cases hkind : f.kind with
        | transparent =>
          rw [hkind] at hbound
          exact ih hbound
        | free => simp [hkind] at hbound
        | sealed => simp [hkind] at hbound

theorem FrameGrows.lookup_eq (h : FrameGrows n n' k k' f f') (hkind : f.kind ≠ .free)
    (hv : ¬IsFuture k v) : f'.vars.lookup v = f.vars.lookup v := by
  obtain ⟨extra, hvars, -, hextra⟩ := h.vars
  have hnone : extra.lookup v = none := by
    refine lookup_eq_none_of_not_mem fun q hq => ?_
    rcases (hextra v q hq).2.2 with hfuture | ⟨hfree, -⟩
    · exact hv hfuture
    · exact hkind hfree
  rw [hvars, List.lookup_append, hnone, Option.none_or]

theorem findVar_transparent {owner u : String} (hv : ¬IsFuture k v)
    (h : FrameGrows n n' k k' ⟨.transparent, owner, [(u, p)]⟩ f') :
    findVar v (f' :: fs) = if v = u then .bound p else findVar v fs := by
  have hlookup := h.lookup_eq (by simp) hv
  have hkind : f'.kind = .transparent := h.kind
  rw [findVar, hlookup, hkind, List.lookup_cons]
  by_cases hvu : v = u
  · simp [hvu]
  · simp [hvu, beq_false_of_ne hvu]

theorem findVar_sealed {owner : String} {vars : List (String × Nat)} (hv : ¬IsFuture k v)
    (h : FrameGrows n n' k k' ⟨.sealed, owner, vars⟩ f') :
    findVar v (f' :: fs) = .bound p ↔ vars.lookup v = some p := by
  have hlookup := h.lookup_eq (by simp) hv
  have hkind : f'.kind = .sealed := h.kind
  rw [findVar, hlookup, hkind]
  cases vars.lookup v <;> simp

theorem findVar_bindInnermost (hfs : fs ≠ []) : findVar v (bindInnermost v p fs) = .bound p := by
  cases fs with
  | nil => exact absurd rfl hfs
  | cons f fs => simp [bindInnermost, findVar]

theorem findVar_bindInnermost_of_ne {u : String} (huv : u ≠ v) :
    findVar u (bindInnermost v p fs) = findVar u fs := by
  cases fs with
  | nil => rfl
  | cons f fs => simp [bindInnermost, findVar, List.lookup_cons, beq_false_of_ne huv]

theorem grows_bindInnermost (hp : n < p ∧ p ≤ n') (hnow : ¬IsFuture k' v) (hfuture : IsFuture k v) :
    List.Forall₂ (FrameGrows n n' k k') fs (bindInnermost v p fs) := by
  cases fs with
  | nil => exact .nil
  | cons f fs =>
    refine .cons ⟨rfl, rfl, [(v, p)], rfl, by simp, fun u q huq => ?_⟩
      (List.forall₂_same.2 fun f _ => .refl f)
    cases List.mem_singleton.1 huq
    exact ⟨hp, hnow, .inl hfuture⟩

theorem mem_bindInnermost {e : String × Nat} (hf : f ∈ bindInnermost v p fs) (he : e ∈ f.vars) :
    e = (v, p) ∨ ∃ f' ∈ fs, e ∈ f'.vars := by
  cases fs with
  | nil => cases hf
  | cons f' fs =>
    rcases List.mem_cons.1 hf with rfl | hf
    · exact (List.mem_cons.1 he).imp_right fun he => ⟨f', List.mem_cons_self, he⟩
    · exact .inr ⟨f, List.mem_cons_of_mem _ hf, he⟩

theorem mem_bindFree {e : String × Nat} (hf : f ∈ bindFree v p fs) (he : e ∈ f.vars) :
    e = (v, p) ∨ ∃ f' ∈ fs, e ∈ f'.vars := by
  induction fs with
  | nil => cases hf
  | cons f' fs ih =>
    rw [bindFree] at hf
    split at hf
    · rcases List.mem_cons.1 hf with rfl | hf
      · exact (List.mem_cons.1 he).imp_right fun he => ⟨f', List.mem_cons_self, he⟩
      · exact .inr ⟨f, List.mem_cons_of_mem _ hf, he⟩
    · rcases List.mem_cons.1 hf with rfl | hf
      · exact .inr ⟨f, List.mem_cons_self, he⟩
      · exact (ih hf).imp_right fun ⟨g, hg, he⟩ => ⟨g, List.mem_cons_of_mem _ hg, he⟩

theorem findVar_bindFree (h : findVar v fs = .free) : findVar v (bindFree v p fs) = .bound p := by
  induction fs with
  | nil => cases h
  | cons f fs ih =>
    rw [findVar] at h
    split at h
    · cases h
    · rename_i hnone
      split at h
      · rename_i hkind
        rw [bindFree, if_neg (by simp [hkind]), findVar, hnone, hkind]
        exact ih h
      · cases h
      · rename_i hkind
        rw [bindFree, if_pos hkind, findVar]
        simp

theorem grows_bindFree (hp : n < p ∧ p ≤ n') (hv : ¬IsFuture k v) (h : findVar v fs = .free) :
    List.Forall₂ (FrameGrows n n' k k) fs (bindFree v p fs) := by
  induction fs with
  | nil => cases h
  | cons f fs ih =>
    rw [findVar] at h
    split at h
    · cases h
    · rename_i hnone
      split at h
      · rename_i hkind
        rw [bindFree, if_neg (by simp [hkind])]
        exact .cons (.refl f) (ih h)
      · cases h
      · rename_i hkind
        rw [bindFree, if_pos hkind]
        refine .cons ⟨rfl, rfl, [(v, p)], rfl, by simp, fun u q huq => ?_⟩
          (List.forall₂_same.2 fun f _ => .refl f)
        cases List.mem_singleton.1 huq
        exact ⟨hp, hv, .inr ⟨hkind, hnone⟩⟩

end Program

end RegularArithmetic
