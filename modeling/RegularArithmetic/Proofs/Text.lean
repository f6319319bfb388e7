import Mathlib.Algebra.Group.Nat.Defs
import Mathlib.Data.List.TakeDrop
import Mathlib.Tactic.Common
import RegularArithmetic.Text.Blank

/-!
How a text is taken apart: what is cut off is the rest of it, the ends of a line that are not blank
stay, and a number is read from its digits.
-/

set_option autoImplicit false

namespace RegularArithmetic.Text

theorem strip?_eq_some_iff {p s r : List Char} : strip? p s = some r ↔ s = p ++ r := by
  induction p generalizing s with
  | nil => simp [strip?, eq_comm]
  | cons c p ih =>
    cases s with
    | nil => simp [strip?]
    | cons d s =>
      by_cases hc : c = d
      · simp [strip?, hc, ih]
      · simp [strip?, hc, Ne.symm hc]

section

variable {p : Char → Bool} {c : Char} {s r : List Char}

theorem cut?_append_cons (hs : ∀ d ∈ s, p d = false) (hc : p c = true) :
    cut? p (s ++ c :: r) = some (s, r) := by
  have hs' : ∀ d ∈ s, (!p d) = true := fun d hd => by rw [hs d hd, Bool.not_false]
  have htake : (c :: r).takeWhile (fun d => !p d) = [] := by simp [hc]
  have hdrop : (c :: r).dropWhile (fun d => !p d) = c :: r := by simp [hc]
  rw [cut?, List.span_eq_takeWhile_dropWhile, List.takeWhile_append_of_pos hs',
    List.dropWhile_append_of_pos hs', htake, hdrop, List.append_nil]

theorem cut?_eq_none (hs : ∀ d ∈ s, p d = false) : cut? p s = none := by
  have hs' : ∀ d ∈ s, (!p d) = true := fun d hd => by rw [hs d hd, Bool.not_false]
  have hdrop : s.dropWhile (fun d => !p d) = [] := by
    rw [← List.append_nil s, List.dropWhile_append_of_pos hs', List.dropWhile_nil]
  rw [cut?, List.span_eq_takeWhile_dropWhile, hdrop]

/-! ### Blanks -/

theorem trimLeft_blank_cons (hc : isBlank c = true) : trimLeft (c :: s) = trimLeft s :=
  List.dropWhile_cons_of_pos hc

theorem trimLeft_eq_self (h : ∀ c ∈ s.head?, isBlank c = false) : trimLeft s = s := by
  cases s with
  | nil => rfl
  | cons c s =>
    have hc : ¬isBlank c = true := by rw [h c rfl, Bool.false_eq_true]; exact not_false
    exact List.dropWhile_cons_of_neg hc

theorem trim_blank_cons (hc : isBlank c = true) : trim (c :: s) = trim s := by
  rw [trim, trimLeft_blank_cons hc, trim]

theorem trim_eq_self (hhead : ∀ c ∈ s.head?, isBlank c = false)
    (hlast : ∀ c ∈ s.getLast?, isBlank c = false) : trim s = s := by
  rw [← List.head?_reverse] at hlast
  rw [trim, trimLeft_eq_self hhead, trimLeft_eq_self hlast, List.reverse_reverse]

theorem exists_trim_append {a b : List Char} (hhead : ∀ c ∈ (a ++ b).head?, isBlank c = false)
    (hlast : ∀ c ∈ a.getLast?, isBlank c = false) : ∃ b', b' <+: b ∧ trim (a ++ b) = a ++ b' := by
  rw [trim, trimLeft_eq_self hhead, List.reverse_append, trimLeft, List.dropWhile_append]
  split
  · rw [← List.head?_reverse] at hlast
    refine ⟨[], List.nil_prefix, ?_⟩
    rw [List.append_nil, ← trimLeft, trimLeft_eq_self hlast, List.reverse_reverse]
  · obtain ⟨cut, hcut⟩ := List.dropWhile_suffix isBlank (l := b.reverse)
    refine ⟨(b.reverse.dropWhile isBlank).reverse, ⟨cut.reverse, ?_⟩, ?_⟩
    · rw [← List.reverse_append, hcut, List.reverse_reverse]
    · rw [List.reverse_append, List.reverse_reverse]

/-- The pieces between blanks, the empty ones included. -/
private def slots (s : List Char) : List (List Char) :=
  s.foldr (fun c (ps : List (List Char)) =>
    if isBlank c then [] :: ps else
      match ps with
      | [] => [[c]]
      | p :: ps => (c :: p) :: ps) [[]]

private theorem slots_append {p : List Char} {ps : List (List Char)}
    (hs : ∀ d ∈ s, isBlank d = false) (hr : slots r = p :: ps) :
    slots (s ++ r) = (s ++ p) :: ps := by
  induction s with
  | nil => exact hr
  | cons d s ih =>
    have hd : ¬isBlank d = true := by simp [hs d (by simp)]
    have hrest : slots (s ++ r) = (s ++ p) :: ps := ih fun c hc => hs c (by simp [hc])
    rw [slots] at hrest ⊢
    rw [List.cons_append, List.foldr_cons, if_neg hd, hrest]
    rfl

private theorem pieces_eq (s : List Char) : pieces s = (slots s).filter (· ≠ []) := rfl

private theorem slots_blank_cons (hc : isBlank c = true) : slots (c :: s) = [] :: slots s := by
  rw [slots, List.foldr_cons, if_pos hc, slots]

theorem pieces_blank_cons (hc : isBlank c = true) : pieces (c :: s) = pieces s := by
  rw [pieces_eq, slots_blank_cons hc, List.filter_cons_of_neg (by simp), pieces_eq]

theorem pieces_append_blank_cons (hs : ∀ d ∈ s, isBlank d = false) (hne : s ≠ [])
    (hc : isBlank c = true) : pieces (s ++ c :: r) = s :: pieces r := by
  rw [pieces_eq, slots_append hs (slots_blank_cons hc), List.append_nil,
    List.filter_cons_of_pos (by simpa using hne), pieces_eq]

theorem pieces_eq_singleton (hs : ∀ d ∈ s, isBlank d = false) (hne : s ≠ []) : pieces s = [s] := by
  have hslots : slots (s ++ []) = [s ++ []] := slots_append hs rfl
  rw [List.append_nil] at hslots
  rw [pieces_eq, hslots, List.filter_cons_of_pos (by simpa using hne), List.filter_nil]

end

/-! ### Lines -/

theorem lines_append_newline {l : List Char} (hl : '\n' ∉ l) (s : List Char) :
    lines (l ++ '\n' :: s) = l :: lines s := by
  induction l with
  | nil => rw [List.nil_append, lines, List.foldr_cons, if_pos rfl, lines]
  | cons c l ih =>
    have hc : c ≠ '\n' := fun h => hl (by simp [h])
    have hrest := ih fun h => hl (by simp [h])
    rw [lines] at hrest ⊢
    rw [List.cons_append, List.foldr_cons, if_neg hc, hrest]

theorem lines_flatMap {ls : List (List Char)} (hls : ∀ l ∈ ls, '\n' ∉ l) :
    lines (ls.flatMap (· ++ ['\n'])) = ls := by
  induction ls with
  | nil => rfl
  | cons l ls ih =>
    have hrest := ih fun l' hl' => hls l' (by simp [hl'])
    rw [List.flatMap_cons, List.append_assoc, List.singleton_append,
      lines_append_newline (hls l (by simp)), hrest]

/-! ### Numbers -/

theorem isDigit_of_mem {n : Nat} {c : Char} (h : c ∈ Nat.toDigits 10 n) : c.isDigit = true :=
  Nat.isDigit_of_mem_toDigits (by decide) (by decide) h

theorem isBlank_of_isDigit {c : Char} (h : c.isDigit = true) : isBlank c = false := by
  have hbounds : 48 ≤ c.toNat ∧ c.toNat ≤ 57 := by
    simpa [Char.isDigit, UInt32.le_iff_toNat_le] using h
  simp only [isBlank, decide_eq_false_iff_not]
  omega

theorem isBlank_of_mem_digits {n : Nat} {c : Char} (h : c ∈ Nat.toDigits 10 n) :
    isBlank c = false :=
  isBlank_of_isDigit (isDigit_of_mem h)

theorem value_toDigits (n : Nat) :
    (Nat.toDigits 10 n).foldl (fun n c => 10 * n + (c.toNat - 48)) 0 = n := by
  have h : Nat.ofDigitChars 10 (Nat.toDigits 10 n) 0 = n := Nat.ofDigitChars_ten_toDigits
  rwa [Nat.ofDigitChars_eq_foldl] at h

theorem trim_toDigits (n : Nat) : trim (Nat.toDigits 10 n) = Nat.toDigits 10 n :=
  trim_eq_self (fun _ hc => isBlank_of_mem_digits (List.mem_of_mem_head? hc))
    fun _ hc => isBlank_of_mem_digits (List.mem_of_mem_getLast? hc)

theorem number?_toDigits {n : Nat} (h : n < 2 ^ 64) : number? (Nat.toDigits 10 n) = some n := by
  have hdigits : (Nat.toDigits 10 n).all Char.isDigit = true :=
    List.all_eq_true.2 fun c hc => isDigit_of_mem hc
  unfold number?
  split
  · rename_i ds heq
    have hplus : ('+' : Char).isDigit = true := isDigit_of_mem (n := n) (by simp [heq])
    exact absurd hplus (by decide)
  · dsimp only
    rw [if_pos ⟨Nat.toDigits_ne_nil, hdigits⟩, value_toDigits]
    exact if_pos h

end RegularArithmetic.Text
