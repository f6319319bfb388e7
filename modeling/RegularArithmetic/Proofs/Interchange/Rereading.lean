import RegularArithmetic.Proofs.Diagram.Covering
import RegularArithmetic.Proofs.Interchange.LabelText

/-!
Labels that are written and read again in one store. What is read is the edge that was written,
unless it tests a variable whose number is no literal: the literal that is written for it belongs
to another variable.
-/

set_option autoImplicit false

namespace RegularArithmetic

open Diagram (Edge Assignment Request)
open Text (isBlank)

variable {s : Diagram.Store} {e : Edge} {aps : List (Nat × String)} {line : Document.Line}

theorem Diagram.Store.Sound.rereads (hs : s.Sound) (he : s.Valid e)
    (hvars : ∀ v, s.Matters e v → v ∈ aps.map Prod.fst ∧ v < 2 ^ 31)
    (hprops : ∀ p ∈ aps.map Prod.fst, p ≠ 0) (hlength : aps.length ≤ 2 ^ 64) :
    Answers (s.disjunction (placeStyle aps) e) fun text =>
      Answers (Document.readLabel aps.length line text.toList) fun l =>
        Returns (l.toDiagram (aps.map Prod.fst).toArray) s fun f _ => f = e := by
  by_cases hzero : e = .zero
  · subst hzero
    have hderives : Label.Derives aps.length .disjunction ['f'] (.truth false) :=
      .disjunction (.conjunction (.factor .no))
    rw [Diagram.Store.disjunction, if_pos rfl]
    exact .pure ⟨_, Label.readLabel_eq_ok_iff_parse.2 (Label.parse_of_derives hlength hderives),
      .pure rfl⟩
  · refine (answers_disjunction hs he hzero (fun v hv => (hvars v hv).1)
      (fun v hv => (hvars v hv).2) hlength).mono ?_
    rintro text ⟨_, l, hl, hholds⟩
    refine ⟨l, Label.readLabel_eq_ok_iff_parse.2 hl, ?_⟩
    have hbelow : l.Below (aps.map Prod.fst).toArray.size := by
      rw [List.size_toArray, List.length_map]
      exact Label.gives_parse _ _ l hl
    refine Label.returns_toDiagram_eq (by simpa using hprops) hbelow hs he fun σ => ?_
    simpa [Array.getD_eq_getD_getElem?, List.getD_eq_getElem?_getD] using hholds σ

/-- The text of an edge is read as the edge itself, whatever the store was asked for before, as long
as the numbers of the variables fit 32-bit literals. -/
theorem Diagram.after_rereads {bits : Nat} {rs : List Request} (hs : Store.empty? bits = .ok s)
    (hrs : Orderly rs s) (he : (after rs s).Valid e)
    (hvars : ∀ v, (after rs s).Matters e v → v ∈ aps.map Prod.fst ∧ v < 2 ^ 31)
    (hprops : ∀ p ∈ aps.map Prod.fst, p ≠ 0) (hlength : aps.length ≤ 2 ^ 64) :
    Answers ((after rs s).disjunction (placeStyle aps) e) fun text =>
      Answers (Document.readLabel aps.length line text.toList) fun l =>
        Returns (l.toDiagram (aps.map Prod.fst).toArray) (after rs s) fun f _ => f = e :=
  (sound_after hs hrs).rereads he hvars hprops hlength

theorem Diagram.after_rereads_var : ∃ s e, Store.empty? 1 = .ok s ∧ Orderly [.var 1] s ∧
    Answers ((after [.var 1] s).disjunction (placeStyle [(2, "b"), (1, "a")]) e) fun text =>
      Answers (Document.readLabel 2 ⟨[], 1⟩ text.toList) fun l =>
        Returns (l.toDiagram #[2, 1]) (after [.var 1] s) fun f _ => f = e := by
  obtain ⟨s, e, hs, hrs, he, hvars⟩ := exists_after_var
  refine ⟨s, e, hs, hrs, after_rereads hs hrs he (fun v hv => ?_) (by decide) (by decide)⟩
  rw [hvars v hv]
  decide

theorem placeOf?_eq_none {p : Nat} (h : p ∉ aps.map Prod.fst) : placeOf? aps p = none := by
  rw [placeOf?, Option.map_eq_none_iff, List.find?_eq_none]
  rintro ⟨⟨q, name⟩, i⟩ hmem heq
  have hq : q = p := by simpa using heq
  have hlisted := List.mem_zipIdx_iff_getElem?.1 (List.mem_reverse.1 hmem)
  exact h (List.mem_map.2 ⟨(q, name), List.mem_of_getElem? hlisted, hq⟩)

/-- A variable whose number is no literal is written as another one that is false. If that one is
not listed, what is written is no label. -/
theorem Diagram.Store.Sound.disjunction_of_large {v n : Nat} (hs : s.Sound) (hlow : 2 ^ 31 < v)
    (hhigh : v < 2 ^ 32) (hn : s.nodes.get? e.index = some ⟨v, .zero, .one⟩)
    (he : e.isNegated = false) (hunlisted : 2 ^ 32 - v ∉ aps.map Prod.fst) :
    s.disjunction (placeStyle aps) e = .ok s!"!?{2 ^ 32 - v}" ∧
      ∀ l, Document.readLabel n line s!"!?{2 ^ 32 - v}".toList ≠ .ok l := by
  constructor
  · have hne : e ≠ .zero := by
      rintro rfl
      cases he
    have hplace : ((v : Int) - 2 ^ 32).natAbs = 2 ^ 32 - v := by omega
    have hfalse : ¬0 < (v : Int) - 2 ^ 32 := by omega
    have hliteral : (placeStyle aps).literal (2 ^ 32 - v) false = .ok s!"!?{2 ^ 32 - v}" := by
      simp only [placeStyle, placeOf?_eq_none hunlisted]
      rfl
    rw [Diagram.Store.disjunction, if_neg hne, Diagram.cubes_of_large hs hlow hhigh hn he]
    simp only [bind, Except.bind, List.any_cons, List.any_nil, List.isEmpty_cons, List.mapM_cons,
      List.mapM_nil, hplace, decide_eq_false hfalse, hliteral]
    rfl
  · intro l hl
    have hderives := Label.derives_of_parse (Label.readLabel_eq_ok_iff_parse.1 hl)
    have hmem : '?' ∈ s!"!?{2 ^ 32 - v}".toList.filter (!isBlank ·) := by
      rw [String.toList_append]
      exact List.mem_filter.2 ⟨List.mem_append_left _ (by decide), by decide⟩
    exact absurd (hderives.char hmem) (by decide)

end RegularArithmetic
