import Mathlib.Data.List.TakeWhile
import RegularArithmetic.Interchange.Document
import RegularArithmetic.Proofs.Success
import RegularArithmetic.Proofs.Text

/-!
The grammar of labels. Reading takes the blanks out and then accepts what the grammar derives. The
grammar has blanks around its tokens only, so a text with blanks inside a number is derived by
nothing and is read all the same; every other text is read exactly if it is derived.
-/

set_option autoImplicit false

namespace RegularArithmetic.Label

open Text (isBlank)

/-- What a text may be a part of: an atom stands anywhere, a disjunction only in brackets. -/
inductive Level where
  | atom | factor | conjunction | disjunction

/-- The texts of labels over `n` propositions. Blanks may stand around every part. -/
inductive Derives (n : Nat) : Level → List Char → Label → Prop
  | yes : Derives n .atom ['t'] (.truth true)
  | no : Derives n .atom ['f'] (.truth false)
  | index {ds : List Char} (hne : ds ≠ []) (hdigits : ∀ d ∈ ds, d.isDigit = true)
      (hlt : Nat.ofDigitChars 10 ds 0 < n) : Derives n .atom ds (.prop (Nat.ofDigitChars 10 ds 0))
  | brackets {s : List Char} {l : Label} (h : Derives n .disjunction s l) :
      Derives n .atom ('(' :: s ++ [')']) l
  | factor {s : List Char} {l : Label} (h : Derives n .atom s l) : Derives n .factor s l
  | not {s : List Char} {l : Label} (h : Derives n .factor s l) :
      Derives n .factor ('!' :: s) (.not l)
  | conjunction {s : List Char} {l : Label} (h : Derives n .factor s l) : Derives n .conjunction s l
  | and {s t : List Char} {l m : Label} (hl : Derives n .conjunction s l)
      (hm : Derives n .factor t m) : Derives n .conjunction (s ++ '&' :: t) (.and l m)
  | disjunction {s : List Char} {l : Label} (h : Derives n .conjunction s l) :
      Derives n .disjunction s l
  | or {s t : List Char} {l m : Label} (hl : Derives n .disjunction s l)
      (hm : Derives n .conjunction t m) : Derives n .disjunction (s ++ '|' :: t) (.or l m)
  | before {k : Level} {b : Char} {s : List Char} {l : Label} (hb : isBlank b = true)
      (h : Derives n k s l) : Derives n k (b :: s) l
  | behind {k : Level} {b : Char} {s : List Char} {l : Label} (hb : isBlank b = true)
      (h : Derives n k s l) : Derives n k (s ++ [b]) l

variable {n : Nat} {k : Level} {s t rest : List Char} {l m : Label} {line : Document.Line}

/-! ### What is read is derived -/

/-- What is read at the beginning of `s` is derived, and the rest of `s` is left. -/
def Takes (n : Nat) (k : Level) (s : List Char) {p : List Char → Prop}
    (x : Except Stop (Label × { r : List Char // p r })) : Prop :=
  Gives x fun r => ∃ u, s = u ++ r.2.1 ∧ Derives n k u r.1

theorem takes_parseIndex (h : s.head?.any Char.isDigit) : Takes n .atom s (parseIndex n s h) := by
  unfold parseIndex
  dsimp only
  split_ifs with hlarge hrange
  · exact .error
  · exact .error
  · have hne : s.takeWhile Char.isDigit ≠ [] := by
      cases s with
      | nil => simp at h
      | cons c s =>
        have hc : c.isDigit = true := by simpa using h
        simp [hc]
    have hvalue : (s.takeWhile Char.isDigit).foldl (fun i c => 10 * i + (c.toNat - 48)) 0 =
        Nat.ofDigitChars 10 (s.takeWhile Char.isDigit) 0 := Nat.ofDigitChars_eq_foldl.symm
    rw [hvalue] at hrange ⊢
    exact .ok ⟨_, List.takeWhile_append_dropWhile.symm,
      .index hne (fun d hd => List.mem_takeWhile_imp hd) (Nat.lt_of_not_le hrange)⟩

/-- What each of the functions reads is derived; for those that go on with a label, together with
the text of that label. -/
structure TakesAll (n : Nat) (s : List Char) : Prop where
  atom : Takes n .atom s (parseAtom n s)
  not : Takes n .factor s (parseNot n s)
  extendAnd : ∀ t l, Derives n .conjunction t l → Takes n .conjunction (t ++ s) (extendAnd n l s)
  and : Takes n .conjunction s (parseAnd n s)
  extendOr : ∀ t l, Derives n .disjunction t l → Takes n .disjunction (t ++ s) (extendOr n l s)
  or : Takes n .disjunction s (parseOr n s)

theorem takesAll (n : Nat) (s : List Char) : TakesAll n s := by
  induction hk : s.length using Nat.strong_induction_on generalizing s with
  | _ k ih =>
    subst hk
    -- The functions that go on with the whole of `s` come after those that they call.
    have hatom : Takes n .atom s (parseAtom n s) := by
      unfold parseAtom
      split
      · exact .pure ⟨_, rfl, .yes⟩
      · exact .pure ⟨_, rfl, .no⟩
      · rename_i s
        refine (ih s.length (by simp) s rfl).or.bind ?_
        rintro ⟨l, r, h⟩ ⟨u, hu, hl⟩
        dsimp only at hu ⊢
        split
        · rename_i hclose
          obtain ⟨r, rfl⟩ := List.head?_eq_some_iff.1 hclose
          exact .pure ⟨'(' :: u ++ [')'], by simp [hu], .brackets hl⟩
        · exact .throw
      · split
        · exact takes_parseIndex _
        · exact .throw
    have hnot : Takes n .factor s (parseNot n s) := by
      unfold parseNot
      split
      · rename_i s
        refine (ih s.length (by simp) s rfl).not.bind ?_
        rintro ⟨l, r, h⟩ ⟨u, hu, hl⟩
        exact .pure ⟨'!' :: u, congrArg ('!' :: ·) hu, .not hl⟩
      · refine hatom.mono ?_
        rintro r ⟨u, hu, hl⟩
        exact ⟨u, hu, .factor hl⟩
    have hextendAnd : ∀ t l, Derives n .conjunction t l →
        Takes n .conjunction (t ++ s) (extendAnd n l s) := by
      intro t l hl
      unfold extendAnd
      split
      · rename_i s
        refine (ih s.length (by simp) s rfl).not.bind ?_
        rintro ⟨m, r, h⟩ ⟨u, hu, hm⟩
        have hr : r.length < ('&' :: s).length := by simp only [List.length_cons]; omega
        refine ((ih r.length hr r rfl).extendAnd _ _ (.and hl hm)).bind ?_
        rintro ⟨l, r', h'⟩ ⟨v, hv, hl⟩
        refine .pure ⟨v, Eq.trans ?_ hv, hl⟩
        rw [hu, List.append_assoc, List.cons_append]
      · exact .pure ⟨t, rfl, hl⟩
    have hand : Takes n .conjunction s (parseAnd n s) := by
      unfold parseAnd
      refine hnot.bind ?_
      rintro ⟨l, r, h⟩ ⟨u, hu, hl⟩
      refine ((ih r.length h r rfl).extendAnd u l (.conjunction hl)).bind ?_
      rintro ⟨l, r', h'⟩ ⟨v, hv, hl⟩
      exact .pure ⟨v, hu.trans hv, hl⟩
    have hextendOr : ∀ t l, Derives n .disjunction t l →
        Takes n .disjunction (t ++ s) (extendOr n l s) := by
      intro t l hl
      unfold extendOr
      split
      · rename_i s
        refine (ih s.length (by simp) s rfl).and.bind ?_
        rintro ⟨m, r, h⟩ ⟨u, hu, hm⟩
        have hr : r.length < ('|' :: s).length := by simp only [List.length_cons]; omega
        refine ((ih r.length hr r rfl).extendOr _ _ (.or hl hm)).bind ?_
        rintro ⟨l, r', h'⟩ ⟨v, hv, hl⟩
        refine .pure ⟨v, Eq.trans ?_ hv, hl⟩
        rw [hu, List.append_assoc, List.cons_append]
      · exact .pure ⟨t, rfl, hl⟩
    refine ⟨hatom, hnot, hextendAnd, hand, hextendOr, ?_⟩
    unfold parseOr
    refine hand.bind ?_
    rintro ⟨l, r, h⟩ ⟨u, hu, hl⟩
    refine ((ih r.length h r rfl).extendOr u l (.disjunction hl)).bind ?_
    rintro ⟨l, r', h'⟩ ⟨v, hv, hl⟩
    exact .pure ⟨v, hu.trans hv, hl⟩

theorem derives_of_parse (h : parse n s = .ok l) : Derives n .disjunction s l := by
  have hgives : Gives (parse n s) fun l => Derives n .disjunction s l := by
    unfold parse
    refine (takesAll n s).or.bind ?_
    rintro ⟨l, r, h⟩ ⟨u, hu, hl⟩
    dsimp only at hu ⊢
    split
    · rename_i hr
      rw [hr, List.append_nil] at hu
      exact .pure (hu ▸ hl)
    · exact .throw
  exact hgives l h

/-! ### What is derived is read -/

theorem parseAtom_eq {c : Char} {s : List Char} (hc : c.isDigit = true) :
    parseAtom n (c :: s) = parseIndex n (c :: s) (by simp [hc]) := by
  have hne : ∀ {d : Char}, d.isDigit = false → c ≠ d := by
    rintro d hd rfl
    rw [hc] at hd
    cases hd
  rw [parseAtom, dif_pos (by simp [hc])]
  · intro s' heq
    exact hne (by decide) (List.cons.inj heq).1
  · intro s' heq
    exact hne (by decide) (List.cons.inj heq).1
  · intro s' heq
    exact hne (by decide) (List.cons.inj heq).1

theorem parseNot_eq {c : Char} {s : List Char} (hc : c ≠ '!') :
    parseNot n (c :: s) = parseAtom n (c :: s) := by
  rw [parseNot]
  rintro s' heq
  exact hc (List.cons.inj heq).1

theorem extendAnd_eq (hand : rest.head? ≠ some '&') (l : Label) :
    extendAnd n l rest = .ok (l, ⟨rest, Nat.le_refl _⟩) := by
  rw [extendAnd]
  · rfl
  · rintro s rfl
    exact hand rfl

theorem extendOr_eq (hor : rest.head? ≠ some '|') (l : Label) :
    extendOr n l rest = .ok (l, ⟨rest, Nat.le_refl _⟩) := by
  rw [extendOr]
  · rfl
  · rintro s rfl
    exact hor rfl

/-- The label `l` is read, and `rest` is left. -/
def Leaves {p : List Char → Prop} (x : Except Stop (Label × { r : List Char // p r })) (l : Label)
    (rest : List Char) : Prop :=
  Answers x fun r => r.1 = l ∧ r.2.1 = rest

section

variable {p q : List Char → Prop} {r : List Char}

theorem Leaves.pure (h : p rest) :
    Leaves (Pure.pure (l, ⟨rest, h⟩) : Except Stop (Label × { r : List Char // p r })) l rest :=
  .ok ⟨rfl, rfl⟩

theorem Leaves.bind {x : Except Stop (Label × { r : List Char // p r })}
    {f : Label × { r : List Char // p r } → Except Stop (Label × { r : List Char // q r })}
    (h : Leaves x l rest) (hf : ∀ h : p rest, Leaves (f (l, ⟨rest, h⟩)) m r) :
    Leaves (x >>= f) m r := by
  obtain ⟨⟨l, rest, hrest⟩, rfl, rfl, rfl⟩ := h
  exact hf hrest

end

theorem leaves_parseIndex {ds : List Char} (hn : n ≤ 2 ^ 64)
    (hdigits : ∀ d ∈ ds, d.isDigit = true) (hlt : Nat.ofDigitChars 10 ds 0 < n)
    (hrest : ∀ d ∈ rest.head?, d.isDigit = false) (h : (ds ++ rest).head?.any Char.isDigit) :
    Leaves (parseIndex n (ds ++ rest) h) (.prop (Nat.ofDigitChars 10 ds 0)) rest := by
  have hstop : rest.takeWhile Char.isDigit = [] ∧ rest.dropWhile Char.isDigit = rest := by
    cases rest with
    | nil => exact ⟨rfl, rfl⟩
    | cons d rest => simp [hrest d rfl]
  have htake : (ds ++ rest).takeWhile Char.isDigit = ds := by
    rw [List.takeWhile_append_of_pos hdigits, hstop.1, List.append_nil]
  have hdrop : (ds ++ rest).dropWhile Char.isDigit = rest := by
    rw [List.dropWhile_append_of_pos hdigits, hstop.2]
  have hvalue : ds.foldl (fun i c => 10 * i + (c.toNat - 48)) 0 = Nat.ofDigitChars 10 ds 0 :=
    Nat.ofDigitChars_eq_foldl.symm
  unfold parseIndex
  dsimp only
  rw [htake, hvalue, if_neg (by rw [Nat.pow_eq]; omega), if_neg (by omega)]
  exact .ok ⟨rfl, hdrop⟩

theorem filter_digits {ds : List Char} (hdigits : ∀ d ∈ ds, d.isDigit = true) :
    ds.filter (!isBlank ·) = ds :=
  List.filter_eq_self.2 fun d hd => by rw [Text.isBlank_of_isDigit (hdigits d hd), Bool.not_false]

/-- How a text of each level is read in front of `rest`. A conjunction and a disjunction may go on
there; what they are then read as is what their label is extended to. -/
def IsRead (n : Nat) (s : List Char) (l : Label) (rest : List Char) : Level → Prop
  | .atom | .factor => Leaves (parseNot n (s ++ rest)) l rest
  | .conjunction => ∀ m r, Leaves (extendAnd n l rest) m r → Leaves (parseAnd n (s ++ rest)) m r
  | .disjunction => rest.head? ≠ some '&' →
      ∀ m r, Leaves (extendOr n l rest) m r → Leaves (parseOr n (s ++ rest)) m r

theorem IsRead.and_of_ne (h : IsRead n s l rest .conjunction) (hand : rest.head? ≠ some '&') :
    Leaves (parseAnd n (s ++ rest)) l rest := by
  refine h l rest ?_
  rw [extendAnd_eq hand]
  exact .ok ⟨rfl, rfl⟩

theorem IsRead.or_of_ne (h : IsRead n s l rest .disjunction) (hand : rest.head? ≠ some '&')
    (hor : rest.head? ≠ some '|') : Leaves (parseOr n (s ++ rest)) l rest := by
  refine h hand l rest ?_
  rw [extendOr_eq hor]
  exact .ok ⟨rfl, rfl⟩

theorem Derives.isRead (hn : n ≤ 2 ^ 64) (h : Derives n k s l)
    (hrest : ∀ d ∈ rest.head?, d.isDigit = false) :
    IsRead n (s.filter (!isBlank ·)) l rest k := by
  -- What follows a part that stands before another one begins with a mark, which is no digit.
  have hmark : ∀ {c : Char} {r : List Char}, c.isDigit = false →
      ∀ d ∈ (c :: r).head?, d.isDigit = false := by
    rintro c r hc d ⟨⟩
    exact hc
  induction h generalizing rest with
  | yes =>
    change Leaves (parseNot n ('t' :: rest)) _ rest
    rw [parseNot_eq (by decide), parseAtom]
    exact .pure _
  | no =>
    change Leaves (parseNot n ('f' :: rest)) _ rest
    rw [parseNot_eq (by decide), parseAtom]
    exact .pure _
  | @index ds hne hdigits hlt =>
    have hfilter : ds.filter (!isBlank ·) = ds := filter_digits hdigits
    obtain ⟨d, ds', rfl⟩ := List.exists_cons_of_ne_nil hne
    have hd : d.isDigit = true := hdigits d List.mem_cons_self
    have hne : d ≠ '!' := by
      rintro rfl
      exact absurd hd (by decide)
    change Leaves (parseNot n (List.filter _ _ ++ rest)) _ rest
    rw [hfilter, List.cons_append, parseNot_eq hne, parseAtom_eq hd]
    exact leaves_parseIndex hn hdigits hlt hrest _
  | @brackets s l h ih =>
    change Leaves (parseNot n (List.filter _ _ ++ rest)) _ rest
    rw [List.filter_append, List.filter_cons_of_pos (by decide), List.append_assoc,
      List.cons_append, parseNot_eq (by decide), parseAtom]
    have hinner : Leaves (parseOr n (s.filter (!isBlank ·) ++ ')' :: rest)) l (')' :: rest) :=
      (ih (hmark (by decide))).or_of_ne (by simp) (by simp)
    exact hinner.bind fun _ => .pure _
  | factor h ih => exact ih hrest
  | @not s l h ih =>
    change Leaves (parseNot n (List.filter _ _ ++ rest)) _ rest
    rw [List.filter_cons_of_pos (by decide), List.cons_append, parseNot]
    exact (ih hrest).bind fun _ => .pure _
  | @conjunction s l h ih =>
    intro m r hext
    rw [parseAnd]
    exact (ih hrest).bind fun _ => hext.bind fun _ => .pure _
  | @and s t l l' hl hm ihl ihm =>
    intro m r hext
    rw [List.filter_append, List.filter_cons_of_pos (by decide), List.append_assoc,
      List.cons_append]
    refine ihl (hmark (by decide)) m r ?_
    rw [extendAnd]
    exact (ihm hrest).bind fun _ => hext.bind fun _ => .pure _
  | @disjunction s l h ih =>
    intro hand m r hext
    rw [parseOr]
    exact ((ih hrest).and_of_ne hand).bind fun _ => hext.bind fun _ => .pure _
  | @or s t l l' hl hm ihl ihm =>
    intro hand m r hext
    rw [List.filter_append, List.filter_cons_of_pos (by decide), List.append_assoc,
      List.cons_append]
    refine ihl (hmark (by decide)) (by simp) m r ?_
    rw [extendOr]
    exact ((ihm hrest).and_of_ne hand).bind fun _ => hext.bind fun _ => .pure _
  | before hb h ih =>
    rw [List.filter_cons_of_neg (by simp [hb])]
    exact ih hrest
  | @behind k b s l hb h ih =>
    rw [List.filter_append, List.filter_cons_of_neg (by simp [hb]), List.filter_nil,
      List.append_nil]
    exact ih hrest

theorem parse_of_derives (hn : n ≤ 2 ^ 64) (h : Derives n .disjunction s l) :
    parse n (s.filter (!isBlank ·)) = .ok l := by
  have hread : Leaves (parseOr n (s.filter (!isBlank ·) ++ [])) l [] :=
    (h.isRead hn (by simp)).or_of_ne (by simp) (by simp)
  rw [List.append_nil] at hread
  obtain ⟨⟨l, r, h⟩, hok, rfl, rfl⟩ := hread
  rw [parse, hok]
  rfl

theorem parse_eq_ok_iff (hn : n ≤ 2 ^ 64) : parse n (s.filter (!isBlank ·)) = .ok l ↔
    Derives n .disjunction (s.filter (!isBlank ·)) l := by
  refine ⟨derives_of_parse, fun h => ?_⟩
  have hread := parse_of_derives hn h
  rwa [List.filter_filter, List.filter_congr (q := (!isBlank ·)) (by simp)] at hread

theorem readLabel_eq_ok_iff_parse :
    Document.readLabel n line s = .ok l ↔ parse n (s.filter (!isBlank ·)) = .ok l := by
  rw [Document.readLabel]
  cases parse n (s.filter (!isBlank ·)) with
  | error stop => exact ⟨nofun, nofun⟩
  | ok label => exact ⟨fun h => by cases h; rfl, fun h => by cases h; rfl⟩

theorem readLabel_eq_ok_iff (hn : n ≤ 2 ^ 64) :
    Document.readLabel n line s = .ok l ↔ Derives n .disjunction (s.filter (!isBlank ·)) l :=
  readLabel_eq_ok_iff_parse.trans (parse_eq_ok_iff hn)

theorem Derives.char {c : Char} (h : Derives n k s l) (hc : c ∈ s) :
    c.isDigit = true ∨ isBlank c = true ∨ c ∈ ['t', 'f', '(', ')', '!', '&', '|'] := by
  have hmark : ∀ {d : Char}, d ∈ ['t', 'f', '(', ')', '!', '&', '|'] → c = d →
      c.isDigit = true ∨ isBlank c = true ∨ c ∈ ['t', 'f', '(', ')', '!', '&', '|'] := by
    rintro d hd rfl
    exact .inr (.inr hd)
  induction h with
  | yes => exact hmark (by decide) (List.mem_singleton.1 hc)
  | no => exact hmark (by decide) (List.mem_singleton.1 hc)
  | index hne hdigits hlt => exact .inl (hdigits c hc)
  | brackets h ih =>
    rcases List.mem_cons.1 hc with hc | hc
    · exact hmark (by decide) hc
    · rcases List.mem_append.1 hc with hc | hc
      · exact ih hc
      · exact hmark (by decide) (List.mem_singleton.1 hc)
  | factor h ih => exact ih hc
  | not h ih =>
    rcases List.mem_cons.1 hc with hc | hc
    · exact hmark (by decide) hc
    · exact ih hc
  | conjunction h ih => exact ih hc
  | and hl hm ihl ihm =>
    rcases List.mem_append.1 hc with hc | hc
    · exact ihl hc
    · rcases List.mem_cons.1 hc with hc | hc
      · exact hmark (by decide) hc
      · exact ihm hc
  | disjunction h ih => exact ih hc
  | or hl hm ihl ihm =>
    rcases List.mem_append.1 hc with hc | hc
    · exact ihl hc
    · rcases List.mem_cons.1 hc with hc | hc
      · exact hmark (by decide) hc
      · exact ihm hc
  | before hb h ih =>
    rcases List.mem_cons.1 hc with rfl | hc
    · exact .inr (.inl hb)
    · exact ih hc
  | behind hb h ih =>
    rcases List.mem_append.1 hc with hc | hc
    · exact ih hc
    · obtain rfl := List.mem_singleton.1 hc
      exact .inr (.inl hb)

/-! ### Blanks inside a number -/

/-- Between two digits there is something else than blanks, or nothing at all. -/
def Unbroken (s : List Char) : Prop :=
  ∀ c b d, c :: (b ++ [d]) <:+: s → c.isDigit = true → d.isDigit = true →
    (∀ x ∈ b, isBlank x = true) → b = []

theorem Unbroken.of_infix (hs : Unbroken s) (ht : t <:+: s) : Unbroken t :=
  fun c b d h => hs c b d (h.trans ht)

theorem unbroken_digits (hs : ∀ d ∈ s, d.isDigit = true) : Unbroken s := by
  intro c b d h _ _ hb
  refine List.eq_nil_iff_forall_not_mem.2 fun x hx => ?_
  have hdigit : x.isDigit = true := hs x (h.subset (by simp [hx]))
  have hblank := hb x hx
  rw [Text.isBlank_of_isDigit hdigit] at hblank
  cases hblank

theorem infix_append_cons {α : Type} {w s t : List α} {x : α} (h : w <:+: s ++ x :: t)
    (hx : x ∉ w) : w <:+: s ∨ w <:+: t := by
  obtain ⟨p, q, heq⟩ := h
  rcases List.append_eq_append_iff.1 heq with ⟨a, rfl, -⟩ | ⟨a, hpw, ha⟩
  · exact .inl ⟨p, a, rfl⟩
  cases a with
  | nil => exact .inl ⟨p, [], by simpa using hpw⟩
  | cons y a =>
    obtain ⟨rfl, rfl⟩ := List.cons.inj ha
    rcases List.append_eq_append_iff.1 hpw with ⟨c, rfl, rfl⟩ | ⟨c, rfl, hc⟩
    · exact absurd (by simp) hx
    · cases c with
      | nil =>
        have hmem : x ∈ [] ++ w := hc ▸ List.mem_cons_self
        exact absurd hmem hx
      | cons y c => exact .inr ⟨c, q, congrArg (· ++ q) (List.cons.inj hc).2.symm⟩

theorem Unbroken.append_cons {x : Char} (hs : Unbroken s) (ht : Unbroken t)
    (hx : x.isDigit = false ∧ isBlank x = false) : Unbroken (s ++ x :: t) := by
  intro c b d h hc hd hb
  have hmem : x ∉ c :: (b ++ [d]) := by
    intro hmem
    simp only [List.mem_cons, List.mem_append, List.not_mem_nil, or_false] at hmem
    rcases hmem with rfl | hmem | rfl
    · rw [hx.1] at hc
      cases hc
    · have hblank := hb x hmem
      rw [hx.2] at hblank
      cases hblank
    · rw [hx.1] at hd
      cases hd
  rcases infix_append_cons h hmem with h | h
  · exact hs c b d h hc hd hb
  · exact ht c b d h hc hd hb

theorem Derives.unbroken (h : Derives n k s l) : Unbroken s := by
  have hnil : Unbroken [] := unbroken_digits (by simp)
  induction h with
  | yes => exact hnil.append_cons hnil (by decide)
  | no => exact hnil.append_cons hnil (by decide)
  | index hne hdigits hlt => exact unbroken_digits hdigits
  | brackets h ih => exact hnil.append_cons (ih.append_cons hnil (by decide)) (by decide)
  | factor h ih => exact ih
  | not h ih => exact hnil.append_cons ih (by decide)
  | conjunction h ih => exact ih
  | and hl hm ihl ihm => exact ihl.append_cons ihm (by decide)
  | disjunction h ih => exact ih
  | or hl hm ihl ihm => exact ihl.append_cons ihm (by decide)
  | @before k b s l hb h ih =>
    intro c a d hinfix hc hd ha
    rcases List.infix_cons_iff.1 hinfix with hprefix | hinfix
    · obtain rfl : c = b := (List.cons_prefix_cons.1 hprefix).1
      rw [Text.isBlank_of_isDigit hc] at hb
      cases hb
    · exact ih c a d hinfix hc hd ha
  | @behind k b s l hb h ih =>
    intro c a d hinfix hc hd ha
    rcases List.infix_concat_iff.1 hinfix with hsuffix | hinfix
    · obtain ⟨p, hp⟩ := hsuffix
      have hlast : p ++ c :: a ++ [d] = s ++ [b] := by simpa using hp
      obtain rfl : d = b := by simpa using (List.append_inj' hlast rfl).2
      rw [Text.isBlank_of_isDigit hd] at hb
      cases hb
    · exact ih c a d hinfix hc hd ha

theorem Derives.around {a b : List Char} (ha : ∀ x ∈ a, isBlank x = true)
    (hb : ∀ x ∈ b, isBlank x = true) (h : Derives n k s l) : Derives n k (a ++ s ++ b) l := by
  have hbehind : Derives n k (s ++ b) l := by
    induction b generalizing s with
    | nil => rwa [List.append_nil]
    | cons x b ih =>
      rw [List.append_cons]
      exact ih (fun y hy => hb y (by simp [hy])) (.behind (hb x (by simp)) h)
  rw [List.append_assoc]
  induction a with
  | nil => exact hbehind
  | cons x a ih => exact .before (ha x (by simp)) (ih fun y hy => ha y (by simp [hy]))

theorem isBlank_of_filter_eq_nil (h : s.filter (!isBlank ·) = []) : ∀ x ∈ s, isBlank x = true := by
  simpa using h

theorem exists_split {c : Char} {u v : List Char} (h : s.filter (!isBlank ·) = u ++ c :: v) :
    ∃ s₁ s₂, s = s₁ ++ c :: s₂ ∧ s₁.filter (!isBlank ·) = u ∧ s₂.filter (!isBlank ·) = v := by
  obtain ⟨s₁, s₂, rfl, hu, hv⟩ := List.filter_eq_append_iff.1 h
  obtain ⟨a, t, rfl, ha, -, ht⟩ := List.filter_eq_cons_iff.1 hv
  refine ⟨s₁ ++ a, t, by simp, ?_, ht⟩
  rw [List.filter_append, hu, List.filter_eq_nil_iff.2 ha, List.append_nil]

theorem exists_around_digits {ds : List Char} (hne : ds ≠ []) (hdigits : ∀ d ∈ ds, d.isDigit = true)
    (hs : Unbroken s) (h : s.filter (!isBlank ·) = ds) :
    ∃ a b, s = a ++ ds ++ b ∧ (∀ x ∈ a, isBlank x = true) ∧ ∀ x ∈ b, isBlank x = true := by
  induction ds generalizing s with
  | nil => exact absurd rfl hne
  | cons d ds ih =>
    obtain ⟨a, t, rfl, ha, ht⟩ := exists_split (u := []) h
    have ha := isBlank_of_filter_eq_nil ha
    cases ds with
    | nil => exact ⟨a, t, by simp, ha, isBlank_of_filter_eq_nil ht⟩
    | cons d' ds =>
      have htail : Unbroken t := hs.of_infix ⟨a ++ [d], [], by simp⟩
      obtain ⟨a', b, rfl, ha', hb⟩ :=
        ih (by simp) (fun c hc => hdigits c (by simp [hc])) htail ht
      have hnil : a' = [] :=
        hs d a' d' ⟨a, ds ++ b, by simp⟩ (hdigits d (by simp)) (hdigits d' (by simp)) ha'
      subst hnil
      exact ⟨a, b, by simp, ha, hb⟩

theorem Unbroken.of_append_cons {x : Char} (h : Unbroken (s ++ x :: t)) :
    Unbroken s ∧ Unbroken t :=
  ⟨h.of_infix ⟨[], x :: t, rfl⟩, h.of_infix ⟨s ++ [x], [], by simp⟩⟩

theorem Derives.of_filter_singleton {c : Char} (h : Derives n k [c] l)
    (hc : s.filter (!isBlank ·) = [c]) : Derives n k s l := by
  obtain ⟨a, b, rfl, ha, hb⟩ := exists_split (u := []) hc
  have haround := h.around (isBlank_of_filter_eq_nil ha) (isBlank_of_filter_eq_nil hb)
  rwa [List.append_assoc] at haround

theorem Derives.of_filter {u : List Char} (h : Derives n k u l) (hs : Unbroken s)
    (hu : s.filter (!isBlank ·) = u) : Derives n k s l := by
  induction h generalizing s with
  | yes => exact .of_filter_singleton .yes hu
  | no => exact .of_filter_singleton .no hu
  | index hne hdigits hlt =>
    obtain ⟨a, b, rfl, ha, hb⟩ := exists_around_digits hne hdigits hs hu
    exact .around ha hb (.index hne hdigits hlt)
  | @brackets u l h ih =>
    obtain ⟨a, s', rfl, ha, hs'⟩ := exists_split (u := []) hu
    obtain ⟨s, b, rfl, hu, hb⟩ := exists_split (v := []) hs'
    have hinner : Derives n .disjunction s l := ih hs.of_append_cons.2.of_append_cons.1 hu
    have haround := hinner.brackets.around (isBlank_of_filter_eq_nil ha)
      (isBlank_of_filter_eq_nil hb)
    simpa using haround
  | factor h ih => exact .factor (ih hs hu)
  | @not u l h ih =>
    obtain ⟨a, s, rfl, ha, hu⟩ := exists_split (u := []) hu
    have haround := (ih hs.of_append_cons.2 hu).not.around (isBlank_of_filter_eq_nil ha) (b := [])
      (by simp)
    rwa [List.append_nil] at haround
  | conjunction h ih => exact .conjunction (ih hs hu)
  | and hl hm ihl ihm =>
    obtain ⟨s, t, rfl, hs', ht⟩ := exists_split hu
    exact .and (ihl hs.of_append_cons.1 hs') (ihm hs.of_append_cons.2 ht)
  | disjunction h ih => exact .disjunction (ih hs hu)
  | or hl hm ihl ihm =>
    obtain ⟨s, t, rfl, hs', ht⟩ := exists_split hu
    exact .or (ihl hs.of_append_cons.1 hs') (ihm hs.of_append_cons.2 ht)
  | before hb h ih =>
    have hmem := hu.symm ▸ List.mem_cons_self
    simp [hb] at hmem
  | @behind k b u l hb h ih =>
    have hmem : b ∈ s.filter (!isBlank ·) := by simp [hu]
    simp [hb] at hmem

theorem Derives.filter (h : Derives n k s l) : Derives n k (s.filter (!isBlank ·)) l := by
  induction h with
  | yes => exact .yes
  | no => exact .no
  | @index ds hne hdigits hlt =>
    rw [filter_digits hdigits]
    exact .index hne hdigits hlt
  | @brackets s l h ih =>
    rw [List.filter_append, List.filter_cons_of_pos (by decide)]
    exact .brackets ih
  | factor h ih => exact .factor ih
  | not h ih =>
    rw [List.filter_cons_of_pos (by decide)]
    exact .not ih
  | conjunction h ih => exact .conjunction ih
  | and hl hm ihl ihm =>
    rw [List.filter_append, List.filter_cons_of_pos (by decide)]
    exact .and ihl ihm
  | disjunction h ih => exact .disjunction ih
  | or hl hm ihl ihm =>
    rw [List.filter_append, List.filter_cons_of_pos (by decide)]
    exact .or ihl ihm
  | before hb h ih =>
    rw [List.filter_cons_of_neg (by simp [hb])]
    exact ih
  | behind hb h ih =>
    rw [List.filter_append, List.filter_cons_of_neg (by simp [hb]), List.filter_nil,
      List.append_nil]
    exact ih

/-- The grammar derives those texts that it derives without the blanks and in which no number is
broken. -/
theorem derives_iff_filter :
    Derives n k s l ↔ Unbroken s ∧ Derives n k (s.filter (!isBlank ·)) l :=
  ⟨fun h => ⟨h.unbroken, h.filter⟩, fun h => h.2.of_filter h.1 rfl⟩

/-- A label in which no number is broken is read exactly if the grammar derives it. -/
theorem readLabel_eq_ok_iff_of_unbroken (hs : Unbroken s) (hn : n ≤ 2 ^ 64) :
    Document.readLabel n line s = .ok l ↔ Derives n .disjunction s l := by
  rw [readLabel_eq_ok_iff hn, derives_iff_filter (s := s), and_iff_right hs]

theorem readLabel_eq_ok_iff_of_unbroken_both : Unbroken ['0', '&', '1'] ∧
    (Document.readLabel 2 ⟨[], 1⟩ ['0', '&', '1'] = .ok (.and (.prop 0) (.prop 1)) ↔
      Derives 2 .disjunction ['0', '&', '1'] (.and (.prop 0) (.prop 1))) := by
  have hone : ∀ d : Char, d.isDigit = true → Unbroken [d] := fun d hd =>
    unbroken_digits fun c hc => List.mem_singleton.1 hc ▸ hd
  have hs : Unbroken ['0', '&', '1'] :=
    (hone '0' (by decide)).append_cons (hone '1' (by decide)) (by decide)
  exact ⟨hs, readLabel_eq_ok_iff_of_unbroken hs (by decide)⟩

/-- Two numbers with nothing but blanks between them are derived by nothing, but they are read, as
one number. -/
theorem readLabel_of_broken {ds b es : List Char} (hn : n ≤ 2 ^ 64) (hds : ds ≠ []) (hes : es ≠ [])
    (hdigits : ∀ d ∈ ds ++ es, d.isDigit = true) (hne : b ≠ []) (hb : ∀ x ∈ b, isBlank x = true)
    (hlt : Nat.ofDigitChars 10 (ds ++ es) 0 < n) :
    Document.readLabel n line (ds ++ b ++ es) = .ok (.prop (Nat.ofDigitChars 10 (ds ++ es) 0)) ∧
      ∀ k l, ¬Derives n k (ds ++ b ++ es) l := by
  have hfilter : (ds ++ b ++ es).filter (!isBlank ·) = ds ++ es := by
    rw [List.filter_append, List.filter_append,
      filter_digits fun d hd => hdigits d (List.mem_append_left es hd),
      filter_digits fun d hd => hdigits d (List.mem_append_right ds hd),
      List.filter_eq_nil_iff.2 (by simpa using hb), List.append_nil]
  refine ⟨?_, fun k l h => ?_⟩
  · rw [readLabel_eq_ok_iff hn, hfilter]
    exact .disjunction (.conjunction (.factor (.index (by simp [hds]) hdigits hlt)))
  · obtain ⟨ds, c, rfl⟩ : ∃ ds' c, ds = ds' ++ [c] :=
      ⟨_, _, (List.dropLast_concat_getLast hds).symm⟩
    obtain ⟨d, es, rfl⟩ := List.exists_cons_of_ne_nil hes
    exact hne (h.unbroken c b d ⟨ds, es, by simp⟩ (hdigits c (by simp)) (hdigits d (by simp)) hb)

/-- Blanks between digits are lost before the label is read, so `0 1` is read as proposition 1. -/
theorem exists_read_not_derived : ∃ s l, Document.readLabel 2 ⟨s, 1⟩ s = .ok l ∧
    ∀ k l', ¬Derives 2 k s l' := by
  have hbroken : Document.readLabel 2 ⟨['0', ' ', '1'], 1⟩ (['0'] ++ [' '] ++ ['1']) = .ok _ ∧ _ :=
    readLabel_of_broken (by decide) (by decide) (by decide) (by simp) (by decide)
      (List.forall_mem_singleton.2 (by decide)) (by decide)
  exact ⟨['0', ' ', '1'], _, hbroken.1, hbroken.2⟩

end RegularArithmetic.Label
