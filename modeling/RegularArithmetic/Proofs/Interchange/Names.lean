import RegularArithmetic.Proofs.Interchange.Roundtrip

/-!
The names of propositions on their way through a text. They come back as they were written, whatever
characters they are made of, but for line feeds: these are not escaped, so that the line with the
names ends inside a name, and the text is refused.
-/

set_option autoImplicit false

namespace RegularArithmetic

open Text (trim isBlank lines escape)

theorem Text.unquote?_of_prefix {s p : List Char} (h : p <+: escape s) : unquote? p = none := by
  unfold unquote?
  induction s generalizing p with
  | nil =>
    rw [List.prefix_nil.1 h]
    rfl
  | cons c s ih =>
    rw [escape] at h
    split at h
    · -- What is broken off may be the character that the backslash stands before.
      rcases List.prefix_cons_iff.1 h with rfl | ⟨q, rfl, hq⟩
      · rfl
      rcases List.prefix_cons_iff.1 hq with rfl | ⟨r, rfl, hr⟩
      · rfl
      simp [readQuoted?, ih hr]
    · rename_i hc
      rw [not_or] at hc
      rcases List.prefix_cons_iff.1 h with rfl | ⟨q, rfl, hq⟩
      · rfl
      simp [readQuoted?, hc.1, hc.2, ih hq]

theorem Text.escape_append (s t : List Char) : escape (s ++ t) = escape s ++ escape t := by
  induction s with
  | nil => rfl
  | cons c s ih =>
    rw [List.cons_append, escape, escape, ih]
    split <;> rfl

namespace Document

variable {l l₁ l₂ l₃ : Line} {ls : List Line} {h : Header} {names acc : List String}

theorem readNames_unterminated {b s : List Char} (hb : Text.unquote? b = none)
    (hs : Text.trimLeft s = '"' :: b) :
    readNames l s = throw (.error (.format l.number "unterminated AP name")) := by
  rw [readNames]
  split
  · rename_i heq
    rw [hs] at heq
    cases heq
  · rename_i cs heq
    rw [hs] at heq
    obtain ⟨-, rfl⟩ := List.cons.inj heq
    split
    · rfl
    · rename_i hsome
      rw [hb] at hsome
      cases hsome
  · rename_i hother
    exact absurd hs (hother _)

theorem readNames_broken {b s : List Char} (hb : Text.unquote? b = none) (names acc : List String)
    (hs : Text.trimLeft s = Text.trimLeft (namesText names ++ ' ' :: '"' :: b)) :
    ∃ acc', readNames l s acc =
      .error (.error (.format l.number "unterminated AP name")) acc' := by
  have hquote : ∀ r : List Char, Text.trimLeft (' ' :: '"' :: r) = '"' :: r := by
    intro r
    rw [Text.trimLeft_blank_cons (by decide), Text.trimLeft_eq_self]
    rintro c ⟨⟩
    decide
  induction names generalizing s acc with
  | nil =>
    rw [readNames_unterminated hb (hs.trans (hquote b))]
    exact ⟨acc, rfl⟩
  | cons name names ih =>
    have htext : Text.trimLeft s =
        '"' :: (escape name.toList ++ '"' :: (namesText names ++ ' ' :: '"' :: b)) := by
      rw [hs, namesText, List.flatMap_cons, List.append_assoc, List.cons_append, List.cons_append,
        hquote, List.append_assoc, List.singleton_append, namesText]
    obtain ⟨acc', hrest⟩ := ih (acc ++ [name]) rfl
    have hannounce : announce name acc = .ok () (acc ++ [name]) := rfl
    refine ⟨acc', ?_⟩
    rw [readNames_quoted htext, bind_of_ok hannounce, bind_of_error hrest]

/-- The names as far as the line goes that ends inside one of them. -/
def brokenText (names : List String) (b : List Char) : List Char :=
  namesText names ++ ' ' :: '"' :: b

theorem listed_broken {n : Nat} {b : List Char} (hn : n < 2 ^ 61) (hb : Text.unquote? b = none)
    (names acc : List String) :
    ∃ acc', Header.listed l (Nat.toDigits 10 n ++ brokenText names b) acc =
      .error (.error (.format l.number "unterminated AP name")) acc' := by
  have hblank : ∀ c ∈ (brokenText names b).head?, isBlank c = true := by
    cases names with
    | nil =>
      rintro c ⟨⟩
      decide
    | cons name names =>
      rintro c ⟨⟩
      decide
  obtain ⟨rest, hrest, hlisted⟩ := listed_append acc hn hblank
  obtain ⟨acc', hnames⟩ := readNames_broken hb names acc hrest
  exact ⟨acc', hlisted.trans (bind_of_error hnames)⟩

theorem exists_trim_brokenText {front : List Char} (names : List String) (b : List Char)
    (hne : front ≠ []) (hfront : ∀ c ∈ front.head?, isBlank c = false) :
    ∃ b', b' <+: b ∧ trim (front ++ brokenText names b) = front ++ brokenText names b' := by
  have hopen : ∀ b,
      front ++ brokenText names b = (front ++ namesText names ++ [' ']).concat '"' ++ b := by
    intro b
    simp [brokenText]
  have hhead : ∀ c ∈ (front ++ brokenText names b).head?, isBlank c = false := by
    rwa [List.head?_append_of_ne_nil _ hne]
  have hlast : ∀ c ∈ ((front ++ namesText names ++ [' ']).concat '"').getLast?,
      isBlank c = false := by
    intro c hc
    rw [List.concat_eq_append, List.getLast?_concat] at hc
    cases hc
    decide
  rw [hopen] at hhead ⊢
  obtain ⟨b', hb', htrim⟩ := Text.exists_trim_append hhead hlast
  exact ⟨b', hb', htrim.trans (hopen b').symm⟩

theorem readHeader_broken {n : Nat} {name b : List Char} (hn : n < 2 ^ 61) (hb : b <+: escape name)
    (names acc : List String)
    (hl : l.text = trim ("AP: ".toList ++ Nat.toDigits 10 n ++ brokenText names b)) :
    ∃ acc', readHeader h (l :: ls) acc =
      .error (.error (.format l.number "unterminated AP name")) acc' := by
  have hdigit : ∀ c ∈ (Nat.toDigits 10 n).head?, isBlank c = false :=
    fun c hc => Text.isBlank_of_mem_digits (List.mem_of_mem_head? hc)
  have hkey : ∀ c ∈ ("AP: ".toList ++ Nat.toDigits 10 n).head?, isBlank c = false := by
    rintro c ⟨⟩
    decide
  obtain ⟨b', hb', hline⟩ := exists_trim_brokenText names b (by simp) hkey
  obtain ⟨b'', hb'', hvalue⟩ := exists_trim_brokenText names b' Nat.toDigits_ne_nil hdigit
  have hcolon :
      l.text = "AP".toList ++ ':' :: ' ' :: (Nat.toDigits 10 n ++ brokenText names b') := by
    rw [hl, hline, List.append_assoc]
    rfl
  have hnone : Text.unquote? b'' = none := Text.unquote?_of_prefix (hb''.trans (hb'.trans hb))
  obtain ⟨acc', hlisted⟩ := listed_broken (l := l) hn hnone names acc
  have hextend : h.extend l "AP".toList (Nat.toDigits 10 n ++ brokenText names b'') acc =
      .error (.error (.format l.number "unterminated AP name")) acc' := by
    rw [Header.extend, String.ofList_toList]
    exact bind_of_error hlisted
  refine ⟨acc', ?_⟩
  rw [readHeader_line "AP" hcolon (by decide), hvalue]
  exact bind_of_error hextend

theorem exists_broken {names : List String} (h : ∃ name ∈ names, '\n' ∈ name.toList) :
    ∃ before name b rest, (∀ name ∈ before, '\n' ∉ name.toList) ∧ b <+: escape name ∧ '\n' ∉ b ∧
      namesText names = brokenText before b ++ '\n' :: rest := by
  obtain ⟨name, hfind⟩ : ∃ name, names.find? (fun name => '\n' ∈ name.toList) = some name := by
    rw [← Option.isSome_iff_exists, List.find?_isSome]
    simpa using h
  obtain ⟨hname, before, after, rfl, hbefore⟩ := List.find?_eq_some_iff_append.1 hfind
  obtain ⟨v, w, hvw, hv⟩ := List.eq_append_cons_of_mem (of_decide_eq_true hname)
  have hescape : escape name.toList = escape v ++ '\n' :: escape w := by
    rw [hvw, Text.escape_append]
    rfl
  refine ⟨before, name.toList, escape v, escape w ++ '"' :: namesText after, by simpa using hbefore,
    ⟨_, hescape.symm⟩, newline_notMem_escape hv, ?_⟩
  rw [namesText, List.flatMap_append, List.flatMap_cons, hescape, brokenText, namesText, namesText]
  simp

theorem read_broken {size : Nat} {names : List String} {more : List (List Char)} {text : String}
    (hsize : size < 2 ^ 64) (hlength : names.length < 2 ^ 61)
    (hnames : ∃ name ∈ names, '\n' ∈ name.toList)
    (htext : text.toList = (headerText size names ++ more).flatMap (· ++ ['\n'])) :
    ∃ acc, read text [] = .error (.error (.format 4 "unterminated AP name")) acc := by
  obtain ⟨before, name, b, rest, hbefore, hb, hnewline, hbroken⟩ := exists_broken hnames
  have hversion : '\n' ∉ "HOA: v1".toList := by decide
  have hstates : '\n' ∉ "States: ".toList ++ Nat.toDigits 10 size := by
    rw [List.mem_append, not_or]
    exact ⟨by decide, newline_notMem_digits size⟩
  have hstart : '\n' ∉ "Start: 0".toList := by decide
  have hfirst : '\n' ∉ "AP: ".toList ++ Nat.toDigits 10 names.length ++ brokenText before b := by
    rw [brokenText, List.mem_append, not_or, List.mem_append, not_or, List.mem_append, not_or,
      List.mem_cons, not_or, List.mem_cons, not_or]
    exact ⟨⟨by decide, newline_notMem_digits _⟩, newline_notMem_namesText hbefore, by decide,
      by decide, hnewline⟩
  have hopen : text.toList = "HOA: v1".toList ++ '\n' ::
      ("States: ".toList ++ Nat.toDigits 10 size ++ '\n' :: ("Start: 0".toList ++ '\n' ::
        ("AP: ".toList ++ Nat.toDigits 10 names.length ++ brokenText before b ++ '\n' ::
          (rest ++ '\n' :: ((headerText size names).drop 4 ++ more).flatMap (· ++ ['\n']))))) := by
    rw [htext, headerText, hbroken]
    simp only [List.cons_append, List.nil_append, List.drop_succ_cons, List.drop_zero,
      List.flatMap_cons, List.append_assoc]
  have htrim : trim ("States: ".toList ++ Nat.toDigits 10 size) =
      "States: ".toList ++ Nat.toDigits 10 size :=
    (isLine_append_digits (c := 'S') (s := "tates: ".toList) (by decide) (by decide) size).trim
  obtain ⟨acc, hheader⟩ : ∃ acc, readHeader .blank (numbered (lines text.toList)) [] =
      .error (.error (.format 4 "unterminated AP name")) acc := by
    rw [hopen, Text.lines_append_newline hversion, Text.lines_append_newline hstates,
      Text.lines_append_newline hstart, Text.lines_append_newline hfirst, numbered]
    simp only [List.zipIdx_cons, List.map_cons]
    rw [readHeader_opening hsize (by decide) htrim (by decide)]
    exact readHeader_broken hlength hb before [] rfl
  refine ⟨acc, ?_⟩
  rw [read]
  exact bind_of_error hheader

end Document

namespace Automaton

variable {s : Diagram.Store} {x : Alphabet} {a : Automaton} {aps : List (Nat × String)}

/-- An automaton is written whatever its propositions are called. If no name has a line feed in it,
reading the text makes as many propositions, in their order, each named with the name that was
written. Otherwise the text is refused. -/
theorem answers_named (hs : s.Sound) (ha : a.Formed s) (hdistinct : (aps.map Prod.fst).Nodup)
    (hlabels : ∀ q m, a.HasMove q m → DependsOn {p | p ∈ aps.map Prod.fst} (s.value m.label))
    (hsmall : ∀ p ∈ aps.map Prod.fst, p < 2 ^ 31) (hsize : a.size < 2 ^ 64)
    (hx : x.diagrams.Sound) (hbudget : x.budget = none) :
    Answers (a.text s aps) fun text =>
      ((∀ name ∈ aps.map Prod.snd, '\n' ∉ name.toList) → Returns (ofText text) x fun r y =>
        List.Forall₂ (fun p name => ∃ i : Nat, y.nameOf p = .ok s!"{name}#{i}") r.args
          (aps.map Prod.snd)) ∧
      ((∃ name ∈ aps.map Prod.snd, '\n' ∈ name.toList) →
        ∃ y, ofText text x = .error (.error (.format 4 "unterminated AP name")) y) := by
  have hlength := length_lt_of_nodup hdistinct hsmall
  have hlegible := legible_labels hs ha hlabels hsmall hlength
  refine (answers_text fun q m hm => (hlegible q m hm).text).mono fun text htext =>
    ⟨fun hnames => ?_, fun hnames => ?_⟩
  · have hread := read_of_toList_eq ha.nonempty hsize
      (fun q m hm => ⟨hlegible q m hm, ha.closed q m hm⟩) hnames hlength htext
    exact (returns_readFrom hx hread hbudget).mono fun r y _ ⟨_, hfrom⟩ => hfrom.named.2
  · obtain ⟨acc, hread⟩ := Document.read_broken hsize (by simpa using hlength) hnames htext
    rw [ofText_of_error hread]
    obtain ⟨_, y, hannounced, -⟩ := Returns.forM acc x
      fun name _ z _ => (returns_fresh name).map (f := fun _ => ()) fun _ _ _ _ => trivial
    exact ⟨y, bind_of_ok hannounced⟩

/-- The automaton for the words in which a proposition is always false, with a line feed in the name
of the proposition. -/
theorem answers_named_loop : ∃ s t e, Diagram.Store.empty? 1 = .ok s ∧
    Diagram.makeVariable 1 s = .ok e t ∧ t.Sound ∧ (loop (-e)).Formed t ∧
    Answers ((loop (-e)).text t [(1, "a\nb")]) fun text => ∃ y,
      ofText text ⟨t, #["p"], 0, none⟩ = .error (.error (.format 4 "unterminated AP name")) y := by
  obtain ⟨s, t, e, hs, ht, hsound, -, hformed⟩ := exists_formed_loop one_ne_zero
  have he : t.Denotes e fun σ => σ 1 :=
    ((Diagram.yields_makeVariable (Diagram.Store.Sound.empty? hs) 1).of_ok ht).2
  have hsize : (loop (-e)).size < 2 ^ 64 := show 1 < 2 ^ 64 by decide
  let x : Alphabet := ⟨t, #["p"], 0, none⟩
  have hdistinct : ([(1, "a\nb")].map Prod.fst).Nodup := by decide
  refine ⟨s, t, e, hs, ht, hsound, hformed, ?_⟩
  exact (answers_named (x := x) hsound hformed hdistinct (dependsOn_loop hsound he) (by decide)
    hsize hsound rfl).mono fun text h => h.2 ⟨"a\nb", List.mem_singleton_self _, by decide⟩

end Automaton

end RegularArithmetic
