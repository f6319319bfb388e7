import RegularArithmetic.Proofs.Meaning.Settling
import RegularArithmetic.Proofs.Program.Inference

/-!
What inference makes of an expression: the same expression, in which every integer expression has
a domain and those that were known are kept.
-/

set_option autoImplicit false

namespace RegularArithmetic

/-- `y` is `x` with annotations on all integer expressions; known domains of variables and literals
are kept. -/
structure Expr.Notes (x y : Expr) : Prop extends x.Fills y where
  noted : y.Annotated IsNoted

structure NotesArgs (xs ys : List Expr) : Prop extends FillsArgs xs ys where
  noted : AnnotatedArgs IsNoted ys

theorem Expr.Notes.settle {x y : Expr} (h : x.Notes y) (k : Domain) : x.Notes (y.settle k) :=
  ⟨h.toFills.trans (Expr.fills_settle k y), Expr.annotated_settle h.noted⟩

namespace Program

variable {α : Type} {truth : Expr → M Truth} {w w' : Workspace}

theorem of_guardedScope {v : String} {g : Option Call} {x : M α} {a : α}
    (h : (withScope [] do
      if let some c := g then restrictBy (·.restrict v c)
      x) w = .ok a w') :
    (∀ c ∈ g, c.isAbout v) ∧ withScope (guardScopeOf v g) x w = .ok a w' := by
  have hscope := (congrFun (withScope_restrictBy v g x) w).symm.trans h
  split at hscope
  · exact ⟨‹_›, hscope⟩
  · cases hscope

/-- Whatever inference makes of the expression is the expression with annotations. -/
def Annotates (truth : Expr → M Truth) (x : Expr) : Prop :=
  ∀ ⦃y : Expr⦄ ⦃w w' : Workspace⦄, inferExpr truth x w = .ok y w' → x.Notes y

def AnnotatesArgs (truth : Expr → M Truth) (xs : List Expr) : Prop :=
  ∀ ⦃ys : List Expr⦄ ⦃w w' : Workspace⦄, inferArgs truth xs w = .ok ys w' → NotesArgs xs ys

section

variable {x z : Expr} {xs : List Expr}

theorem annotates_var (v : String) (d : Option Domain) : Annotates truth ⟨.var v, d⟩ := by
  intro y w w' h
  rw [inferExpr] at h
  cases hd : Domain.known? d with
  | some k =>
    simp only [inferForm, hd] at h
    cases h
    exact ⟨.var fun _ hk' => hd.symm.trans hk', fun _ => Option.some_ne_none _, trivial⟩
  | none =>
    simp only [inferForm, hd] at h
    obtain ⟨r, w₁, -, h⟩ := exists_of_bind_eq_ok h
    obtain ⟨k, w₂, -, h⟩ := exists_of_bind_eq_ok h
    cases h
    exact ⟨.var (.of_unknown hd), fun _ => Option.some_ne_none _, trivial⟩

theorem annotates_num (n : Nat) (d : Option Domain) : Annotates truth ⟨.num n, d⟩ := by
  intro y w w' h
  cases h
  refine ⟨.num fun k hk => ?_, fun _ => Option.some_ne_none _, trivial⟩
  rw [(Domain.known?_eq_some.1 hk).1]
  rfl

theorem annotates_arith (op : Operation) (d : Option Domain) (hx : Annotates truth x)
    (hz : Annotates truth z) : Annotates truth ⟨.arith op x z, d⟩ := by
  intro y w w' h
  rw [inferExpr, inferForm] at h
  obtain ⟨x', w₁, hrun, h⟩ := exists_of_bind_eq_ok h
  obtain ⟨z', w₂, hrun', h⟩ := exists_of_bind_eq_ok h
  obtain ⟨c, w₃, -, h⟩ := exists_of_bind_eq_ok h
  obtain ⟨e, w₄, -, h⟩ := exists_of_bind_eq_ok h
  cases h
  have hx' := (hx hrun).settle e
  have hz' := (hz hrun').settle e
  exact ⟨.arith hx'.toFills hz'.toFills, fun _ => Option.some_ne_none _, hx'.noted, hz'.noted⟩

theorem annotates_compare (op : Comparison) (d : Option Domain) (hx : Annotates truth x)
    (hz : Annotates truth z) : Annotates truth ⟨.compare op x z, d⟩ := by
  intro y w w' h
  rw [inferExpr, inferForm] at h
  obtain ⟨x', w₁, hrun, h⟩ := exists_of_bind_eq_ok h
  obtain ⟨z', w₂, hrun', h⟩ := exists_of_bind_eq_ok h
  split at h
  · cases h
    have hx' := hx hrun
    have hz' := hz hrun'
    exact ⟨.compare hx'.toFills hz'.toFills, nofun, hx'.noted, hz'.noted⟩
  · obtain ⟨e, w₃, -, h⟩ := exists_of_bind_eq_ok h
    cases h
    have hx' := (hx hrun).settle e
    have hz' := (hz hrun').settle e
    exact ⟨.compare hx'.toFills hz'.toFills, nofun, hx'.noted, hz'.noted⟩

/-- A form with one operand, which keeps its annotation. -/
theorem annotates_one {f : Expr → Form} {d : Option Domain}
    (hinfer : inferForm truth d (f x) = do return ⟨f (← inferExpr truth x), d⟩)
    (hnotes : ∀ {x'}, x.Notes x' → Expr.Notes ⟨f x, d⟩ ⟨f x', d⟩) (hx : Annotates truth x) :
    Annotates truth ⟨f x, d⟩ := by
  intro y w w' h
  rw [inferExpr, hinfer] at h
  obtain ⟨x', w₁, hrun, h⟩ := exists_of_bind_eq_ok h
  cases h
  exact hnotes (hx hrun)

/-- A form with two operands, which keeps its annotation. -/
theorem annotates_two {f : Expr → Expr → Form} {d : Option Domain}
    (hinfer : inferForm truth d (f x z) =
      do return ⟨f (← inferExpr truth x) (← inferExpr truth z), d⟩)
    (hnotes : ∀ {x' z'}, x.Notes x' → z.Notes z' → Expr.Notes ⟨f x z, d⟩ ⟨f x' z', d⟩)
    (hx : Annotates truth x) (hz : Annotates truth z) : Annotates truth ⟨f x z, d⟩ := by
  intro y w w' h
  rw [inferExpr, hinfer] at h
  obtain ⟨x', w₁, hrun, h⟩ := exists_of_bind_eq_ok h
  obtain ⟨z', w₂, hrun', h⟩ := exists_of_bind_eq_ok h
  cases h
  exact hnotes (hx hrun) (hz hrun')

theorem annotates_and (d : Option Domain) (hx : Annotates truth x) (hz : Annotates truth z) :
    Annotates truth ⟨.and x z, d⟩ :=
  annotates_two (by rw [inferForm]) (fun hx' hz' =>
    ⟨.and hx'.toFills hz'.toFills, nofun, hx'.noted, hz'.noted⟩) hx hz

theorem annotates_or (d : Option Domain) (hx : Annotates truth x) (hz : Annotates truth z) :
    Annotates truth ⟨.or x z, d⟩ :=
  annotates_two (by rw [inferForm]) (fun hx' hz' =>
    ⟨.or hx'.toFills hz'.toFills, nofun, hx'.noted, hz'.noted⟩) hx hz

theorem annotates_not (d : Option Domain) (hx : Annotates truth x) :
    Annotates truth ⟨.not x, d⟩ :=
  annotates_one (by rw [inferForm]) (fun hx' => ⟨.not hx'.toFills, nofun, hx'.noted⟩) hx

theorem annotates_forSome (v : String) (g : Option Call) (d : Option Domain)
    (hx : Annotates truth x) : Annotates truth ⟨.forSome v g x, d⟩ := by
  intro y w w' h
  rw [inferExpr, inferForm] at h
  obtain ⟨w₁, h⟩ := exists_of_withScope_eq_ok (of_guardedScope h).2
  obtain ⟨x', w₂, hrun, h⟩ := exists_of_bind_eq_ok h
  cases h
  have hx' := hx hrun
  exact ⟨.forSome hx'.toFills, nofun, hx'.noted⟩

theorem annotates_call (n : String) (d : Option Domain) (hxs : AnnotatesArgs truth xs) :
    Annotates truth ⟨.call ⟨n, xs⟩, d⟩ := by
  intro y w w' h
  rw [inferExpr, inferForm, inferCall] at h
  obtain ⟨c, w₁, hc, h⟩ := exists_of_bind_eq_ok h
  obtain ⟨ys, w₂, hrun, hc⟩ := exists_of_bind_eq_ok hc
  cases hc
  cases h
  have hxs' := hxs hrun
  exact ⟨.call hxs'.toFillsArgs, nofun, hxs'.noted⟩

theorem annotates_index (name : String) (d : Option Domain) (hx : Annotates truth x) :
    Annotates truth ⟨.index name x, d⟩ :=
  annotates_one (by rw [inferForm]) (fun hx' => ⟨.index hx'.toFills, nofun, hx'.noted⟩) hx

theorem annotates_rangeEq {s e t f : Expr} (name name' : String) (d : Option Domain)
    (hs : Annotates truth s) (he : Annotates truth e) (ht : Annotates truth t)
    (hf : Annotates truth f) : Annotates truth ⟨.rangeEq name s e name' t f, d⟩ := by
  intro y w w' h
  rw [inferExpr, inferForm] at h
  obtain ⟨s', w₁, hrun₁, h⟩ := exists_of_bind_eq_ok h
  obtain ⟨e', w₂, hrun₂, h⟩ := exists_of_bind_eq_ok h
  obtain ⟨t', w₃, hrun₃, h⟩ := exists_of_bind_eq_ok h
  obtain ⟨f', w₄, hrun₄, h⟩ := exists_of_bind_eq_ok h
  cases h
  have hs' := hs hrun₁
  have he' := he hrun₂
  have ht' := ht hrun₃
  have hf' := hf hrun₄
  exact ⟨.rangeEq hs'.toFills he'.toFills ht'.toFills hf'.toFills, nofun,
    ⟨hs'.noted, he'.noted⟩, ht'.noted, hf'.noted⟩

theorem annotatesArgs_cons (hx : Annotates truth x) (hxs : AnnotatesArgs truth xs) :
    AnnotatesArgs truth (x :: xs) := by
  intro y w w' h
  rw [inferArgs] at h
  obtain ⟨x', w₁, hrun, h⟩ := exists_of_bind_eq_ok h
  obtain ⟨ys', w₂, hrun', h⟩ := exists_of_bind_eq_ok h
  cases h
  have hx' := hx hrun
  have hxs' := hxs hrun'
  exact ⟨.cons hx'.toFills hxs'.toFillsArgs, hx'.noted, hxs'.noted⟩

end

mutual

theorem annotates : ∀ x : Expr, Annotates truth x
  | ⟨f, d⟩ => annotates_form f d

theorem annotates_form : ∀ (f : Form) (d : Option Domain), Annotates truth ⟨f, d⟩
  | .var v, d => annotates_var v d
  | .num n, d => annotates_num n d
  | .truth _, _ | .automaton _, _ => fun _ _ _ h => by
    cases h
    exact ⟨.refl _, nofun, trivial⟩
  | .arith op x z, d => annotates_arith op d (annotates x) (annotates z)
  | .compare op x z, d => annotates_compare op d (annotates x) (annotates z)
  | .and x z, d => annotates_and d (annotates x) (annotates z)
  | .or x z, d => annotates_or d (annotates x) (annotates z)
  | .not x, d => annotates_not d (annotates x)
  | .forSome v g x, d => annotates_forSome v g d (annotates x)
  | .call ⟨n, xs⟩, d => annotates_call n d (annotatesArgs xs)
  | .index name i, d => annotates_index name d (annotates i)
  | .rangeEq name s e name' t f, d =>
    annotates_rangeEq name name' d (annotates s) (annotates e) (annotates t) (annotates f)

theorem annotatesArgs : ∀ xs : List Expr, AnnotatesArgs truth xs
  | [] => fun _ _ _ h => by
    cases h
    exact ⟨.nil, trivial⟩
  | x :: xs => annotatesArgs_cons (annotates x) (annotatesArgs xs)

end

/-- Inference changes annotations only. Every integer expression gets a domain, and variables and
literals that have one keep it. -/
theorem infer_annotates {x y : Expr} (h : infer truth x w = .ok y w') :
    x.Fills y ∧ y.Annotated IsKnown := by
  obtain ⟨z, w₁, hz, h⟩ := exists_of_bind_eq_ok h
  cases h
  have hz' := annotates x hz
  exact ⟨hz'.toFills.trans (Expr.fills_close z), Expr.annotated_close hz'.noted⟩

end Program

end RegularArithmetic
