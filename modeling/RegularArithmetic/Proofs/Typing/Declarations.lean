import RegularArithmetic.Program.Basic
import RegularArithmetic.Proofs.Typing.Dispatch

/-!
The table of declarations. A declaration takes the place of the one whose shape has the same name,
whatever arguments the two shapes have; declarations with shapes of different names do not disturb
each other, in whatever order they are made.
-/

set_option autoImplicit false

namespace RegularArithmetic

open Program.addDeclaration (place)

variable {ds : List Declaration} {d e : Declaration} {c : Call}

theorem Call.name_subst {a b : String} (c : Call) : (c.subst a b).name = c.name := by
  obtain ⟨name, xs⟩ := c
  rfl

namespace Declaration

/-- The names of the shapes. -/
def names (ds : List Declaration) : List String := ds.map (·.shape.name)

theorem name_eq_of_bind? {bound : List (String × Expr)} (h : d.bind? c = some bound) :
    d.shape.name = c.name := by
  rw [bind?] at h
  split at h
  · exact (Call.name_subst d.shape).symm.trans (Option.ite_none_right_eq_some.1 h).1.1
  · cases h

theorem bind?_eq_none (h : d.shape.name ≠ c.name) : d.bind? c = none :=
  Option.eq_none_iff_forall_ne_some.2 fun _ hbound => h (name_eq_of_bind? hbound)

theorem place_of_not_mem : ∀ {ds : List Declaration}, e.shape.name ∉ names ds →
    place e ds = ds ++ [e]
  | [], _ => rfl
  | d :: ds, h => by
    obtain ⟨hd, hds⟩ := List.ne_and_not_mem_of_not_mem_cons h
    rw [place, if_neg (Ne.symm hd), place_of_not_mem hds]
    rfl

theorem names_place_of_mem : ∀ {ds : List Declaration}, e.shape.name ∈ names ds →
    names (place e ds) = names ds
  | [], h => nomatch h
  | d :: ds, h => by
    rw [place]
    split
    · exact congrArg (· :: names ds) (Eq.symm ‹_›)
    · have hds : e.shape.name ∈ names ds :=
        (List.mem_cons.1 h).resolve_left (Ne.symm ‹_›)
      exact congrArg (d.shape.name :: ·) (names_place_of_mem hds)

theorem nodup_names_place (h : (names ds).Nodup) : (names (place e ds)).Nodup := by
  by_cases he : e.shape.name ∈ names ds
  · rwa [names_place_of_mem he]
  · rw [place_of_not_mem he, names, List.map_append]
    refine List.nodup_append.2 ⟨h, List.nodup_singleton _, fun a ha b hb hab => ?_⟩
    rw [hab, List.mem_singleton.1 hb] at ha
    exact he ha

theorem mem_place : ∀ {ds : List Declaration}, e ∈ place e ds
  | [] => List.mem_singleton_self e
  | d :: ds => by
    rw [place]
    split
    · exact List.mem_cons_self
    · exact List.mem_cons_of_mem d mem_place

/-- Once a declaration is made, it is the only one with its name. -/
theorem eq_of_mem_place (h : (names ds).Nodup) (hd : d ∈ place e ds)
    (hname : d.shape.name = e.shape.name) : d = e :=
  List.inj_on_of_nodup_map (nodup_names_place h) hd mem_place hname

-- No restriction has both shapes, and still one declaration takes the place of the other.
example : place ⟨⟨"Mod", [.var "x", .num 3]⟩, []⟩ [⟨⟨"Mod", [.var "x", .num 2]⟩, []⟩] =
    [⟨⟨"Mod", [.var "x", .num 3]⟩, []⟩] := rfl

theorem place_insert (hne : d.shape.name ≠ e.shape.name) : ∀ xs ys : List Declaration,
    ∃ xs' ys', place d (xs ++ ys) = xs' ++ ys' ∧ place d (xs ++ e :: ys) = xs' ++ e :: ys'
  | [], ys => ⟨[], place d ys, rfl, by rw [List.nil_append, place, if_neg (Ne.symm hne)]; rfl⟩
  | x :: xs, ys => by
    by_cases hx : x.shape.name = d.shape.name
    · exact ⟨d :: xs, ys, by rw [List.cons_append, place, if_pos hx]; rfl,
        by rw [List.cons_append, place, if_pos hx]; rfl⟩
    · obtain ⟨xs', ys', h, h'⟩ := place_insert hne xs ys
      exact ⟨x :: xs', ys', by rw [List.cons_append, place, if_neg hx, h]; rfl,
        by rw [List.cons_append, place, if_neg hx, h']; rfl⟩

end Declaration

open Declaration (names place_insert place_of_not_mem)

namespace Program

/-- The program with some more declarations. -/
def declare (p : Program) (ds : List Declaration) : Program := ds.foldl addDeclaration p

theorem nodup_names_declare {p : Program} (h : (names p.declarations).Nodup)
    (ds : List Declaration) : (names (p.declare ds).declarations).Nodup := by
  induction ds generalizing p with
  | nil => exact h
  | cons d ds ih => exact ih (p := p.addDeclaration d) (Declaration.nodup_names_place h)

theorem declarations_declare_insert (hd : ∀ d ∈ ds, d.shape.name ≠ e.shape.name) :
    ∀ {p q : Program} {xs ys : List Declaration}, p.declarations = xs ++ ys →
      q.declarations = xs ++ e :: ys → ∃ xs' ys', (p.declare ds).declarations = xs' ++ ys' ∧
        (q.declare ds).declarations = xs' ++ e :: ys' := by
  induction ds with
  | nil => exact fun hp hq => ⟨_, _, hp, hq⟩
  | cons d ds ih =>
    intro p q xs ys hp hq
    obtain ⟨hne, hds⟩ := List.forall_mem_cons.1 hd
    obtain ⟨xs', ys', h, h'⟩ := place_insert hne xs ys
    exact ih hds (p := p.addDeclaration d) (q := q.addDeclaration d)
      ((congrArg (place d) hp).trans h) ((congrArg (place d) hq).trans h')

theorem declarations_insert {p : Program} {l₁ l₂ : List Declaration}
    (hfresh : e.shape.name ∉ names (p.declare l₁).declarations)
    (hlater : ∀ d ∈ l₂, d.shape.name ≠ e.shape.name) :
    ∃ xs ys, (p.declare (l₁ ++ l₂)).declarations = xs ++ ys ∧
      (p.declare (l₁ ++ e :: l₂)).declarations = xs ++ e :: ys := by
  have hplace : ((p.declare l₁).addDeclaration e).declarations =
      (p.declare l₁).declarations ++ [e] := place_of_not_mem hfresh
  simp only [declare, List.foldl_append, List.foldl_cons]
  exact declarations_declare_insert hlater (List.append_nil _).symm hplace

end Program

namespace Pattern

variable {method : String} {domains : List Domain}

theorem ofDomain_insert {xs ys : List Declaration} {domain : Domain}
    (h : ∀ r, domain = .restricted r → e.bind? r = none) :
    ofDomain (xs ++ e :: ys) method domain = ofDomain (xs ++ ys) method domain := by
  cases domain with
  | any => rfl
  | pending => rfl
  | restricted r =>
    simp only [ofDomain_restricted, List.filterMap_append, List.filterMap_cons,
      offer_eq_none (h r rfl)]

theorem offers_eq_nil {r : Call} (h : r.name ∉ names ds) : ds.filterMap (offer method r) = [] :=
  List.filterMap_eq_nil_iff.2 fun _ hd =>
    offer_eq_none (Declaration.bind?_eq_none fun hname => h (hname ▸ List.mem_map_of_mem hd))

theorem offers_place {r : Call} (hname : e.shape.name = r.name) : ∀ {ds : List Declaration},
    (names ds).Nodup → (place e ds).filterMap (offer method r) = (offer method r e).toList
  | [], _ => by cases h : offer method r e <;> simp [place, h]
  | d :: ds, h => by
    obtain ⟨hd, hds⟩ := List.nodup_cons.1 h
    rw [place]
    split
    · rename_i heq
      have hr : r.name ∉ names ds := (heq.trans hname) ▸ hd
      rw [List.filterMap_cons, offers_eq_nil hr]
      cases offer method r e <;> rfl
    · rename_i hne
      rw [List.filterMap_cons, offer_eq_none (Declaration.bind?_eq_none (hname ▸ hne)),
        offers_place hname hds]

/-- For a restriction with the name of its shape, the declaration made last is the only one that is
asked: one made before, of another shape with that name, has no effect any more. -/
theorem ofDomain_place {r : Call} (h : (names ds).Nodup) (hname : e.shape.name = r.name) :
    ofDomain (place e ds) method (.restricted r) = (offer method r e).getD .wildcard := by
  rw [ofDomain_restricted, offers_place hname h]
  cases offer method r e <;> rfl

theorem foldlM_insert {xs ys : List Declaration}
    (h : ∀ domain ∈ domains, ∀ r, domain = .restricted r → e.bind? r = none) (p : Pattern) :
    domains.foldlM (fun p d => p.unify (ofDomain (xs ++ e :: ys) method d)) p =
      domains.foldlM (fun p d => p.unify (ofDomain (xs ++ ys) method d)) p := by
  induction domains generalizing p with
  | nil => rfl
  | cons domain domains ih =>
    obtain ⟨hdomain, hdomains⟩ := List.forall_mem_cons.1 h
    rw [List.foldlM_cons, List.foldlM_cons, ofDomain_insert hdomain]
    exact bind_congr fun q => ih hdomains q

end Pattern

theorem resolve_insert {xs ys : List Declaration} {callable : String → Bool} {domains : List Domain}
    (h : ∀ domain ∈ domains, ∀ r, domain = .restricted r → e.bind? r = none)
    (hname : callable c.name = true ∨ ∃ d ∈ xs ++ ys, (d.methods.lookup c.name).isSome) :
    resolve (xs ++ e :: ys) callable c domains = resolve (xs ++ ys) callable c domains := by
  have hany : (!callable c.name && (xs ++ e :: ys).any fun d => (d.methods.lookup c.name).isSome) =
      (!callable c.name && (xs ++ ys).any fun d => (d.methods.lookup c.name).isSome) := by
    rcases hname with hcallable | ⟨d, hd, hmethod⟩
    · rw [hcallable]
      rfl
    · have hwith : ((xs ++ e :: ys).any fun d => (d.methods.lookup c.name).isSome) = true :=
        List.any_eq_true.2 ⟨d, List.mem_append.2 ((List.mem_append.1 hd).imp_right
          (List.mem_cons_of_mem e)), hmethod⟩
      rw [hwith, List.any_eq_true.2 ⟨d, hd, hmethod⟩]
  simp only [resolve, Pattern.foldlM_insert h, hany]

/-- In whatever order declarations are made, a call resolves as if one of them had never been
made, if that one is for none of its arguments and has a name of its own. -/
theorem resolve_declare_insert {p : Program} {l₁ l₂ : List Declaration} {callable : String → Bool}
    {domains : List Domain} (hfresh : e.shape.name ∉ names (p.declare l₁).declarations)
    (hlater : ∀ d ∈ l₂, d.shape.name ≠ e.shape.name)
    (h : ∀ domain ∈ domains, ∀ r, domain = .restricted r → e.bind? r = none)
    (hname : callable c.name = true ∨
      ∃ d ∈ (p.declare (l₁ ++ l₂)).declarations, (d.methods.lookup c.name).isSome) :
    resolve (p.declare (l₁ ++ e :: l₂)).declarations callable c domains =
      resolve (p.declare (l₁ ++ l₂)).declarations callable c domains := by
  obtain ⟨xs, ys, hwithout, hwith⟩ := Program.declarations_insert hfresh hlater
  rw [hwith, hwithout]
  exact resolve_insert h (hwithout ▸ hname)

def oddStep : Declaration :=
  ⟨⟨"Odd", [.var "x"]⟩, [("step", ⟨"step_odd", [.var "x", .var "y"]⟩)]⟩

theorem resolve_declare_insert_step :
    resolve ((Program.blank ⟨6, none, true, true⟩).declare
        (oddStep :: stepDeclarations)).declarations (fun _ => false) stepCall [fives, .any] =
      resolve ((Program.blank ⟨6, none, true, true⟩).declare stepDeclarations).declarations
        (fun _ => false) stepCall [fives, .any] := by
  have hbound : ∀ domain ∈ [fives, .any], ∀ r, domain = .restricted r → oddStep.bind? r = none := by
    intro domain hdomain r hr
    obtain rfl | hdomain := List.mem_cons.1 hdomain
    · cases hr
      rfl
    · cases List.mem_singleton.1 hdomain
      cases hr
  have hnone : oddStep.shape.name ∉ Declaration.names
      ((Program.blank ⟨6, none, true, true⟩).declare []).declarations := List.not_mem_nil
  exact resolve_declare_insert hnone (by decide) hbound (.inr ⟨_, List.mem_cons_self, rfl⟩)

end RegularArithmetic
