import RegularArithmetic.Proofs.Program.Definition

/-!
The relations of base 2. Once they are defined and put into the places that evaluation asks for,
these names say what they promise.
-/

set_option autoImplicit false

namespace RegularArithmetic

open Binary (IsSum AreEqual IsLess IsZero)
open Program (Engine)

/-- What the names of the relations of base 2 say, and the places that they are put into; other
names say nothing. -/
def Relations.binary : Relations := fun name =>
  if name ∈ ["adder", "bin_add"] then IsSum
  else if name ∈ ["equal", "bin_equal"] then AreEqual
  else if name ∈ ["less", "bin_less"] then IsLess
  else if name = "bin_zero" then IsZero
  else fun _ => False

theorem Relations.count_binary : Relations.binary.Count := ⟨rfl, rfl, rfl⟩

theorem Relations.define_eq_self {Γ : Relations} {name : String} {R : List Nat → Prop}
    (h : Γ name = R) : Γ.define name R = Γ := by
  subst h
  exact Function.update_eq_self name Γ

theorem exists_map_eq : ∀ {args : List String} {as : List Nat}, args.Nodup →
    as.length = args.length → ∃ τ : Valuation, args.map τ = as
  | [], [], _, _ => ⟨fun _ => 0, rfl⟩
  | v :: args, a :: as, hnodup, hlength => by
    obtain ⟨hv, hnodup⟩ := List.nodup_cons.1 hnodup
    obtain ⟨τ, hτ⟩ := exists_map_eq hnodup (Nat.succ.inj hlength)
    refine ⟨Function.update τ v a, ?_⟩
    rw [List.map_cons, Function.update_self, ← hτ]
    refine congrArg _ (List.map_congr_left fun u hu => Function.update_of_ne (fun heq => ?_) a τ)
    exact hv (heq ▸ hu)

theorem definedBy_self {args : List String} (hnodup : args.Nodup) {R : List Nat → Prop}
    (hR : ∀ as, R as → as.length = args.length) :
    DefinedBy args (fun τ => R (args.map τ)) = R := by
  funext as
  refine propext ⟨?_, fun h => ?_⟩
  · rintro ⟨τ, rfl, h⟩
    exact h
  · obtain ⟨τ, rfl⟩ := exists_map_eq hnodup (hR as h)
    exact ⟨τ, rfl, h⟩

namespace Workspace

variable {Γ Γ' : Relations} {R : List Nat → Prop} {w w' : Workspace} {config : Config}
  {context : Std.TreeMap String String}

theorem AtRest.define_literal (h : w.AtRest Γ) {name : String} (hd : w.program.Direct name)
    (hcontext : name ∉ ["adder", "equal", "less"]) {args : List String} (hnodup : args.Nodup)
    (hown : ∀ v ∈ args, IsOwn v) (hR : ∀ as, R as → as.length = args.length) {l : Literal}
    (hl : l.relation.Means w.alphabet.diagrams fun _ => R) (hvars : l.vars.map (·.1) = args)
    (hrun : Program.define (.ofBody name args [] (.automaton l)) w = .ok () w') :
    w'.AtRest (Γ.define name R) ∧ w.Keeps w' := by
  have hbody : (w.prepared (.ofBody name args [] (.automaton l)) (.automaton l)).body =
      .automaton l := by
    show (if _ then _ else _) = _
    split <;> rfl
  have hstates : (w.prepared (.ofBody name args [] (.automaton l)) (.automaton l)).States Γ R
      (w.callable name) {l} fun τ => R (args.map τ) := by
    refine ⟨rfl, rfl, rfl, hnodup, hown, ?_, fun B _ => ?_⟩
    · rw [hbody]
      refine ⟨⟨rfl, fun v hv => hown _ (hvars ▸ List.mem_map_of_mem hv)⟩, fun _ => trivial⟩
    · rw [hbody]
      have hholds : ∀ n τ, (Expr.automaton l).Holds (Γ.interpretation R) B n τ ↔
          R (args.map τ) := by
        intro n τ
        rw [← hvars, List.map_map]
        exact Iff.rfl
      exact ⟨⟨args, fun τ τ' hτ => by rw [List.map_congr_left hτ]⟩, fun n τ _ => hholds n τ⟩
  have hdefine : w'.AtRest (Γ.define name (DefinedBy args fun τ => R (args.map τ))) ∧ w.Keeps w' :=
    (h.define (q := .ofBody name args [] (.automaton l)) hd hcontext rfl
      (Program.withScope_eq_ok rfl) hstates (fun l' hl' => hl' ▸ hl)).1 w' hrun
  rwa [definedBy_self hnodup hR] at hdefine

/-- A state at rest with these aliases and settings. -/
structure Idle (Γ : Relations) (aliases : Std.TreeMap String String) (config : Config)
    (w : Workspace) : Prop where
  atRest : w.AtRest Γ
  context : w.program.context = aliases
  config : w.program.config = config

theorem Idle.mono (h : w.Idle Γ context config) (hle : w ≤ w') : w'.Idle Γ context config :=
  ⟨h.atRest.mono hle, hle.context.trans h.context, hle.config.trans h.config⟩

theorem Idle.keeps (h : w.Idle Γ context config) (hrest : w'.AtRest Γ') (hkeeps : w.Keeps w') :
    w'.Idle Γ' context config :=
  ⟨hrest, hkeeps.context.trans h.context, hkeeps.config.trans h.config⟩

/-- To define one of the relations of base 2 changes nothing about what the names say. -/
theorem Idle.defineRelation (h : w.Idle .binary ∅ config) {name : String}
    (hcontext : name ∉ ["adder", "equal", "less"]) (hname : Relations.binary name = R)
    {args : List String} (hnodup : args.Nodup) (hown : ∀ v ∈ args, IsOwn v)
    (hR : ∀ as, R as → as.length = args.length) {r : Relation}
    (hlength : r.args.length = args.length) (hr : r.Means w.alphabet.diagrams fun _ => R)
    (hrun : Program.defineRelation name args r w = .ok () w') : w'.Idle .binary ∅ config := by
  let l : Literal := ⟨name, w.alphabet.literals, r.automaton, args.zip r.args⟩
  let w₁ : Workspace := ⟨{ w.alphabet with literals := w.alphabet.literals + 1 }, w.program⟩
  have hle : w ≤ w₁ := later_alphabet w.program ⟨le_rfl, List.prefix_rfl⟩
  have hdefine : Program.define (.ofBody name args [] (.automaton l)) w₁ = .ok () w' := hrun
  have hd : w₁.program.Direct name := by
    have hnone : ∀ other : String, w.program.context[other]? = none := fun other => by
      rw [h.context, Std.TreeMap.getElem?_emptyc]
    exact ⟨fun other => by simp [w₁, hnone], hnone name⟩
  have hliteral : l.relation = r := by
    have hsnd : (args.zip r.args).map Prod.snd = r.args := List.map_snd_zip (Nat.le_of_eq hlength)
    show (⟨r.automaton, (args.zip r.args).map Prod.snd⟩ : Relation) = r
    rw [hsnd]
  obtain ⟨hrest, hkeeps⟩ := (h.mono hle).atRest.define_literal hd hcontext hnodup hown hR
    (l := l) (hliteral ▸ hr) (map_fst_zip_of_length hlength) hdefine
  rw [Relations.define_eq_self hname] at hrest
  exact (h.mono hle).keeps hrest hkeeps

theorem Idle.defineMade (h : w.Idle .binary ∅ config) {name : String}
    (hcontext : name ∉ ["adder", "equal", "less"]) (hname : Relations.binary name = R)
    {args : List String} (hnodup : args.Nodup) (hown : ∀ v ∈ args, IsOwn v)
    (hR : ∀ as, R as → as.length = args.length) {x : Alphabet.M Relation}
    (hx : ∀ y : Alphabet, y.diagrams.Sound → Yields x y fun r z =>
      r.args.length = args.length ∧ r.Means z.diagrams fun _ => R) {r : Relation} {w₁ : Workspace}
    (hmake : (liftM x : Program.M Relation) w = .ok r w₁)
    (hdefine : Program.defineRelation name args r w₁ = .ok () w') : w'.Idle .binary ∅ config := by
  obtain ⟨hle, ⟨hlength, hr⟩, -⟩ :=
    (Program.yields_liftAlphabet (hx w.alphabet h.atRest.right.sound)).of_ok hmake
  exact (h.mono hle).defineRelation hcontext hname hnodup hown hR hlength hr hdefine

/-- The aliases that relations of base 2 are found under. -/
def aliases : Std.TreeMap String String :=
  (((∅ : Std.TreeMap String String).insert "adder" "bin_add").insert "equal" "bin_equal").insert
    "less" "bin_less"

theorem aliases_cases {name target : String} (h : aliases[name]? = some target) :
    name = "adder" ∧ target = "bin_add" ∨ name = "equal" ∧ target = "bin_equal" ∨
      name = "less" ∧ target = "bin_less" := by
  simp only [aliases, Std.TreeMap.getElem?_insert, Std.LawfulEqCmp.compare_eq_iff_eq,
    Std.TreeMap.getElem?_emptyc] at h
  split at h
  · cases h
    exact .inr (.inr ⟨Eq.symm ‹_›, rfl⟩)
  · split at h
    · cases h
      exact .inr (.inl ⟨Eq.symm ‹_›, rfl⟩)
    · split at h
      · cases h
        exact .inl ⟨Eq.symm ‹_›, rfl⟩
      · cases h

theorem agree_of_standsFor {p : Program} {k : Nat} {name target : String}
    (h : ∀ name target : String, p.context[name]? = some target → Γ name = Γ target)
    (hstands : p.StandsFor k name target) : Γ name = Γ target := by
  induction hstands with
  | self => rfl
  | next _ halias _ ih => exact (h _ _ halias).trans ih

theorem AtRest.withAliases (h : w.AtRest Γ) {context : Std.TreeMap String String}
    (hcontext : ∀ name target : String, context[name]? = some target → Γ name = Γ target) :
    AtRest Γ ⟨w.alphabet, { w.program with context }⟩ where
  count := h.count
  right := by
    refine h.right.restate h.count h.count rfl rfl rfl ?_
    intro name target q r hresolve hq hr
    obtain ⟨k, -, hstands⟩ := Program.resolveAlias_eq_ok_iff.1 hresolve
    rw [agree_of_standsFor hcontext hstands]
    have hself := Program.resolveAlias_self (p := w.program) hstands.contains
    exact h.right.relations target trivial target q r hself hq hr
  framed := ⟨h.framed.nonempty, h.framed.vars⟩
  restrictions := h.restrictions
  inProgress := h.inProgress
  evaluated := h.evaluated

theorem length_of_isSum {as : List Nat} (h : IsSum as) : as.length = 3 := by
  unfold IsSum at h
  split at h
  · rfl
  · exact h.elim

theorem length_of_areEqual {as : List Nat} (h : AreEqual as) : as.length = 2 := by
  unfold AreEqual at h
  split at h
  · rfl
  · exact h.elim

theorem length_of_isLess {as : List Nat} (h : IsLess as) : as.length = 2 := by
  unfold IsLess at h
  split at h
  · rfl
  · exact h.elim

theorem length_of_isZero {as : List Nat} (h : IsZero as) : as.length = 1 := by
  unfold IsZero at h
  split at h
  · rfl
  · exact h.elim

/-- Once the relations of base 2 are installed, their names and the places that evaluation asks for
say what they promise. -/
theorem Idle.installBinary (h : w.Idle .binary ∅ config)
    (hrun : Program.installBinary w = .ok () w') : w'.Idle .binary aliases config := by
  obtain ⟨_, w₁, hadd, hrun⟩ := exists_of_bind_eq_ok hrun
  obtain ⟨_, w₂, hdefineAdd, hrun⟩ := exists_of_bind_eq_ok hrun
  obtain ⟨_, w₃, hequal, hrun⟩ := exists_of_bind_eq_ok hrun
  obtain ⟨_, w₄, hdefineEqual, hrun⟩ := exists_of_bind_eq_ok hrun
  obtain ⟨_, w₅, hless, hrun⟩ := exists_of_bind_eq_ok hrun
  obtain ⟨_, w₆, hdefineLess, hrun⟩ := exists_of_bind_eq_ok hrun
  obtain ⟨_, w₇, hzero, hrun⟩ := exists_of_bind_eq_ok hrun
  obtain ⟨_, w₈, hdefineZero, hrun⟩ := exists_of_bind_eq_ok hrun
  have h₂ : w₂.Idle .binary ∅ config :=
    h.defineMade (R := IsSum) (by decide) rfl (by decide) (by decide)
      (fun _ => length_of_isSum) (fun _ => Binary.yields_add) hadd hdefineAdd
  have h₄ : w₄.Idle .binary ∅ config :=
    h₂.defineMade (R := AreEqual) (by decide) rfl (by decide) (by decide)
      (fun _ => length_of_areEqual) (fun _ => Binary.yields_equal) hequal hdefineEqual
  have h₆ : w₆.Idle .binary ∅ config :=
    h₄.defineMade (R := IsLess) (by decide) rfl (by decide) (by decide)
      (fun _ => length_of_isLess) (fun _ => Binary.yields_less) hless hdefineLess
  have h₈ : w₈.Idle .binary ∅ config :=
    h₆.defineMade (R := IsZero) (by decide) rfl (by decide) (by decide)
      (fun _ => length_of_isZero) (fun _ => Binary.yields_zero) hzero hdefineZero
  cases hrun
  have haliases : ((w₈.program.context.insert "adder" "bin_add").insert "equal" "bin_equal").insert
      "less" "bin_less" = aliases := by
    rw [h₈.context]
    rfl
  refine ⟨?_, haliases, h₈.config⟩
  show AtRest .binary ⟨w₈.alphabet, { w₈.program with context := _ }⟩
  refine h₈.atRest.withAliases fun name target hname => ?_
  have hname : aliases[name]? = some target := haliases ▸ hname
  obtain ⟨rfl, rfl⟩ | ⟨rfl, rfl⟩ | ⟨rfl, rfl⟩ := aliases_cases hname <;> rfl

theorem idle_blank (config : Config) {x : Alphabet} (hx : x.diagrams.Sound) :
    Idle .binary ∅ config ⟨x, .blank config⟩ where
  atRest := {
    count := Relations.count_binary
    right := {
      sound := hx
      declarations := rfl
      names := Set.subset_univ _
      relations := fun name _ target q r _ hq => by
        simp [Program.blank] at hq
      settled := fun name hname => absurd hname (Set.notMem_empty name)
      constants := fun n d v hv => absurd hv List.not_mem_nil
      temporary := fun d n y hy => nomatch hy
      known := fun d n hn => absurd rfl hn }
    framed := by
      refine ⟨List.cons_ne_nil _ _, fun f hf v p hp => ?_⟩
      obtain rfl := List.mem_singleton.1 hf
      cases hp
    restrictions := rfl
    inProgress := rfl
    evaluated := fun name q hq => by simp [Program.blank] at hq }
  context := rfl
  config := rfl

/-- The relations of base 2 can be defined in an empty program. -/
def canInstall : Bool :=
  (Alphabet.empty? 6).toOption.any fun x =>
    match Program.installBinary ⟨{ x with budget := none }, .blank ⟨6, none, true, true⟩⟩ with
    | .ok _ _ => true
    | .error _ _ => false

theorem exists_installBinary_eq_ok : ∃ x w, Alphabet.empty? 6 = .ok x ∧
    Program.installBinary ⟨{ x with budget := none }, .blank ⟨6, none, true, true⟩⟩ =
      .ok () w := by
  have hinstalls : canInstall = true := by decide +kernel
  cases hx : Alphabet.empty? 6 with
  | error e => simp [canInstall, hx, Except.toOption] at hinstalls
  | ok x =>
    cases hw : Program.installBinary ⟨{ x with budget := none }, .blank ⟨6, none, true, true⟩⟩ with
    | ok u w => exact ⟨x, w, rfl, hw⟩
    | error e w => simp [canInstall, hx, hw, Except.toOption] at hinstalls

theorem exists_idle : ∃ w : Workspace, w.Idle .binary aliases ⟨6, none, true, true⟩ := by
  obtain ⟨x, w, hx, hw⟩ := exists_installBinary_eq_ok
  have hsound := Alphabet.sound_of_empty? hx
  exact ⟨w, (idle_blank _ (x := { x with budget := none }) hsound).installBinary hw⟩

end Workspace

end RegularArithmetic
