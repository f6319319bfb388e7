import RegularArithmetic.Proofs.Program.Reuse
import RegularArithmetic.Proofs.Session.Plain
import RegularArithmetic.Proofs.Session.Steps

/-!
What a session remembers of its predicates. The memo of a predicate is the same, with its closure
and truth value, until a step supplies another predicate of its name; calls read it under the
names of their variables.
-/

set_option autoImplicit false

namespace RegularArithmetic

open Program (binaryNames)

/-- The step supplies a predicate of the name. -/
def Definition.Names (name : String) : Definition → Prop
  | .predicate q => q.name = name
  | .load _ other _ => other = name
  | _ => False

def Definition.IsNested : Definition → Prop
  | .nested _ => True
  | _ => False

variable {P Q : Definition → Prop}

mutual

theorem reaches_or : ∀ (d : Definition) (s : Session), d.Reaches (fun d => P d ∨ Q d) s →
    d.Reaches P s ∨ d.Reaches Q s
  | .nested ds, ⟨⟨_, _⟩, _, _⟩, h => by
    obtain (hP | hQ) | ⟨s, hs, hds⟩ := h
    · exact .inl (.inl hP)
    · exact .inr (.inl hQ)
    · exact (reachesAny_or ds s hds).imp (fun h => .inr ⟨s, hs, h⟩) fun h => .inr ⟨s, hs, h⟩
  | .ifDefined other yes no, s, h => by
    simp only [Definition.Reaches] at h ⊢
    by_cases hdefined : s.workspace.program.predicates.contains other
    · simp only [if_pos hdefined] at h ⊢
      exact reachesAny_or yes s h
    · simp only [if_neg hdefined] at h ⊢
      exact reachesAny_or no s h
  | .byTruth x always never sometimes, ⟨w, report, files⟩, ⟨t, w', hw', h⟩ => by
    cases t with
    | always =>
      exact (reachesAny_or always _ h).imp (fun h => ⟨_, w', hw', h⟩) fun h => ⟨_, w', hw', h⟩
    | never =>
      exact (reachesAny_or never _ h).imp (fun h => ⟨_, w', hw', h⟩) fun h => ⟨_, w', hw', h⟩
    | sometimes =>
      exact (reachesAny_or sometimes _ h).imp (fun h => ⟨_, w', hw', h⟩) fun h => ⟨_, w', hw', h⟩
  | .predicate _, _, h | .load .., _, h | .restrict .., _, h | .forget _, _, h
  | .declaration _, _, h | .context .., _, h | .assertion .., _, h | .save .., _, h => h

theorem reachesAny_or : ∀ (ds : List Definition) (s : Session),
    reachesAny (fun d => P d ∨ Q d) ds s → reachesAny P ds s ∨ reachesAny Q ds s
  | [], _, h => h.elim
  | d :: ds, s, h => by
    obtain hd | ⟨s', hs', hds⟩ := h
    · exact (reaches_or d s hd).imp .inl .inl
    · exact (reachesAny_or ds s' hds).imp (fun h => .inr ⟨s', hs', h⟩) fun h => .inr ⟨s', hs', h⟩

end

namespace Session

/-- The session later on: its program has kept its frames and the memos of the names in `S`. -/
def Keeps (S : Set String) : Session → Session → Prop :=
  InvImage (Program.Keeps S) fun s => s.workspace.program

variable {α : Type} {S : Set String} {s s' : Session} {name : String}

instance : IsPreorder Session (Keeps S) := inferInstanceAs (IsPreorder Session (Over _))

theorem keeps_merge {outer inner : Program} (hregistered : inner.Registered)
    (hnone : ∀ name ∈ S, inner.predicates[name]? = none) :
    Program.Keeps S outer (merge outer inner) := by
  have hpredicates := List.foldlRecOn inner.predicates.toList (fun p e => p.adopt e.2)
    (motive := Program.Keeps S outer) (.of_eq rfl rfl) fun p hp e he => by
      have hfound := Std.TreeMap.mem_toList_iff_getElem?_eq_some.1 he
      have hq := hregistered e.1 e.2 hfound
      refine ⟨hp.frames, hp.spares.adopt (fun _ => hq.name_eq.symm ▸ hq) fun _ hname => ?_⟩
      rw [hq.name_eq] at hname
      exact nomatch (hnone _ hname).symm.trans hfound
  have hdeclarations := List.foldlRecOn inner.declarations Program.addDeclaration
    (motive := Program.Keeps S outer) hpredicates fun p hp d _ => hp.trans (.of_eq rfl rfl)
  exact List.foldlRecOn inner.context.toList (fun p e => p.setAlias e.1 e.2)
    (motive := Program.Keeps S outer) hdeclarations fun p hp e _ => hp.trans (.of_eq rfl rfl)

theorem predicates_blank (config : Config) (name : String) :
    (Program.blank config).predicates[name]? = none := by
  simp [Program.blank]

theorem registered_blank (config : Config) : (Program.blank config).Registered := by
  intro name q hq
  cases (predicates_blank config name).symm.trans hq

theorem predicates_start {config : Config} (h : start config = .ok s) :
    (s.workspace.program.Takes "bin_add" 3 ∧ s.workspace.program.Takes "bin_equal" 2 ∧
      s.workspace.program.Takes "bin_less" 2 ∧ s.workspace.program.Takes "bin_zero" 1) ∧
    ∀ name ∉ Program.binaryNames, s.workspace.program.predicates[name]? = none := by
  unfold start at h
  split at h
  · cases h
  · rename_i alphabet _
    split at h
    · rename_i s' hinstall
      cases h
      have hrun := workspace_of_lift hinstall
      have hblank := registered_blank config
      refine ⟨Program.takes_of_installBinary hblank hrun, fun name hname => ?_⟩
      have hkeeps := Program.keeps_installBinary (S := {name})
        (fun other hother heq => hname (Set.mem_singleton_iff.1 heq ▸ hother))
        (blank config alphabet .empty).workspace
      rw [endOf_of_eq_ok hrun] at hkeeps
      exact hkeeps.spares.getElem?_eq_none hblank (Set.mem_singleton name)
        (predicates_blank config name)
    · cases h

/-- The step may supply a predicate of one of the names. -/
def Definition.IsSource (S : Set String) : Definition → Prop
  | .predicate q => q.name ∈ S
  | .load _ name _ => name ∈ S
  | .nested _ => ∃ name ∈ binaryNames, name ∈ S
  | _ => False

/-- What no step supplies is kept. A nested session starts without predicates, so that those of the
names in `S` that it has in the end would have been supplied in it. -/
theorem sustained_keeps (S : Set String) : Sustained (Definition.IsSource S) (Program.Keeps S) where
  evaluates := Program.Stepwise.keeps
  restricts _ _ := .of_eq rfl rfl
  defines _ hq := Program.keeps_define hq
  loads _ _ args r hname := Program.keeps_defineRelation hname args r
  declares _ _ _ := .of_eq rfl rfl
  redirects _ _ _ _ := .of_eq rfl rfl
  installs _ h := Program.keeps_installBinary fun name hbinary hname => h ⟨name, hbinary, hname⟩
  merges config p p' h := by
    have hblank := registered_blank config
    refine keeps_merge (h.spares.registered hblank) fun name hname => ?_
    exact h.spares.getElem?_eq_none hblank hname (predicates_blank config name)

-- Where no name matters, no step is a source.
theorem sustained_keeps_empty : Sustained (fun _ => False) (Program.Keeps ∅) :=
  (sustained_keeps ∅).mono fun d hd => by cases d <;> simp [Definition.IsSource] at hd

/-- In the session, the command comes to supply a predicate of the name. -/
def Command.Supplies (name : String) (c : Command) (s : Session) : Prop :=
  c.Reaches (Definition.Names name) s

/-- In the session, the command comes to nested definitions, which start with the relations of base
2. -/
def Command.Nests (c : Command) (s : Session) : Prop := c.Reaches Definition.IsNested s

theorem Command.reaches_or {P Q : Definition → Prop} :
    ∀ {c : Command}, c.Reaches (fun d => P d ∨ Q d) s → c.Reaches P s ∨ c.Reaches Q s
  | .run ds, h => reachesAny_or ds s h
  | .define _, h | .declare _, h | .direct .., h => h
  | .truth _, h | .witness _, h | .infer _, h | .predicateTruth _, h | .automaton _, h
  | .call .., h | .constant .., h | .restrict _, h | .limit _, h | .save .., h | .load _, h
  | .provide .., h => h.elim

theorem keeps_perform (c : Command) (hsupplies : ¬c.Supplies name s)
    (hnests : name ∈ binaryNames → ¬c.Nests s) : Keeps {name} s (endOf c.perform s) := by
  by_cases hname : name ∈ binaryNames
  · have hsources := (sustained_keeps {name}).mono (Q := fun d => d.Names name ∨ d.IsNested)
      fun d hd => by
        cases d with
        | predicate q => exact .inl hd
        | load _ other _ => exact .inl hd
        | nested ds => exact .inr trivial
        | _ => exact hd.elim
    exact hsources.perform c fun hc => (Command.reaches_or hc).elim hsupplies (hnests hname)
  · have hsources := (sustained_keeps {name}).mono (Q := Definition.Names name) fun d hd => by
      cases d with
      | predicate q => exact hd
      | load _ other _ => exact hd
      | nested ds =>
        obtain ⟨other, hother, rfl⟩ := hd
        exact absurd hother hname
      | _ => exact hd.elim
    exact hsources.perform c hsupplies

/-- A session that can come about keeps its predicates under their names, and variables are free
in it. -/
theorem Reached.registered {config : Config} {ls : List Literal} (h : Reached config ls s) :
    s.workspace.program.Registered ∧ s.workspace.program.AtTop := by
  have hkeeps := h.sustained sustained_keeps_empty
  exact ⟨hkeeps.spares.registered (registered_blank config),
    (Program.atTop_blank config).extend hkeeps.frames⟩

/-- The literal is made of an automaton as they are meant to be: deterministic, with labels that
some letters have. -/
def Proper (s : Session) (l : Literal) : Prop :=
  l.automaton.Formed s.workspace.alphabet.diagrams ∧
    l.automaton.Deterministic s.workspace.alphabet.diagrams

/-- The sessions that a session becomes by commands that are allowed, in which literals have `P`.
In between propositions may be named and diagrams made, such as new automata need. -/
inductive Evolves (P : Session → Literal → Prop) (allowed : Session → Command → Prop)
    (s : Session) : Session → Prop
  | refl : Evolves P allowed s s
  | perform {s' s'' : Session} (h : Evolves P allowed s s') (c : Command)
    (hc : c.Literals (P s')) (hallowed : allowed s' c) (hrun : Ends c.perform s' s'') :
    Evolves P allowed s s''
  | grow {s' : Session} (h : Evolves P allowed s s') (x : Alphabet)
    (hle : s'.workspace.alphabet ≤ x) (hx : x.diagrams.Sound) :
    Evolves P allowed s ⟨⟨x, s'.workspace.program⟩, s'.report, s'.files⟩

/-- No predicate of the name is supplied. What nested definitions supply is taken over, but with it
the relations of base 2 that their session starts with. -/
def Without (name : String) (s : Session) (c : Command) : Prop :=
  ¬c.Supplies name s ∧ (name ∈ binaryNames → ¬c.Nests s)

section

variable {P : Session → Literal → Prop} {allowed : Session → Command → Prop}

theorem Evolves.keeps (h : Evolves P allowed s s')
    (hallowed : ∀ {s c}, allowed s c → Keeps S s (endOf c.perform s)) : Keeps S s s' := by
  induction h with
  | refl => exact Std.Refl.refl (r := Keeps S) s
  | perform _ c _ hc hrun ih => exact IsTrans.trans _ _ _ ih (hrun.endOf_eq ▸ hallowed hc)
  | grow _ x _ _ ih => exact ih

/-- Whatever is done, predicates are found under their names, and variables are free. -/
theorem Evolves.registered {config : Config} {s₀ : Session} (hstart : start config = .ok s₀)
    (h : Evolves P allowed s₀ s) : s.workspace.program.Registered ∧ s.workspace.program.AtTop := by
  obtain ⟨hregistered, htop⟩ := (Reached.start hstart).registered
  have hkeeps : Keeps ∅ s₀ s := h.keeps fun {s c} _ =>
    sustained_keeps_empty.perform c (c.not_reaches_false s)
  exact ⟨hkeeps.spares.registered hregistered, htop.extend hkeeps.frames⟩

attribute [local instance] Automaton.allLanguages Workspace.preserving preserving

theorem Proper.includes {l : Literal} (h : Proper s l) : s.workspace.Includes l.automaton :=
  ⟨_, h.1.recognizes h.2, trivial⟩

theorem Evolves.belongs (hP : ∀ s l, P s l → Proper s l) (h : Evolves P allowed s s')
    (hs : s.workspace.Belongs) :
    s'.workspace.Belongs ∧ s.workspace.alphabet ≤ s'.workspace.alphabet := by
  induction h with
  | refl => exact ⟨hs, le_refl _⟩
  | @perform s' s'' _ c hc _ hrun ih =>
    have hproper := hc.mono fun l hl => (hP s' l hl).includes
    have hle := hrun.le (yields_perform ih.1 c hproper)
    exact ⟨ih.1.mono hle, le_trans ih.2 hle.alphabet⟩
  | grow _ x hle hx ih => exact ⟨ih.1.mono_alphabet hle, le_trans ih.2 hle⟩

end

/-- What it means that the session remembers the predicate with its memo. Unless another predicate
of the name is supplied, the predicate stays what it is. And if literals are proper, a call of it
gives an automaton that accepts a word if the memo accepts the word in which each argument has,
letter by letter, the bit of its actual variable, and the truth value of the predicate stays the
same too. -/
structure Remembers (P : Session → Literal → Prop) (s : Session) (name : String) (q : Predicate)
    (r : Relation) : Prop where
  kept : ∀ s', Evolves P (Without name) s s' → s'.workspace.program.predicates[name]? = some q
  call : (∀ s l, P s l → Proper s l) → ∀ vars : List String, vars.length = q.args.length →
    ∃ ps a w, Program.callOn name vars s.workspace = .ok a w ∧
      List.Forall₂ (fun v p => Program.findVar v w.program.frames = .bound p) vars ps ∧
      a.Decides w.alphabet.diagrams fun u =>
        r.automaton.Admits s.workspace.alphabet.diagrams (u.map (Letter.retold (r.args.zip ps)))
  truth : (∀ s l, P s l → Proper s l) → ∀ s', Evolves P (Without name) s s' → ∃ t w w',
    Program.predicateTruth name s.workspace = .ok t w ∧
      Program.predicateTruth name s'.workspace = .ok t w'

theorem remembers_of_evolves {P : Session → Literal → Prop} {config : Config} {s₀ : Session}
    (hstart : start config = .ok s₀) (h : Evolves P (fun _ _ => True) s₀ s) {q : Predicate}
    {r : Relation} (hq : s.workspace.program.predicates[name]? = some q) (hr : q.memo = some r) :
    Remembers P s name q r := by
  obtain ⟨hregistered, htop⟩ := h.registered hstart
  have hkept : ∀ s', Evolves P (Without name) s s' →
      s'.workspace.program.predicates[name]? = some q := by
    intro s' hs'
    have hkeeps : Keeps {name} s s' := hs'.keeps fun hc => keeps_perform _ hc.1 hc.2
    exact hkeeps.spares.getElem?_eq_some hregistered (Set.mem_singleton name) hq (hr ▸ nofun)
  let _ := Automaton.allLanguages
  refine ⟨hkept, fun hP vars hlength => ?_, fun hP s' hs' => ?_⟩
  · obtain ⟨hs, -⟩ := h.belongs hP (belongs_start hstart)
    exact Program.exists_callOn hs htop (hregistered name q hq) hq hr hlength
  · obtain ⟨hs, -⟩ := h.belongs hP (belongs_start hstart)
    obtain ⟨hbelongs, hle⟩ := hs'.belongs hP hs
    obtain ⟨t, w, htruth, ht⟩ := Program.exists_predicateTruth hs hq hr
    obtain ⟨t', w', htruth', ht'⟩ := Program.exists_predicateTruth hbelongs (hkept s' hs') hr
    have hsame : r.automaton.Admits s'.workspace.alphabet.diagrams =
        r.automaton.Admits s.workspace.alphabet.diagrams := funext fun u => propext <|
      ((hs.predicates name q hq).memo r hr).admits_iff_of_le hs.sound hbelongs.sound hle.1
    rw [hsame] at ht'
    rw [ht.eq ht'] at htruth
    exact ⟨t', w, w', htruth, htruth'⟩

/-- Sums in a new session. -/
theorem remembers_of_evolves_sum : ∃ s q r, start ⟨6, none, true, true⟩ = .ok s ∧
    s.workspace.program.predicates["bin_add"]? = some q ∧ q.memo = some r ∧
    Remembers Proper s "bin_add" q r := by
  obtain ⟨s, hstart⟩ := exists_start
  obtain ⟨⟨⟨q, hq, -⟩, -⟩, -⟩ := predicates_start hstart
  obtain ⟨r, hr⟩ := Option.ne_none_iff_exists'.1 ((idle_start hstart).atRest.evaluated _ q hq)
  exact ⟨s, q, r, hstart, hq, hr, remembers_of_evolves hstart .refl hq hr⟩

/-- After the command the predicate has a memo with other propositions. -/
def changesMemo (c : Command) (name : String) (s : Session) : Bool :=
  let args (s : Session) := (s.workspace.program.predicates[name]?.bind (·.memo)).map (·.args)
  match c.perform s with
  | .error _ _ => false
  | .ok _ s' => (args s).isSome && args s' != args s

theorem exists_of_changesMemo {c : Command} (h : changesMemo c name s = true) : ∃ s',
    Ends c.perform s s' ∧ (s.workspace.program.predicates[name]?.bind (·.memo)).isSome ∧
    s'.workspace.program.predicates[name]?.bind (·.memo) ≠
      s.workspace.program.predicates[name]?.bind (·.memo) := by
  unfold changesMemo at h
  dsimp only at h
  split at h
  · cases h
  · rename_i s' hperform
    simp only [Bool.and_eq_true, bne_iff_ne, ne_eq, Option.isSome_map] at h
    exact ⟨s', .inl ⟨_, hperform⟩, h.1, fun heq => h.2 (congrArg _ heq)⟩

/-- An empty list of nested definitions supplies nothing, and still the relation for zero has
another memo after it. -/
theorem memo_ne_of_nested : ∃ s s' : Session, start ⟨6, none, true, true⟩ = .ok s ∧
    Ends (Command.run [.nested []]).perform s s' ∧
    ¬(Command.run [.nested []]).Supplies "bin_zero" s ∧
    (s.workspace.program.predicates["bin_zero"]?.bind (·.memo)).isSome ∧
    s'.workspace.program.predicates["bin_zero"]?.bind (·.memo) ≠
      s.workspace.program.predicates["bin_zero"]?.bind (·.memo) := by
  have hrun : (start ⟨6, none, true, true⟩).toOption.any
      (changesMemo (.run [.nested []]) "bin_zero") = true := by
    decide +kernel
  obtain ⟨s, hstart, hchanges⟩ := exists_start_of_any hrun
  obtain ⟨s', hends, hsome, hne⟩ := exists_of_changesMemo hchanges
  refine ⟨s, s', hstart, hends, ?_, hsome, hne⟩
  obtain ⟨⟨alphabet, program⟩, report, files⟩ := s
  rintro ((hnames | ⟨_, _, hnone⟩) | ⟨_, _, hnone⟩)
  · exact hnames
  · exact hnone
  · exact hnone

end Session

end RegularArithmetic
