import RegularArithmetic.Proofs.Interchange.Reader
import RegularArithmetic.Proofs.Program.BelongingDefinition
import RegularArithmetic.Session.Run

/-!
Sessions whose automaton literals are relations of base 2 or read from a text. Whatever such a
session remembers is closed under padding, and whatever it is asked for.
-/

set_option autoImplicit false

namespace RegularArithmetic

attribute [local instance] Workspace.preserving

variable {P Q : Literal → Prop}

mutual

/-- `P` holds of the literals of the formulas that a step evaluates. -/
def Definition.Literals (P : Literal → Prop) : Definition → Prop
  | .predicate q => q.body.Literals P
  | .nested ds => literalsAll P ds
  | .ifDefined _ yes no => literalsAll P yes ∧ literalsAll P no
  | .byTruth x always never sometimes =>
    x.Literals P ∧ literalsAll P always ∧ literalsAll P never ∧ literalsAll P sometimes
  | _ => True

def literalsAll (P : Literal → Prop) : List Definition → Prop
  | [] => True
  | d :: ds => d.Literals P ∧ literalsAll P ds

end

mutual

theorem Definition.Literals.mono (hPQ : ∀ l, P l → Q l) :
    ∀ {d : Definition}, d.Literals P → d.Literals Q
  | .predicate _, h => Expr.Literals.mono hPQ h
  | .nested _, h => literalsAll_mono hPQ h
  | .ifDefined _ _ _, h => ⟨literalsAll_mono hPQ h.1, literalsAll_mono hPQ h.2⟩
  | .byTruth _ _ _ _, h => ⟨h.1.mono hPQ, literalsAll_mono hPQ h.2.1, literalsAll_mono hPQ h.2.2.1,
      literalsAll_mono hPQ h.2.2.2⟩
  | .restrict .., _ | .forget _, _ | .declaration _, _ | .context .., _ | .assertion .., _
  | .save .., _ | .load .., _ => trivial

theorem literalsAll_mono (hPQ : ∀ l, P l → Q l) :
    ∀ {ds : List Definition}, literalsAll P ds → literalsAll Q ds
  | [], _ => trivial
  | _ :: _, h => ⟨h.1.mono hPQ, literalsAll_mono hPQ h.2⟩

end

namespace Session

variable {α : Type} {s s' : Session} {x : M Unit}

section

open Automaton (LanguageFamily)

variable [LanguageFamily]

@[reducible] def preserving : Preorder Session := Preorder.lift Session.workspace

attribute [local instance] preserving

theorem yields_lift {y : Program.M α} {P : α → Workspace → Prop} (h : Yields y s.workspace P) :
    Yields (liftM y : M α) s fun r s' => P r s'.workspace := by
  obtain ⟨workspace, report, files⟩ := s
  refine .intro (fun r s' hr => ?_) fun e s' he => ?_
  · simp only [liftM, monadLift, MonadLift.monadLift] at hr
    split at hr <;> cases hr
    rename_i heq
    exact h.of_ok heq
  · simp only [liftM, monadLift, MonadLift.monadLift] at he
    split at he <;> cases he
    rename_i heq
    exact h.of_error heq

theorem yields_lift_change {f : Program → Program}
    (hf : ∀ p, (f p).predicates = p.predicates ∧ (f p).constants = p.constants ∧
      (f p).frames = p.frames) :
    Yields (liftM (Program.change f) : M Unit) s fun _ _ => True :=
  yields_lift (Belonging.yields_change_of_eq hf)

theorem yields_readFile (file : String) : Yields (readFile file) s fun _ _ => True := by
  simp only [Yields, readFile]
  cases s.files.read file with
  | ok text => exact ⟨le_refl s, trivial⟩
  | error e => exact le_refl s

theorem yields_writeFile (file text : String) : Yields (writeFile file text) s fun _ _ => True := by
  obtain ⟨workspace, report, files⟩ := s
  simp only [Yields, writeFile]
  cases files.write file text with
  | ok files => exact ⟨le_refl workspace, trivial⟩
  | error e => exact le_refl workspace

theorem yields_record (a : Assertion) : Yields (record a) s fun _ _ => True :=
  ⟨le_refl s.workspace, trivial⟩

theorem yields_provideFile (file text : String) :
    Yields (provideFile file text) s fun _ _ => True :=
  (yields_writeFile file text).tryCatch fun _ _ _ => .throw

theorem yields_askAlphabet {q : Alphabet → Except Fault α} {w : Workspace} :
    Yields (askAlphabet q) w fun _ _ => True := by
  simp only [Yields, askAlphabet]
  cases q w.alphabet with
  | ok r => exact ⟨le_refl w, trivial⟩
  | error e => exact le_refl w

theorem yields_clear {w : Workspace} : Yields clear w fun _ _ => True :=
  Belonging.yields_change_of_eq fun _ => ⟨rfl, rfl, rfl⟩

theorem yields_check (hs : s.workspace.Belongs) (expected : Truth) (name : String) :
    Yields (check expected name) s fun _ _ => True := by
  unfold check
  exact (yields_lift (Belonging.yields_predicateTruth hs name)).bind fun _ _ _ _ => yields_record _

theorem yields_save (hs : s.workspace.Belongs) (name file : String) :
    Yields (save name file) s fun _ _ => True := by
  unfold save
  refine (yields_lift (Belonging.yields_relationOf Belonging.belongs_standard hs name)).bind
    fun (target, r) _ _ _ => ?_
  refine (yields_lift (Belonging.yields_predicate target)).bind fun q _ _ _ => ?_
  exact (yields_lift yields_askAlphabet).bind fun text _ _ _ => yields_writeFile file text

theorem yields_saveAutomaton (hs : s.workspace.Belongs) (name file : String) :
    Yields (saveAutomaton name file) s fun _ _ => True := by
  unfold saveAutomaton
  refine (yields_lift (Belonging.yields_automatonOf hs name)).bind fun a _ _ _ => ?_
  exact (yields_lift yields_askAlphabet).bind fun text _ _ _ => yields_writeFile file text

theorem yields_ofText {w : Workspace} (hw : w.Belongs) (text : String) :
    Yields (liftM (Automaton.ofText text) : Program.M Relation) w fun r w' =>
      w'.Includes r.automaton :=
  Belonging.yields_liftAlphabet (Automaton.yields_ofText hw.sound text)

theorem yields_loadRelation (hs : s.workspace.Belongs) (file : String) :
    Yields (loadRelation file) s fun r s' => s'.workspace.Includes r.automaton := by
  unfold loadRelation
  refine (yields_readFile file).bind fun text s₁ hle _ => ?_
  exact yields_lift (yields_ofText (hs.mono hle) text)

theorem yields_load (hs : s.workspace.Belongs) (file name : String) (args : List String) :
    Yields (load file name args) s fun _ _ => True := by
  unfold load
  refine (yields_loadRelation hs file).bind fun r s₁ hle hr => ?_
  refine .ite (fun _ => .throw_bind) fun _ => ?_
  exact yields_lift (Belonging.yields_defineRelation (hs.mono hle) hr name args)

/-! ### Nested sessions -/

theorem belongs_blank (config : Config) {alphabet : Alphabet} (hsound : alphabet.diagrams.Sound)
    (files : Files) : (blank config alphabet files).workspace.Belongs where
  sound := hsound
  predicates name q hq := by simp [blank, Program.blank] at hq
  constants c hc := nomatch hc

theorem belongs_merge {alphabet : Alphabet} {outer inner : Program}
    (houter : Workspace.Belongs ⟨alphabet, outer⟩) (hinner : Workspace.Belongs ⟨alphabet, inner⟩) :
    Workspace.Belongs ⟨alphabet, merge outer inner⟩ := by
  have hpredicates := List.foldlRecOn inner.predicates.toList (fun p e => p.adopt e.2)
    (motive := fun p => Workspace.Belongs ⟨alphabet, p⟩) houter (fun p hp e he => by
      have hname := Std.TreeMap.mem_toList_iff_getElem?_eq_some.1 he
      exact hp.adopt (hinner.predicates e.1 e.2 hname))
  have hdeclarations := List.foldlRecOn inner.declarations Program.addDeclaration
    (motive := fun p => Workspace.Belongs ⟨alphabet, p⟩) hpredicates fun p hp d _ =>
      hp.of_eq rfl rfl
  exact List.foldlRecOn inner.context.toList (fun p e => p.setAlias e.1 e.2)
    (motive := fun p => Workspace.Belongs ⟨alphabet, p⟩) hdeclarations fun p hp e _ =>
      hp.of_eq rfl rfl

omit [LanguageFamily] in
theorem frames_merge (outer inner : Program) : (merge outer inner).frames = outer.frames := by
  let Same (p : Program) : Prop := p.frames = outer.frames
  have hpredicates := List.foldlRecOn inner.predicates.toList (fun p e => p.adopt e.2)
    (motive := Same) rfl fun p hp e _ => hp
  have hdeclarations := List.foldlRecOn inner.declarations Program.addDeclaration
    (motive := Same) hpredicates fun p hp d _ => hp
  exact List.foldlRecOn inner.context.toList (fun p e => p.setAlias e.1 e.2)
    (motive := Same) hdeclarations fun p hp e _ => hp

theorem yields_inNested (hs : s.workspace.Belongs)
    (hx : ∀ s' : Session, s'.workspace.Belongs →
      s.workspace.alphabet ≤ s'.workspace.alphabet → Yields x s' fun _ _ => True) :
    Yields (inNested x) s fun _ _ => True := by
  obtain ⟨⟨alphabet, program⟩, report, files⟩ := s
  have hstart : (blank program.config alphabet files).workspace.Belongs :=
    belongs_blank program.config hs.sound files
  have hle : alphabet ≤ (blank program.config alphabet files).workspace.alphabet :=
    ⟨le_rfl, List.prefix_refl _⟩
  have hinner : Yields (do
      Program.installBinary
      x
      clear : M Unit) (blank program.config alphabet files) fun _ _ => True := by
    refine (yields_lift (Belonging.yields_installBinary hstart)).bind fun _ s₁ hle₁ _ => ?_
    refine (hx s₁ (hstart.mono hle₁) (le_trans hle hle₁.alphabet)).bind fun _ _ _ _ => ?_
    exact yields_lift yields_clear
  simp only [Yields, inNested]
  -- If the inner session fails, its alphabet is kept all the same.
  cases hrun : (do
      Program.installBinary
      x
      clear : M Unit) (blank program.config alphabet files) with
  | ok _ s₁ =>
    have hle₁ := (hinner.of_ok hrun).1
    have halphabet := le_trans hle hle₁.alphabet
    refine ⟨⟨halphabet, fun hs => belongs_merge (hs.mono_alphabet halphabet) (hstart.mono hle₁),
      fun hb f hf => ?_⟩, trivial⟩
    exact hb.mono_alphabet halphabet f (frames_merge program _ ▸ hf)
  | error e s₁ =>
    have halphabet := le_trans hle (hinner.of_error hrun).alphabet
    exact ⟨halphabet, fun hs => hs.mono_alphabet halphabet, fun hb => hb.mono_alphabet halphabet⟩

/-! ### Whole sessions -/

mutual

theorem yields_execute : ∀ (d : Definition) {s : Session}, s.workspace.Belongs →
    d.Literals (fun l => s.workspace.Includes l.automaton) → Yields (execute d) s fun _ _ => True
  | .predicate q, s, hs, hd => by
    rw [execute]
    exact yields_lift (Belonging.yields_define hs hd)
  | .restrict vars name params, s, _, _ => by
    rw [execute]
    exact Yields.forM vars s fun v _ s' _ => yields_lift (Belonging.yields_restrictBy _)
  | .forget vars, s, _, _ => by
    rw [execute]
    exact Yields.forM vars s fun v _ s' _ => yields_lift (Belonging.yields_restrictBy _)
  | .declaration d, s, _, _ => by
    rw [execute]
    exact yields_lift_change fun _ => ⟨rfl, rfl, rfl⟩
  | .context name target, s, _, _ => by
    rw [execute]
    exact yields_lift_change fun _ => ⟨rfl, rfl, rfl⟩
  | .assertion expected name, s, hs, _ => by
    rw [execute]
    exact yields_check hs expected name
  | .save name file, s, hs, _ => by
    rw [execute]
    exact yields_save hs name file
  | .load file name args, s, hs, _ => by
    rw [execute]
    exact yields_load hs file name args
  | .nested ds, s, hs, hds => by
    rw [execute]
    refine yields_inNested hs fun s' hs' hle => yields_executeAll ds hs' ?_
    exact literalsAll_mono (fun l hl => hl.mono_store hs.sound hle.1) hds
  | .ifDefined name yes no, s, hs, hd => by
    rw [execute]
    refine (yields_lift (Belonging.yields_ask _)).bind fun defined s₁ hle _ => ?_
    have hs₁ := hs.mono hle
    have hmono : ∀ l : Literal, s.workspace.Includes l.automaton →
        s₁.workspace.Includes l.automaton :=
      fun l hl => hl.mono hs hle
    exact .ite (fun _ => yields_executeAll yes hs₁ (literalsAll_mono hmono hd.1))
      fun _ => yields_executeAll no hs₁ (literalsAll_mono hmono hd.2)
  | .byTruth x always never sometimes, s, hs, hd => by
    rw [execute]
    refine (yields_lift (Belonging.yields_truthOf hs hd.1)).bind fun t s₁ hle _ => ?_
    have hs₁ := hs.mono hle
    have hmono : ∀ l : Literal, s.workspace.Includes l.automaton →
        s₁.workspace.Includes l.automaton :=
      fun l hl => hl.mono hs hle
    cases t with
    | always => exact yields_executeAll always hs₁ (literalsAll_mono hmono hd.2.1)
    | never => exact yields_executeAll never hs₁ (literalsAll_mono hmono hd.2.2.1)
    | sometimes => exact yields_executeAll sometimes hs₁ (literalsAll_mono hmono hd.2.2.2)

theorem yields_executeAll : ∀ (ds : List Definition) {s : Session}, s.workspace.Belongs →
    literalsAll (fun l => s.workspace.Includes l.automaton) ds →
    Yields (executeAll ds) s fun _ _ => True
  | [], s, _, _ => .pure trivial
  | d :: ds, s, hs, hds => by
    rw [executeAll]
    refine (yields_execute d hs hds.1).bind fun _ s₁ hle _ => ?_
    refine yields_executeAll ds (hs.mono hle) (literalsAll_mono (fun l hl => ?_) hds.2)
    exact hl.mono hs hle

end

theorem yields_run {ds : List Definition} (hs : s.workspace.Belongs)
    (hds : literalsAll (fun l => s.workspace.Includes l.automaton) ds) :
    Yields (run ds) s fun _ _ => True := by
  unfold run
  refine (yields_executeAll ds hs hds).bind fun _ s₁ _ _ => ?_
  refine (yields_lift yields_clear).bind fun _ s₂ _ _ => ?_
  exact ⟨le_refl s₂, trivial⟩

end

/-! ### Sessions that can come about -/

/-- What the relation of an automaton literal is: one of base 2, or one that a text describes. -/
inductive Origin where
  | sum | equality | order | zero
  | text (t : String)

def Origin.relation : Origin → Alphabet.M Relation
  | .sum => Binary.add
  | .equality => Binary.equal
  | .order => Binary.less
  | .zero => Binary.zero
  | .text t => Automaton.ofText t

/-- A new literal. -/
def makeLiteral (o : Origin) (name : String) (args : List String) : M Literal := do
  let r ← (o.relation : Program.M Relation)
  Program.literalOf name r args

/-- What a session can be told or asked, apart from new literals. -/
inductive Command where
  | run (ds : List Definition)
  | define (q : Predicate)
  | truth (x : Expr)
  | witness (x : Expr)
  | infer (x : Expr)
  | predicateTruth (name : String)
  | automaton (name : String)
  | call (name : String) (vars : List String)
  | constant (d : Domain) (n : Nat)
  | declare (d : Declaration)
  | direct (name target : String)
  | restrict (r : Restrictions)
  | limit (budget : Option Nat)
  | save (name file : String)
  | load (file : String)
  | provide (file text : String)

/-- What is done; answers are not kept. -/
def Command.perform : Command → M Unit
  | .run ds => discard (Session.run ds)
  | .define q => Program.define q
  | .truth x => discard (liftM (Program.truthOf x) : M Truth)
  | .witness x => discard (liftM (Program.witness x) : M _)
  | .infer x => discard (liftM (Program.inferred x) : M Expr)
  | .predicateTruth name => discard (liftM (Program.predicateTruth name) : M Truth)
  | .automaton name => discard (liftM (Program.automatonOf name) : M Automaton)
  | .call name vars => discard (liftM (Program.callOn name vars) : M Automaton)
  | .constant d n => discard (liftM (Program.constantOf d n) : M Relation)
  | .declare d => Program.change (·.addDeclaration d)
  | .direct name target => Program.change (·.setAlias name target)
  | .restrict r => Program.change fun p => { p with restrictions := r }
  | .limit budget => (Alphabet.setBudget budget : Program.M Unit)
  | .save name file => saveAutomaton name file
  | .load file => discard (loadRelation file)
  | .provide file text => provideFile file text

/-- `P` holds of the literals of the formulas in a command. -/
def Command.Literals (P : Literal → Prop) : Command → Prop
  | .run ds => literalsAll P ds
  | .define q => q.body.Literals P
  | .truth x | .witness x | .infer x => x.Literals P
  | _ => True

/-- The computation ends in the session `s'`, with an answer or without. -/
def Ends (y : M α) (s s' : Session) : Prop := (∃ r, y s = .ok r s') ∨ ∃ e, y s = .error e s'

/-- The sessions that can come about, each with the literals that were made in it. Formulas are
made with these literals only. -/
inductive Reached (config : Config) : List Literal → Session → Prop
  | start {s : Session} (h : start config = .ok s) : Reached config [] s
  | perform {ls : List Literal} {s s' : Session} (c : Command) (h : Reached config ls s)
    (hc : c.Literals (· ∈ ls)) (hrun : Ends c.perform s s') : Reached config ls s'
  | literal {ls : List Literal} {s s' : Session} {l : Literal} (o : Origin) (name : String)
    (args : List String) (h : Reached config ls s) (hrun : makeLiteral o name args s = .ok l s') :
    Reached config (l :: ls) s'
  | noLiteral {ls : List Literal} {s s' : Session} {e : Failure} (o : Origin) (name : String)
    (args : List String) (h : Reached config ls s)
    (hrun : makeLiteral o name args s = .error e s') : Reached config ls s'

theorem Command.Literals.mono (hPQ : ∀ l, P l → Q l) :
    ∀ {c : Command}, c.Literals P → c.Literals Q
  | .run _, h => literalsAll_mono hPQ h
  | .define _, h => Expr.Literals.mono hPQ h
  | .truth _, h | .witness _, h | .infer _, h => Expr.Literals.mono hPQ h
  | .predicateTruth _, _ | .automaton _, _ | .call .., _ | .constant .., _ | .declare _, _
  | .direct .., _ | .restrict _, _ | .limit _, _ | .save .., _ | .load _, _ | .provide .., _ =>
    trivial

section

variable [Automaton.LanguageFamily]

attribute [local instance] preserving

theorem Ends.le {y : M α} {P : α → Session → Prop} (h : Ends y s s') (hy : Yields y s P) :
    s ≤ s' := by
  obtain ⟨r, hrun⟩ | ⟨e, hrun⟩ := h
  · exact (hy.of_ok hrun).1
  · exact hy.of_error hrun

theorem yields_origin {w : Workspace} (hw : w.Belongs) (o : Origin) :
    Yields (liftM o.relation : Program.M Relation) w fun r w' => w'.Includes r.automaton := by
  cases o with
  | sum => exact Belonging.yields_relationOfMeaning (Binary.yields_add hw.sound)
  | equality => exact Belonging.yields_relationOfMeaning (Binary.yields_equal hw.sound)
  | order => exact Belonging.yields_relationOfMeaning (Binary.yields_less hw.sound)
  | zero => exact Belonging.yields_relationOfMeaning (Binary.yields_zero hw.sound)
  | text t => exact yields_ofText hw t

theorem yields_makeLiteral (hs : s.workspace.Belongs) (o : Origin) (name : String)
    (args : List String) :
    Yields (makeLiteral o name args) s fun l s' => s'.workspace.Includes l.automaton := by
  unfold makeLiteral
  refine (yields_lift (yields_origin hs o)).bind fun r s₁ hle hr => ?_
  refine (yields_lift (Belonging.yields_literalOf name r args)).mono fun l s₂ hle₂ h => ?_
  rw [h]
  exact hr.mono (hs.mono hle) hle₂

theorem yields_perform (hs : s.workspace.Belongs) (c : Command)
    (hc : c.Literals fun l => s.workspace.Includes l.automaton) :
    Yields c.perform s fun _ _ => True := by
  have hdiscard : ∀ {α : Type} {y : M α} {P : α → Session → Prop}, Yields y s P →
      Yields (discard y) s fun _ _ => True := fun hy => hy.map fun _ _ _ _ => trivial
  cases c with
  | run ds => exact hdiscard (yields_run hs hc)
  | define q => exact yields_lift (Belonging.yields_define hs hc)
  | truth x => exact hdiscard (yields_lift (Belonging.yields_truthOf hs hc))
  | witness x => exact hdiscard (yields_lift (Belonging.yields_witness hs hc))
  | infer x => exact hdiscard (yields_lift (Belonging.yields_inferred hs hc))
  | predicateTruth name => exact hdiscard (yields_lift (Belonging.yields_predicateTruth hs name))
  | automaton name => exact hdiscard (yields_lift (Belonging.yields_automatonOf hs name))
  | call name vars =>
    exact hdiscard (yields_lift (Belonging.yields_callOn Belonging.belongs_standard hs name vars))
  | constant d n => exact hdiscard (yields_lift (Belonging.yields_constantOf hs d n))
  | declare d => exact yields_lift_change fun _ => ⟨rfl, rfl, rfl⟩
  | direct name target => exact yields_lift_change fun _ => ⟨rfl, rfl, rfl⟩
  | restrict r => exact yields_lift_change fun _ => ⟨rfl, rfl, rfl⟩
  | limit budget =>
    refine yields_lift (Belonging.yields_liftAlphabet (P := fun _ _ => True) ?_)
    exact ⟨⟨le_rfl, List.prefix_refl _⟩, trivial⟩
  | save name file => exact yields_saveAutomaton hs name file
  | load file => exact hdiscard (yields_loadRelation hs file)
  | provide file text => exact yields_provideFile file text

theorem exists_blank_le_start {config : Config} (h : start config = .ok s) :
    ∃ alphabet : Alphabet, alphabet.diagrams.Sound ∧ blank config alphabet .empty ≤ s := by
  unfold start at h
  split at h
  · cases h
  · rename_i alphabet halphabet
    have hsound := Alphabet.sound_of_empty? halphabet
    split at h
    · rename_i s' hinstall
      cases h
      have hinstalled := Belonging.yields_installBinary (belongs_blank config hsound .empty)
      exact ⟨alphabet, hsound, ((yields_lift hinstalled).of_ok hinstall).1⟩
    · cases h

theorem belongs_start {config : Config} (h : start config = .ok s) : s.workspace.Belongs := by
  obtain ⟨alphabet, hsound, hle⟩ := exists_blank_le_start h
  exact (belongs_blank config hsound .empty).mono hle

omit [Automaton.LanguageFamily] in
theorem bounded_start {config : Config} (h : start config = .ok s) : s.workspace.Bounded := by
  let _ := Automaton.allLanguages
  obtain ⟨alphabet, -, hle⟩ := exists_blank_le_start h
  refine hle.bounded fun f hf v p hp => ?_
  obtain rfl := List.mem_singleton.1 hf
  cases hp

namespace Reached

variable {config : Config} {ls : List Literal} {s₀ : Session}

theorem belongs (h : Reached config ls s) :
    s.workspace.Belongs ∧ ∀ l ∈ ls, s.workspace.Includes l.automaton := by
  induction h with
  | start h => exact ⟨belongs_start h, fun l hl => nomatch hl⟩
  | perform c _ hc hrun ih =>
    obtain ⟨hs, hls⟩ := ih
    have hle := hrun.le (yields_perform hs c (hc.mono hls))
    exact ⟨hs.mono hle, fun l hl => (hls l hl).mono hs hle⟩
  | literal o name args _ hrun ih =>
    obtain ⟨hs, hls⟩ := ih
    obtain ⟨hle, hl⟩ := (yields_makeLiteral hs o name args).of_ok hrun
    exact ⟨hs.mono hle, List.forall_mem_cons.2 ⟨hl, fun l hl => (hls l hl).mono hs hle⟩⟩
  | noLiteral o name args _ hrun ih =>
    obtain ⟨hs, hls⟩ := ih
    have hle := (yields_makeLiteral hs o name args).of_error hrun
    exact ⟨hs.mono hle, fun l hl => (hls l hl).mono hs hle⟩

theorem le_perform (h : Reached config ls s) {c : Command} (hc : c.Literals (· ∈ ls))
    (hrun : Ends c.perform s s') : s ≤ s' :=
  hrun.le (yields_perform h.belongs.1 c (hc.mono h.belongs.2))

theorem le_makeLiteral (h : Reached config ls s) {o : Origin} {name : String} {args : List String}
    (hrun : Ends (makeLiteral o name args) s s') : s ≤ s' :=
  hrun.le (yields_makeLiteral h.belongs.1 o name args)

theorem preserves (h : Reached config ls s) (hstart : Session.start config = .ok s₀) :
    s₀.workspace.Preserves s.workspace := by
  change s₀ ≤ s
  induction h with
  | start h =>
    cases hstart.symm.trans h
    exact le_refl s₀
  | perform c h hc hrun ih => exact le_trans ih (h.le_perform hc hrun)
  | literal o name args h hrun ih => exact le_trans ih (h.le_makeLiteral (.inl ⟨_, hrun⟩))
  | noLiteral o name args h hrun ih => exact le_trans ih (h.le_makeLiteral (.inr ⟨_, hrun⟩))

end Reached

end

attribute [local instance] Automaton.paddingClosedFamily preserving

/-- All automata that a session remembers or gives in answer are closed under padding. Questions
may use the literals in `ls`. -/
structure ZeroClosed (ls : List Literal) (s : Session) : Prop where
  literals : ∀ l ∈ ls, l.automaton.ZeroClosed s.workspace.alphabet.diagrams
  memos : ∀ (name : String) q r, s.workspace.program.predicates[name]? = some q → q.memo = some r →
    r.automaton.ZeroClosed s.workspace.alphabet.diagrams
  constants : ∀ p ∈ s.workspace.program.constants,
    p.2.automaton.ZeroClosed s.workspace.alphabet.diagrams
  predicate : ∀ name a w, Program.automatonOf name s.workspace = .ok a w →
    a.ZeroClosed w.alphabet.diagrams
  call : ∀ name vars a w, Program.callOn name vars s.workspace = .ok a w →
    a.ZeroClosed w.alphabet.diagrams
  constant : ∀ d n r w, Program.constantOf d n s.workspace = .ok r w →
    r.automaton.ZeroClosed w.alphabet.diagrams
  loaded : ∀ file r s', loadRelation file s = .ok r s' →
    r.automaton.ZeroClosed s'.workspace.alphabet.diagrams
  query : ∀ n x a w, x.Literals (· ∈ ls) →
    (Program.Engine.ofDepth n).query x s.workspace = .ok a w → a.ZeroClosed w.alphabet.diagrams

theorem zeroClosed_of_yields {y : Program.M α} {w w' : Workspace} {r : α} {f : α → Automaton}
    (hw : w.Belongs) (h : Yields y w fun r w' => w'.Includes (f r)) (hrun : y w = .ok r w') :
    (f r).ZeroClosed w'.alphabet.diagrams := by
  obtain ⟨hle, hr⟩ := h.of_ok hrun
  exact Automaton.Belongs.zeroClosed hr (hw.mono hle).sound

/-- Whatever was done in a session, with an answer or without, its automata are closed under
padding. -/
theorem zeroClosed_of_reached {config : Config} {ls : List Literal} (h : Reached config ls s) :
    s.ZeroClosed ls := by
  obtain ⟨hs, hls⟩ := h.belongs
  exact {
    literals := fun l hl => (hls l hl).zeroClosed hs.sound
    memos := fun name q r hq hr => ((hs.predicates name q hq).memo r hr).zeroClosed hs.sound
    constants := fun p hp => (hs.constants p hp).zeroClosed hs.sound
    predicate := fun name a w hrun =>
      zeroClosed_of_yields hs (Belonging.yields_automatonOf hs name) hrun
    call := fun name vars a w hrun => zeroClosed_of_yields hs
      (Belonging.yields_callOn Belonging.belongs_standard hs name vars) hrun
    constant := fun d n r w hrun =>
      zeroClosed_of_yields hs (Belonging.yields_constantOf hs d n) hrun
    loaded := fun file r s' hrun => by
      obtain ⟨hle, hr⟩ := (yields_loadRelation hs file).of_ok hrun
      exact hr.zeroClosed (hs.mono hle).sound
    query := fun n x a w hx hrun => zeroClosed_of_yields hs
      (Belonging.yields_query (Belonging.belongs_ofDepth n) hs (hx.mono hls)) hrun }

/-- The text of an automaton without moves. -/
def noneText : String := "HOA: v1\nStates: 1\nAP: 1 \"a\"\n--BODY--\nState: 0\n--END--\n"

/-- Zero, and not accepted by the automaton without moves. -/
def noughtBody (none zero : Literal) : Expr := .and (.automaton zero) (.not (.automaton none))

/-- A session in which two literals are made and a predicate is defined by them. -/
def noughtSession : Option (List Literal × Session) :=
  match start ⟨2, none, true, true⟩ with
  | .error _ => none
  | .ok s =>
    match makeLiteral (.text noneText) "none" ["x"] s with
    | .error _ _ => none
    | .ok l s =>
      match makeLiteral .zero "zero" ["x"] s with
      | .error _ _ => none
      | .ok m s =>
        match (Command.define (.ofBody "nought" ["x"] [] (noughtBody l m))).perform s with
        | .error _ _ => none
        | .ok _ s => some ([m, l], s)

theorem reached_nought {ls : List Literal} (h : noughtSession = some (ls, s)) :
    Reached ⟨2, none, true, true⟩ ls s := by
  unfold noughtSession at h
  split at h
  · cases h
  · rename_i s₀ hstart
    split at h
    · cases h
    · rename_i l s₁ hnone
      split at h
      · cases h
      · rename_i m s₂ hzero
        split at h
        · cases h
        · rename_i s₃ hdefine
          cases h
          have hmade := Reached.literal .zero "zero" ["x"]
            (.literal (.text noneText) "none" ["x"] (.start hstart) hnone) hzero
          have hbody : (noughtBody l m).Literals (· ∈ [m, l]) :=
            ⟨List.mem_cons_self, List.mem_cons_of_mem m (List.mem_singleton_self l)⟩
          exact hmade.perform (.define (.ofBody "nought" ["x"] [] (noughtBody l m))) hbody
            (.inl ⟨_, hdefine⟩)

theorem zeroClosed_of_reached_nought : ∃ ls s, Reached ⟨2, none, true, true⟩ ls s ∧ ls ≠ [] ∧
    s.workspace.program.predicates.contains "nought" = true ∧ s.ZeroClosed ls := by
  have hrun : (noughtSession.any fun (ls, s) => !ls.isEmpty &&
      s.workspace.program.predicates.contains "nought") = true := by
    decide +kernel
  obtain ⟨⟨ls, s⟩, hsession, hnought⟩ := (Option.any_eq_true _ _).1 hrun
  simp only [Bool.and_eq_true, Bool.not_eq_true', List.isEmpty_eq_false_iff] at hnought
  have hreached := reached_nought hsession
  exact ⟨ls, s, hreached, hnought.1, hnought.2, zeroClosed_of_reached hreached⟩

end Session

end RegularArithmetic
