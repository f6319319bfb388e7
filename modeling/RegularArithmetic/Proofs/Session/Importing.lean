import RegularArithmetic.Proofs.Program.Refusal
import RegularArithmetic.Proofs.Session.Memory

/-!
What nested definitions do to the session that they are executed in. Whatever the nested session
defines, redirects or declares takes the place of what the outer one has under the same name, also
what it starts with, and nothing else changes; if the nested session fails, its program is given up.
-/

set_option autoImplicit false

namespace RegularArithmetic

open Program (Governed Complete)

namespace Program

/-- The declaration for shapes of the name. -/
def declared (p : Program) (name : String) : Option Declaration :=
  p.declarations.find? fun d => d.shape.name = name

theorem Complete.declared_eq_some {p : Program} {d : Declaration} (h : p.Complete)
    (hd : d ∈ p.declarations) : p.declared d.shape.name = some d := by
  cases hfind : p.declared d.shape.name with
  | none =>
    have hnone := List.find?_eq_none.1 hfind d hd
    simp at hnone
  | some e =>
    have hname : e.shape.name = d.shape.name := by simpa using List.find?_some hfind
    exact congrArg some (List.inj_on_of_nodup_map h.declared (List.mem_of_find?_eq_some hfind) hd
      hname)

end Program

namespace Session

variable {outer inner p : Program} {name : String} {s s' : Session} {e : Failure}

/-! ### Merging -/

section

variable {σ ε β : Type}

theorem find_foldl (find : σ → Option β) {insert : σ → ε → σ} {entry : ε → Option β} {l : List ε}
    (h : ∀ e ∈ l, ∀ t, find (insert t e) = (entry e).or (find t)) (t : σ) :
    find (l.foldl insert t) = (l.reverse.findSome? entry).or (find t) := by
  induction l generalizing t with
  | nil => rfl
  | cons e l ih =>
    obtain ⟨he, hl⟩ := List.forall_mem_cons.1 h
    rw [List.foldl_cons, ih hl, he, List.reverse_cons, List.findSome?_append,
      Option.or_assoc, List.findSome?_singleton]

theorem findSome?_reverse_eq {entry : ε → Option β} {l : List ε} {found : Option β}
    (hfound : ∀ b, found = some b → ∃ e ∈ l, entry e = some b)
    (honly : ∀ e ∈ l, ∀ b, entry e = some b → found = some b) :
    l.reverse.findSome? entry = found := by
  cases hlast : l.reverse.findSome? entry with
  | some b =>
    obtain ⟨e, he, hentry⟩ := List.exists_of_findSome?_eq_some hlast
    exact (honly e (List.mem_reverse.1 he) b hentry).symm
  | none =>
    cases found with
    | none => rfl
    | some b =>
      obtain ⟨e, he, hentry⟩ := hfound b rfl
      rw [List.findSome?_eq_none_iff] at hlast
      exact nomatch hentry.symm.trans (hlast e (List.mem_reverse.2 he))

end

theorem find?_place (d : Declaration) (name : String) : ∀ ds : List Declaration,
    (Program.addDeclaration.place d ds).find? (fun d => d.shape.name = name) =
      (if d.shape.name = name then some d else none).or (ds.find? fun d => d.shape.name = name)
  | [] => by
    rw [Program.addDeclaration.place]
    by_cases hd : d.shape.name = name <;> simp [hd]
  | e :: ds => by
    rw [Program.addDeclaration.place]
    by_cases he : e.shape.name = d.shape.name
    · rw [if_pos he, List.find?_cons, List.find?_cons, he]
      by_cases hd : d.shape.name = name <;> simp [hd]
    · rw [if_neg he, List.find?_cons, List.find?_cons, find?_place d name ds]
      by_cases hd : d.shape.name = name
      · subst hd
        simp [he]
      · by_cases hne : e.shape.name = name <;> simp [hd, hne]

def entered {β : Type} (m : Std.TreeMap String β) (l : List (String × β)) : Std.TreeMap String β :=
  l.foldl (fun m e => m.insert e.1 e.2) m

theorem getElem?_entered {β : Type} (m m' : Std.TreeMap String β) (name : String) :
    (entered m m'.toList)[name]? = m'[name]?.or m[name]? := by
  have hlast : (m'.toList.reverse.findSome? fun e => if e.1 = name then some e.2 else none) =
      m'[name]? := by
    refine findSome?_reverse_eq (fun b hb => ?_) fun e he b hentry => ?_
    · exact ⟨(name, b), Std.TreeMap.mem_toList_iff_getElem?_eq_some.2 hb, if_pos rfl⟩
    · obtain ⟨rfl, rfl⟩ : e.1 = name ∧ e.2 = b := by simpa using hentry
      exact Std.TreeMap.mem_toList_iff_getElem?_eq_some.1 he
  rw [← hlast]
  refine find_foldl (fun m : Std.TreeMap String β => m[name]?) (fun e _ t => ?_) m
  rw [Std.TreeMap.getElem?_insert]
  by_cases he : e.1 = name <;> simp [he]

theorem foldl_setAlias (l : List (String × String)) (p : Program) :
    l.foldl (fun p e => p.setAlias e.1 e.2) p = { p with context := entered p.context l } :=
  List.foldl_hom (fun m => { p with context := m }) fun _ _ => rfl

theorem foldl_addDeclaration (l : List Declaration) (p : Program) :
    l.foldl Program.addDeclaration p = { p with
      declarations := l.foldl (fun ds d => Program.addDeclaration.place d ds) p.declarations } :=
  List.foldl_hom (fun ds => { p with declarations := ds }) fun _ _ => rfl

theorem foldl_adopt {l : List (String × Predicate)} (h : ∀ e ∈ l, e.2.name = e.1) (p : Program) :
    l.foldl (fun p e => p.adopt e.2) p = { p with predicates := entered p.predicates l } := by
  induction l generalizing p with
  | nil => rfl
  | cons e l ih =>
    obtain ⟨he, hl⟩ := List.forall_mem_cons.1 h
    rw [List.foldl_cons, ih hl, entered, entered, List.foldl_cons, Program.adopt, he]

/-- The outer program when a nested one has ended: of each name it says what the inner program says,
and what it said before where the inner one says nothing. -/
structure Merged (outer inner p : Program) : Prop where
  predicates : ∀ name : String,
    p.predicates[name]? = inner.predicates[name]?.or outer.predicates[name]?
  context : ∀ name : String, p.context[name]? = inner.context[name]?.or outer.context[name]?
  declared : ∀ name, p.declared name = (inner.declared name).or (outer.declared name)
  others : outer = { p with
    predicates := outer.predicates
    declarations := outer.declarations
    context := outer.context }

theorem merge_eq (h : inner.Registered) : merge outer inner = { outer with
    predicates := entered outer.predicates inner.predicates.toList
    declarations := inner.declarations.foldl (fun ds d => Program.addDeclaration.place d ds)
      outer.declarations
    context := entered outer.context inner.context.toList } := by
  have hnames : ∀ e ∈ inner.predicates.toList, e.2.name = e.1 := fun e he =>
    (h e.1 e.2 (Std.TreeMap.mem_toList_iff_getElem?_eq_some.1 he)).name_eq
  unfold merge
  dsimp only
  rw [foldl_adopt hnames, foldl_addDeclaration, foldl_setAlias]

theorem merged_merge (h : inner.Complete) : Merged outer inner (merge outer inner) := by
  rw [merge_eq h.registered]
  refine ⟨getElem?_entered _ _, getElem?_entered _ _, fun name => ?_, rfl⟩
  have hlast : (inner.declarations.reverse.findSome? fun d =>
      if d.shape.name = name then some d else none) = inner.declared name := by
    refine findSome?_reverse_eq (fun d hd => ?_) fun d hd e hentry => ?_
    · refine ⟨d, List.mem_of_find?_eq_some hd, if_pos ?_⟩
      simpa using List.find?_some hd
    · obtain ⟨rfl, rfl⟩ : d.shape.name = name ∧ d = e := by simpa using hentry
      exact h.declared_eq_some hd
  rw [← hlast]
  exact find_foldl (List.find? fun d : Declaration => d.shape.name = name)
    (fun d _ t => find?_place d name t) _

theorem complete_merge (houter : outer.Complete) (hinner : inner.Complete) :
    (merge outer inner).Complete where
  registered := (keeps_merge (S := ∅) hinner.registered fun _ h => nomatch h).spares.registered
    houter.registered
  evaluated name q hq := by
    rw [(merged_merge hinner).predicates name, Option.or_eq_some_iff] at hq
    obtain hq | ⟨-, hq⟩ := hq
    · exact hinner.evaluated name q hq
    · exact houter.evaluated name q hq
  declared := by
    have hnodup := Program.nodup_names_declare houter.declared inner.declarations
    rw [Program.declare, foldl_addDeclaration] at hnodup
    rw [merge_eq hinner.registered]
    exact hnodup

/-! ### Entries -/

/-- What a program has an entry for. -/
inductive Entry where
  | predicate (name : String)
  | target (name : String)
  | declaration (name : String)

/-- What an entry may hold. -/
inductive Content where
  | predicate (q : Predicate)
  | target (name : String)
  | declaration (d : Declaration)

def Entry.content : Entry → Program → Option Content
  | .predicate name, p => p.predicates[name]?.map .predicate
  | .target name, p => p.context[name]?.map .target
  | .declaration name, p => (p.declared name).map .declaration

/-- The entries that a nested session starts with. -/
def Entry.IsInstalled : Entry → Prop
  | .predicate name => name ∈ Program.binaryNames
  | .target name => name ∈ ["adder", "equal", "less"]
  | .declaration _ => False

def Definition.Touches (e : Entry) : Definition → Prop
  | .predicate q => e = .predicate q.name
  | .load _ name _ => e = .predicate name
  | .declaration d => e = .declaration d.shape.name
  | .context name _ => e = .target name
  | .nested _ => e.IsInstalled
  | _ => False

namespace Entry

variable {e : Entry}

theorem content_congr (hpredicates : ∀ name : String, p.predicates[name]? = outer.predicates[name]?)
    (hcontext : p.context = outer.context) (hdeclarations : p.declarations = outer.declarations) :
    e.content p = e.content outer := by
  cases e with
  | predicate name => rw [content, content, hpredicates]
  | target name => rw [content, content, hcontext]
  | declaration name => rw [content, content, Program.declared, Program.declared, hdeclarations]

theorem content_blank (config : Config) : e.content (.blank config) = none := by
  cases e <;> simp [content, Program.blank, Program.declared]

theorem content_of_merged (h : Merged outer inner p) :
    e.content p = (e.content inner).or (e.content outer) := by
  cases e with
  | predicate name => rw [content, content, content, h.predicates, Option.map_or]
  | target name => rw [content, content, content, h.context, Option.map_or]
  | declaration name => rw [content, content, content, h.declared, Option.map_or]

theorem content_setAlias {target : String} (h : e ≠ .target name) :
    e.content (p.setAlias name target) = e.content p := by
  cases e with
  | predicate other => rfl
  | declaration other => rfl
  | target other =>
    have hne : name ≠ other := fun heq => h (congrArg Entry.target heq.symm)
    rw [content, content, Program.setAlias, Std.TreeMap.getElem?_insert, if_neg]
    exact fun heq => hne (Std.LawfulEqCmp.eq_of_compare heq)

theorem content_addDeclaration {d : Declaration} (h : e ≠ .declaration d.shape.name) :
    e.content (p.addDeclaration d) = e.content p := by
  cases e with
  | predicate other => rfl
  | target other => rfl
  | declaration other =>
    have hne : d.shape.name ≠ other := fun heq => h (congrArg Entry.declaration heq.symm)
    rw [content, content, Program.declared, Program.addDeclaration, find?_place, if_neg hne]
    rfl

end Entry

/-! ### What is left as it was -/

theorem sustained_keepsComplete : Sustained (fun _ => False) Program.KeepsComplete where
  evaluates := Program.Stepwise.keepsComplete
  restricts _ _ h := h.of_eq rfl rfl
  defines q _ := Program.keepsComplete_define q
  loads _ _ _ r _ := Program.leads_defineRelation r fun _ => Program.keepsComplete_define _
  declares _ _ _ h := ⟨h.registered, h.evaluated, Declaration.nodup_names_place h.declared⟩
  redirects _ _ _ _ h := h.of_eq rfl rfl
  installs _ _ := Program.leads_installBinary
    (fun _ _ _ r => Program.leads_defineRelation r fun _ => Program.keepsComplete_define _)
    fun _ h => h.of_eq rfl rfl
  merges config _ _ h houter := complete_merge houter (h (Program.complete_blank config))

theorem Reached.complete {config : Config} {ls : List Literal} (h : Reached config ls s) :
    s.workspace.program.Complete :=
  h.sustained sustained_keepsComplete (Program.complete_blank config)

/-- A definition that fails in a session leaves all but its own name as it was. -/
theorem Reached.refused {config : Config} {ls : List Literal} (h : Reached config ls s)
    {q : Predicate} (hrun : (Command.define q).perform s = .error e s') :
    Program.Refused q s.workspace s'.workspace := by
  obtain ⟨w, report, files⟩ := s
  simp only [Command.perform, liftM, monadLift, MonadLift.monadLift] at hrun
  split at hrun
  · cases hrun
  · rename_i hdefine
    cases hrun
    exact Program.refused_of_define_error h.complete hdefine

/-- A definition in which a variable is unbound, of a name that a new session has. -/
def unboundZero : Predicate := .ofBody "bin_zero" ["x"] [] (.equal (.var "x") (.var "z"))

/-- The definition fails, and with it the predicate is gone. -/
def dropsPredicate (q : Predicate) (s : Session) : Bool :=
  match (Command.define q).perform s with
  | .ok _ _ => false
  | .error _ s' => s.workspace.program.predicates.contains q.name &&
    !s'.workspace.program.predicates.contains q.name

theorem exists_of_dropsPredicate {q : Predicate} (h : dropsPredicate q s = true) : ∃ e s',
    (Command.define q).perform s = .error e s' ∧
      s.workspace.program.predicates.contains q.name = true ∧
      s'.workspace.program.predicates.contains q.name = false := by
  unfold dropsPredicate at h
  split at h
  · cases h
  · rename_i e s' hrun
    simp only [Bool.and_eq_true, Bool.not_eq_true'] at h
    exact ⟨e, s', hrun, h.1, h.2⟩

theorem exists_drops_unboundZero : ∃ (s : Session) (e : Failure) (s' : Session),
    start ⟨6, none, true, true⟩ = .ok s ∧
    (Command.define unboundZero).perform s = .error e s' ∧
    s.workspace.program.predicates.contains "bin_zero" = true ∧
    s'.workspace.program.predicates.contains "bin_zero" = false := by
  have hrun : (start ⟨6, none, true, true⟩).toOption.any (dropsPredicate unboundZero) = true := by
    decide +kernel
  obtain ⟨s, hstart, hdrops⟩ := exists_start_of_any hrun
  obtain ⟨e, s', hrun, hthere⟩ := exists_of_dropsPredicate hdrops
  exact ⟨s, e, s', hstart, hrun, hthere⟩

/-- Sums, equality and order are what they were. -/
theorem refused_unboundZero : ∃ s s' : Session, start ⟨6, none, true, true⟩ = .ok s ∧
    Program.Refused unboundZero s.workspace s'.workspace := by
  obtain ⟨s, e, s', hstart, hrun, -⟩ := exists_drops_unboundZero
  exact ⟨s, s', hstart, (Reached.start hstart).refused hrun⟩

/-- There is no relation for zero any more. -/
theorem getElem?_ne_of_unboundZero : ∃ (s : Session) (e : Failure) (s' : Session),
    start ⟨6, none, true, true⟩ = .ok s ∧
    (Command.define unboundZero).perform s = .error e s' ∧
    s'.workspace.program.predicates["bin_zero"]? ≠ s.workspace.program.predicates["bin_zero"]? := by
  obtain ⟨s, e, s', hstart, hrun, hbefore, hafter⟩ := exists_drops_unboundZero
  refine ⟨s, e, s', hstart, hrun, fun heq => ?_⟩
  rw [Std.TreeMap.contains_eq_isSome_getElem?] at hbefore hafter
  rw [heq, hbefore] at hafter
  cases hafter

def Leaves (e : Entry) (p p' : Program) : Prop :=
  p.Complete → p'.Complete ∧ e.content p' = e.content p

instance {e : Entry} : IsPreorder Program (Leaves e) where
  refl _ h := ⟨h, rfl⟩
  trans _ _ _ h h' hp := ⟨(h' (h hp).1).1, (h' (h hp).1).2.trans (h hp).2⟩

theorem leaves_define {e : Entry} {q : Predicate} (he : e ≠ .predicate q.name) :
    Program.Leads (Leaves e) (Program.define q) := by
  intro w h
  refine ⟨Program.keepsComplete_define q w h, ?_⟩
  have hgoverned := Program.governed_define q w
  cases e with
  | predicate name =>
    have hne : q.name ≠ name := fun heq => he (congrArg Entry.predicate heq.symm)
    have hkeeps := Program.keeps_define (S := {name}) hne w
    rw [Entry.content, Entry.content, h.getElem?_eq hkeeps.spares (Set.mem_singleton name)]
  | target name => rw [Entry.content, Entry.content, hgoverned.context]
  | declaration name =>
    rw [Entry.content, Entry.content, Program.declared, Program.declared, hgoverned.declarations]

theorem sustained_leaves (e : Entry) : Sustained (Definition.Touches e) (Leaves e) where
  evaluates hx w h := by
    have hspares := hx.spares w
    have hgoverned := hx.governed w
    refine ⟨hx.keepsComplete w h, Entry.content_congr (fun name => ?_) hgoverned.context
      hgoverned.declarations⟩
    exact h.getElem?_eq hspares (Set.mem_univ name)
  restricts _ _ h := ⟨h.of_eq rfl rfl, Entry.content_congr (fun _ => rfl) rfl rfl⟩
  defines _ he := leaves_define he
  loads _ _ _ r he := Program.leads_defineRelation r fun _ => leaves_define he
  declares d p he h := ⟨sustained_keepsComplete.declares d p id h, Entry.content_addDeclaration he⟩
  redirects name target p he h :=
    ⟨sustained_keepsComplete.redirects name target p id h, Entry.content_setAlias he⟩
  installs ds he := by
    refine Program.leads_installBinary (fun name hname _ r =>
      Program.leads_defineRelation r fun _ => leaves_define ?_) fun p h => ⟨h.of_eq rfl rfl, ?_⟩
    · rintro rfl
      exact he hname
    · have hne : ∀ name ∈ ["adder", "equal", "less"], e ≠ .target name := by
        rintro name hname rfl
        exact he hname
      rw [Entry.content_setAlias (hne _ (by decide)), Entry.content_setAlias (hne _ (by decide)),
        Entry.content_setAlias (hne _ (by decide))]
  merges config p p' h houter := by
    obtain ⟨hinner, hnone⟩ := h (Program.complete_blank config)
    refine ⟨complete_merge houter hinner, ?_⟩
    rw [Entry.content_of_merged (merged_merge hinner), hnone, Entry.content_blank]
    rfl

/-- What nested definitions have done to a session when they have succeeded: what their own session
`inner` has come to is merged into the program, and its report is added. An entry that none of them
touches is what it was; so is everything else that the program has, the restrictions among it. -/
structure Imported (ds : List Definition) (s inner s' : Session) : Prop where
  merged : Merged s.workspace.program inner.workspace.program s'.workspace.program
  report : s'.report.assertions = s.report.assertions ++ inner.report.assertions
  untouched : ∀ e : Entry, ¬(Definition.nested ds).Reaches (Definition.Touches e) s →
    e.content s'.workspace.program = e.content s.workspace.program

theorem complete_of_nested {config : Config} {alphabet : Alphabet} {files : Files}
    {ds : List Definition} (hinstall : (Program.installBinary : M Unit)
      (blank config alphabet files) = .ok () s) (hds : executeAll ds s = .ok () s') :
    s'.workspace.program.Complete := by
  have hstart := along_lift (sustained_keepsComplete.installs [] id) (blank config alphabet files)
  have hrest := sustained_keepsComplete.executeAll ds s (not_reachesAny_false ds s)
  rw [endOf_of_eq_ok hinstall] at hstart
  rw [endOf_of_eq_ok hds] at hrest
  exact hrest (hstart (Program.complete_blank config))

/-- Nested definitions that succeed change the entries that they touch, and those that fail change
nothing in the program or the report. -/
structure Imports (ds : List Definition) (s : Session) : Prop where
  ok : ∀ s', execute (.nested ds) s = .ok () s' → ∃ s₀ inner : Session,
    (Program.installBinary : M Unit) (blank s.workspace.program.config s.workspace.alphabet
      s.files) = .ok () s₀ ∧ executeAll ds s₀ = .ok () inner ∧ Imported ds s inner s'
  error : ∀ e s', execute (.nested ds) s = .error e s' →
    s'.workspace.program = s.workspace.program ∧ s'.report = s.report

theorem execute_nested (h : s.workspace.program.Complete) (ds : List Definition) :
    Imports ds s := by
  constructor
  · intro s' hrun
    have huntouched : ∀ e : Entry, ¬(Definition.nested ds).Reaches (Definition.Touches e) s →
        e.content s'.workspace.program = e.content s.workspace.program := by
      intro e he
      have hleaves := (sustained_leaves e).execute (.nested ds) s he
      rw [endOf_of_eq_ok hrun] at hleaves
      exact (hleaves h).2
    obtain ⟨⟨alphabet, program⟩, report, files⟩ := s
    rw [execute, inNested] at hrun
    split at hrun
    · rename_i hnested
      cases hrun
      obtain ⟨_, s₀, hinstall, hnested⟩ := exists_of_bind_eq_ok hnested
      obtain ⟨_, inner, hds, hclear⟩ := exists_of_bind_eq_ok hnested
      have hinner := complete_of_nested hinstall hds
      obtain ⟨w, hw, heq⟩ := exists_of_lift_eq_ok hclear
      cases heq
      cases hw
      have hcleared : { inner.workspace.program with restrictions := .none }.Complete :=
        hinner.of_eq rfl rfl
      have hmerged : Merged program _ _ := merged_merge hcleared
      exact ⟨s₀, inner, hinstall, hds, ⟨hmerged.predicates, hmerged.context, hmerged.declared,
        hmerged.others⟩, rfl, huntouched⟩
    · cases hrun
  · intro e s' hrun
    obtain ⟨⟨alphabet, program⟩, report, files⟩ := s
    rw [execute, inNested] at hrun
    split at hrun
    · cases hrun
    · cases hrun
      exact ⟨rfl, rfl⟩

/-- Nothing is defined, and then zero by what is not bound. -/
theorem execute_nested_unboundZero : ∃ s, start ⟨6, none, true, true⟩ = .ok s ∧
    Imports [.nested [], .predicate unboundZero] s := by
  obtain ⟨s, hstart⟩ := exists_start
  exact ⟨s, hstart, execute_nested (Reached.start hstart).complete _⟩

end Session

end RegularArithmetic
