import NameResolution.Proofs.Declaration.Standing

/-! # Names that are declared more than once

    What a name comes to stand for, and what is reported about it, follows from
    the declarations of that name in its module, in the order of the text. A name
    whose first declaration is no function stands for that one, and all others are
    reported. Functions share a name as long as their suffixes differ. -/

namespace NameResolution

/-! ## Declarations -/

/-- A declaration of a name in the module that belongs to `home`. -/
structure Declaration where
  home : RegionOwner
  isPub : Bool
  node : NodeId
  kind : DefKind
  ident : Ident
  /-- The label suffix of a function or an initializer; nothing else has one -/
  suffix? : Option String
  deriving DecidableEq, Repr

/-- The declaration that a step makes in a module. An impl has no name. -/
def OutlineStep.declaration? (home : RegionOwner) : OutlineStep → Option Declaration
  | .declare isPub node kind ident | .enterItem isPub node kind ident =>
    some ⟨home, isPub, node, kind, ident, none⟩
  | .declareFunc isPub node kind ident suffix | .enterFunc isPub node kind ident suffix =>
    some ⟨home, isPub, node, Declaring.kindOf kind, ident, some suffix⟩
  | .enterImpl .. | .enterBlock _ | .leave | .imports _ => none

/-- The declarations of an outline, each in the innermost module that is open. -/
def Outline.declarations : List RegionOwner → Outline → List Declaration
  | _, [] => []
  | homes, step :: outline =>
    (step.declaration? (homes.headD .none)).toList ++ declarations (step.homes homes) outline

/-- All that a program declares, in the order in which it is visited. -/
def Program.declarations (program : Program) : List Declaration :=
  Outline.declarations [.item program.id] (.ofProgram program)

/-- Only functions and initializers have a suffix. -/
theorem Outline.suffix?_isSome_iff {outline : Outline} (tidy : ∀ step ∈ outline, step.Tidy)
    {homes : List RegionOwner} {d : Declaration} (mem : d ∈ outline.declarations homes) :
    d.suffix?.isSome ↔ d.kind = .func ∨ d.kind = .init := by
  induction outline generalizing homes with
  | nil => cases mem
  | cons step outline ih =>
    rcases List.mem_append.mp mem with made | mem
    · have made := Option.mem_toList.mp made
      have ofStep := tidy step (List.mem_cons_self ..)
      cases step with
      | declare isPub node kind ident =>
        have notCallable : kind.isCallable = false := ofStep
        cases made
        cases kind <;> simp [DefKind.isCallable] at notCallable ⊢
      | enterItem isPub node kind ident =>
        have sort : kind.namespace? = some .type := ofStep
        cases made
        cases kind <;> simp [DefKind.namespace?] at sort ⊢
      | declareFunc isPub node kind ident suffix =>
        cases made
        cases kind <;> simp [Declaring.kindOf]
      | enterFunc isPub node kind ident suffix =>
        cases made
        cases kind <;> simp [Declaring.kindOf]
      | enterImpl | enterBlock | leave | imports => cases made
    · exact ih (fun step mem => tidy step (.tail _ mem)) mem

theorem Program.suffix?_isSome_iff {program : Program} {d : Declaration}
    (mem : d ∈ program.declarations) : d.suffix?.isSome ↔ d.kind = .func ∨ d.kind = .init :=
  Outline.suffix?_isSome_iff program.declares_outline.tidy mem

namespace Declaration

/-- The name as it is shown when it is taken. -/
def text (d : Declaration) : String := d.ident.name ++ d.suffix?.getD ""

/-- A declaration of a name in a module and a namespace. -/
structure IsAt (defs : Definitions) (module : ModuleId) (ns : Namespace) (name : String)
    (d : Declaration) : Prop where
  module : defs.moduleOf d.home = some module
  sort : d.kind.namespace? = some ns
  name : d.ident.name = name

instance (defs : Definitions) (module : ModuleId) (ns : Namespace) (name : String) :
    DecidablePred (IsAt defs module ns name) := fun d =>
  decidable_of_iff (defs.moduleOf d.home = some module ∧ d.kind.namespace? = some ns ∧
    d.ident.name = name) ⟨fun h => ⟨h.1, h.2.1, h.2.2⟩, fun h => ⟨h.module, h.sort, h.name⟩⟩

/-- A definition has been made for a declaration. -/
structure Made (defs : Definitions) (d : Declaration) (id : DefId) : Prop where
  ofNode? : defs.ofNode? d.node = some id
  find? : defs.find? id = some ⟨id, d.kind, d.ident, d.isPub, d.node, none⟩

end Declaration

/-- The declarations of a name in a module and a namespace, in their order. -/
def declaredAt (defs : Definitions) (declarations : List Declaration) (module : ModuleId)
    (ns : Namespace) (name : String) : List Declaration :=
  declarations.filter (·.IsAt defs module ns name)

/-- The first function with a suffix. -/
def firstWith (declarations : List Declaration) (suffix : String) : Option Declaration :=
  declarations.find? (·.suffix? = some suffix)

/-! ## What becomes of a name -/

/-- What a name stands for, by its declarations. -/
inductive StandsFor (defs : Definitions) : List Declaration → Option Binding → Prop where
  | nothing : StandsFor defs [] none
  /-- The first one keeps the name -/
  | single {first : Declaration} {others : List Declaration} {id : DefId}
      (single : first.suffix? = none) (made : first.Made defs id) :
      StandsFor defs (first :: others) (some (.definition id))
  /-- Functions share it: each suffix is that of the first one that has it -/
  | functions {first : Declaration} {others : List Declaration} {set : OverloadId}
      (function : first.suffix?.isSome)
      (members : ∀ suffix, Option.Rel (Declaration.Made defs)
        (firstWith (first :: others) suffix) (defs.member? set suffix)) :
      StandsFor defs (first :: others) (some (.overloads set))

/-- What is reported about a declaration, by those of the same name before it. -/
inductive Reply (d : Declaration) : List Declaration → Option Diagnostic → Prop where
  | first : Reply d [] none
  /-- Something else has the name -/
  | taken {first : Declaration} {others : List Declaration} (single : first.suffix? = none) :
      Reply d (first :: others)
        (some (.redefinition d.text d.ident.span first.ident.span first.kind))
  /-- A function with a suffix of its own -/
  | joins {first : Declaration} {others : List Declaration} {suffix : String}
      (function : first.suffix?.isSome) (labelled : d.suffix? = some suffix)
      (free : firstWith (first :: others) suffix = none) : Reply d (first :: others) none
  /-- A function whose suffix another one has -/
  | repeats {first earlier : Declaration} {others : List Declaration} {suffix : String}
      (function : first.suffix?.isSome) (labelled : d.suffix? = some suffix)
      (held : firstWith (first :: others) suffix = some earlier) :
      Reply d (first :: others)
        (some (.redefinition d.text d.ident.span earlier.ident.span earlier.kind))
  /-- Functions have the name, shown by the one with the least suffix -/
  | shadowed {first shown : Declaration} {others : List Declaration} {suffix : String}
      (function : first.suffix?.isSome) (notFunction : d.suffix? = none)
      (held : firstWith (first :: others) suffix = some shown)
      (least : ∀ other, firstWith (first :: others) other ≠ none → (compare suffix other).isLE) :
      Reply d (first :: others) (some (.redefinition d.text d.ident.span shown.ident.span .func))

/-- All that is reported about declarations, in their order. -/
inductive Reports (defs : Definitions) : List Declaration → List Diagnostic → Prop where
  | nil : Reports defs [] []
  | snoc {declarations : List Declaration} {d : Declaration} {reports : List Diagnostic}
      {reply : Option Diagnostic} {module : ModuleId} {ns : Namespace}
      (before : Reports defs declarations reports) (here : d.IsAt defs module ns d.ident.name)
      (replied : Reply d (declaredAt defs declarations module ns d.ident.name) reply) :
      Reports defs (declarations ++ [d]) (reports ++ reply.toList)

variable {defs defs' : Definitions} {declarations : List Declaration} {d : Declaration}
  {module : ModuleId} {ns : Namespace} {name : String}

/-! ## Larger tables -/

section

variable {α β : Type} {r r' : α → β → Prop} {a : Option α} {b : Option β}

theorem rel_imp (h : Option.Rel r a b) (imp : ∀ a b, r a b → r' a b) : Option.Rel r' a b := by
  cases h with
  | none => exact .none
  | some related => exact .some (imp _ _ related)

theorem eq_none_of_rel (h : Option.Rel r a b) : a = none ↔ b = none := by
  cases h <;> simp

theorem exists_of_rel {y : β} (h : Option.Rel r a (some y)) : ∃ x, a = some x ∧ r x y := by
  cases h with
  | some related => exact ⟨_, rfl, related⟩

end

theorem Declaration.Made.mono {id : DefId} (h : d.Made defs id) (ext : defs.Extends defs')
    (keeps : defs.Keeps defs') : d.Made defs' id :=
  ⟨ext.node h.ofNode?, keeps.defined h.find?⟩

/-- A name stands for the same in tables in which no other functions have joined its set. -/
theorem StandsFor.mono {binding : Option Binding} (h : StandsFor defs declarations binding)
    (ext : defs.Extends defs') (keeps : defs.Keeps defs')
    (same : ∀ set, binding = some (.overloads set) → ∀ suffix,
      defs'.member? set suffix = defs.member? set suffix) :
    StandsFor defs' declarations binding := by
  cases h with
  | nothing => exact .nothing
  | single single made => exact .single single (made.mono ext keeps)
  | functions function members =>
    refine .functions function fun suffix => ?_
    rw [same _ rfl]
    exact rel_imp (members suffix) fun _ _ made => made.mono ext keeps

/-- Where modules have been told apart, they stay so. -/
theorem declaredAt_mono (ext : defs.Extends defs')
    (placed : ∀ d ∈ declarations, ∃ id, defs.moduleOf d.home = some id) (module : ModuleId)
    (ns : Namespace) (name : String) :
    declaredAt defs' declarations module ns name = declaredAt defs declarations module ns name := by
  refine List.filter_congr fun d mem => ?_
  obtain ⟨id, held⟩ := placed d mem
  rw [decide_eq_decide]
  constructor
  · rintro ⟨held', sort, same⟩
    rw [ext.moduleOf held] at held'
    exact ⟨held.trans held', sort, same⟩
  · rintro ⟨held', sort, same⟩
    exact ⟨ext.moduleOf held', sort, same⟩

theorem Reports.mono {reports : List Diagnostic} (h : Reports defs declarations reports)
    (ext : defs.Extends defs') : Reports defs' declarations reports := by
  have placed {declarations : List Declaration} {reports : List Diagnostic}
      (h : Reports defs declarations reports) :
      ∀ d ∈ declarations, ∃ id, defs.moduleOf d.home = some id := by
    induction h with
    | nil => exact List.forall_mem_nil _
    | snoc _ here _ ih =>
      intro d mem
      rcases List.mem_append.mp mem with mem | mem
      · exact ih d mem
      · rw [List.mem_singleton.mp mem]
        exact ⟨_, here.module⟩
  induction h with
  | nil => exact .nil
  | snoc before here replied ih =>
    refine .snoc ih ⟨ext.moduleOf here.module, here.sort, rfl⟩ ?_
    rw [declaredAt_mono ext (placed before)]
    exact replied

/-! ## Names that stand for something -/

theorem StandsFor.eq_nil (h : StandsFor defs declarations none) : declarations = [] := by
  cases h
  rfl

theorem StandsFor.exists_cons {binding : Binding} (h : StandsFor defs declarations (some binding)) :
    ∃ first others, declarations = first :: others := by
  cases h <;> exact ⟨_, _, rfl⟩

theorem StandsFor.members {first : Declaration} {others : List Declaration} {set : OverloadId}
    (h : StandsFor defs (first :: others) (some (.overloads set))) :
    first.suffix?.isSome ∧ ∀ suffix, Option.Rel (Declaration.Made defs)
      (firstWith (first :: others) suffix) (defs.member? set suffix) := by
  cases h with
  | functions function members => exact ⟨function, members⟩

/-- What is no set of functions is the first declaration. -/
theorem StandsFor.made {first : Declaration} {others : List Declaration} {binding : Binding}
    (h : StandsFor defs (first :: others) (some binding))
    (other : ∀ set, binding ≠ .overloads set) :
    first.suffix? = none ∧ ∃ id, binding = .definition id ∧ first.Made defs id := by
  cases h with
  | single single made => exact ⟨single, _, rfl, made⟩
  | functions _ _ => exact absurd rfl (other _)

/-! ## One more declaration -/

theorem declaredAt_append (here : d.IsAt defs module ns name) :
    declaredAt defs (declarations ++ [d]) module ns name =
      declaredAt defs declarations module ns name ++ [d] := by
  rw [declaredAt, List.filter_append, List.filter_cons_of_pos (by simpa using here)]
  rfl

/-- The declarations of other names are as before. -/
theorem declaredAt_append_of_not (other : ¬ d.IsAt defs module ns name) :
    declaredAt defs (declarations ++ [d]) module ns name =
      declaredAt defs declarations module ns name := by
  rw [declaredAt, List.filter_append, List.filter_cons_of_neg (by simpa using other)]
  exact List.append_nil _

theorem firstWith_append (declarations : List Declaration) (d : Declaration) (suffix : String) :
    firstWith (declarations ++ [d]) suffix =
      (firstWith declarations suffix).or (if d.suffix? = some suffix then some d else none) := by
  simp only [firstWith, List.find?_append, List.find?_singleton, decide_eq_true_eq]

/-- A declaration that comes too late changes nothing about its name. -/
theorem StandsFor.append_late {binding : Option Binding} {first : Declaration}
    {others : List Declaration} (h : StandsFor defs (first :: others) binding)
    (late : first.suffix?.isSome → ∀ suffix, d.suffix? = some suffix →
      firstWith (first :: others) suffix ≠ none) :
    StandsFor defs (first :: others ++ [d]) binding := by
  cases h with
  | single single made => exact .single single made
  | functions function members =>
    refine .functions function fun suffix => ?_
    show Option.Rel _ (firstWith (first :: others ++ [d]) suffix) _
    rw [firstWith_append]
    have member := members suffix
    split
    · next labelled =>
      obtain ⟨earlier, held⟩ := Option.ne_none_iff_exists'.mp (late function suffix labelled)
      rw [held] at member ⊢
      exact member
    · rw [Option.or_none]
      exact member

/-- A function joins others of its name. -/
theorem StandsFor.append_function {first : Declaration} {others : List Declaration}
    {set : OverloadId} {suffix : String} {id : DefId}
    (h : StandsFor defs (first :: others) (some (.overloads set)))
    (ext : defs.Extends defs') (keeps : defs.Keeps defs') (labelled : d.suffix? = some suffix)
    (free : defs.member? set suffix = none) (made : d.Made defs' id)
    (joined : ∀ other, defs'.member? set other =
      if suffix = other then some id else defs.member? set other) :
    StandsFor defs' (first :: others ++ [d]) (some (.overloads set)) := by
  cases h with
  | functions function members =>
    refine .functions function fun other => ?_
    show Option.Rel _ (firstWith (first :: others ++ [d]) other) _
    rw [firstWith_append, joined]
    have member := members other
    by_cases same : suffix = other
    · subst same
      rw [if_pos rfl, if_pos labelled, (eq_none_of_rel member).mpr free]
      exact .some made
    · have unlike : d.suffix? ≠ some other := by
        rw [labelled]
        exact fun eq => same (Option.some.inj eq)
      rw [if_neg same, if_neg unlike, Option.or_none]
      exact rel_imp member fun _ _ made => made.mono ext keeps

/-- The first function of its name. -/
theorem StandsFor.of_function {set : OverloadId} {suffix : String} {id : DefId}
    (labelled : d.suffix? = some suffix) (made : d.Made defs id)
    (members : ∀ other, defs.member? set other = if suffix = other then some id else none) :
    StandsFor defs [d] (some (.overloads set)) := by
  refine .functions (by rw [labelled]; rfl) fun other => ?_
  rw [members, firstWith, List.find?_singleton, labelled]
  by_cases same : suffix = other
  · rw [if_pos same, if_pos (by simpa using same)]
    exact .some made
  · rw [if_neg same, if_neg (by simpa using same)]
    exact .none

/-! ## Reports -/

theorem report_of_made {id : DefId} (made : d.Made defs id) {text : String} {span : Span}
    {report : Diagnostic} (reported : redefinition defs text span (.definition id) = .ok report) :
    report = .redefinition text span d.ident.span d.kind := by
  rw [redefinition, Definitions.get_of_find? made.find?] at reported
  exact (Except.ok.inj reported).symm

/-- A set of functions is shown by the one with the least suffix. -/
theorem report_of_functions {set : OverloadId} {text : String} {span : Span} {report : Diagnostic}
    (reported : redefinition defs text span (.overloads set) = .ok report) :
    ∃ suffix id shown, defs.member? set suffix = some id ∧ defs.find? id = some shown ∧
      report = .redefinition text span shown.ident.span .func ∧
      ∀ other, defs.member? set other ≠ none → (compare suffix other).isLE := by
  obtain ⟨first, listed, last⟩ := Except.bind_eq_ok.mp reported
  obtain ⟨members, got, listed⟩ := Except.bind_eq_ok.mp listed
  have held (suffix : String) : defs.member? set suffix = members.get? suffix := by
    rw [Definitions.member?, Definitions.getElem?_of_overloadSet got, Option.bind_some]
  cases list : members.toList with
  | nil =>
    rw [list] at listed
    cases listed
  | cons least others =>
    obtain ⟨suffix, id⟩ := least
    rw [list] at listed
    obtain ⟨shown, got, rest⟩ := Except.bind_eq_ok.mp listed
    cases rest
    cases last
    have mem : (suffix, id) ∈ members.toList := by rw [list]; exact List.mem_cons_self ..
    refine ⟨suffix, id, shown, (held suffix).trans (OverloadSet.mem_toList.mp mem),
      Definitions.find?_of_get got, rfl, fun other there => ?_⟩
    -- members are listed in the order of their suffixes
    have sorted : List.Pairwise (fun a b => compare a.1 b.1 = .lt) members.toList :=
      Std.TreeMap.ordered_keys_toList
    obtain ⟨id', there⟩ := Option.ne_none_iff_exists'.mp there
    have mem' : (other, id') ∈ members.toList :=
      OverloadSet.mem_toList.mpr ((held other).symm.trans there)
    rw [list] at sorted mem'
    rcases List.mem_cons.mp mem' with same | mem'
    · cases same
      simp
    · rw [(List.pairwise_cons.mp sorted).1 _ mem']
      rfl

/-- What is reported about a name that other things stand for. -/
theorem Reply.of_reported {first : Declaration} {others : List Declaration} {binding : Binding}
    (stands : StandsFor defs (first :: others) (some binding)) {report : Diagnostic}
    (reported : redefinition defs d.text d.ident.span binding = .ok report)
    (other : first.suffix?.isSome → d.suffix? = none) :
    Reply d (first :: others) (some report) := by
  cases stands with
  | single single made =>
    rw [report_of_made made reported]
    exact .taken single
  | functions function members =>
    obtain ⟨suffix, id, shown, held, found, rfl, least⟩ := report_of_functions reported
    obtain ⟨earlier, first_held, made⟩ := exists_of_rel (held ▸ members suffix)
    have same := made.find?
    rw [found] at same
    cases same
    exact .shadowed function (other function) first_held fun suffix' there =>
      least suffix' fun missing => there ((eq_none_of_rel (members suffix')).mpr missing)

namespace Declaring

variable {labels : NodeId → String → Prop} {isPub : Bool} {node : NodeId} {kind : DefKind}
  {ident : Ident} {suffix : String} {home : RegionOwner} {homes homes' : List RegionOwner}
  {s s' : DeclareState} {log : Log}

/-! ## Steps -/

/-- What has become of the declarations so far. -/
structure Tally (homes : List RegionOwner) (declarations : List Declaration) (s : DeclareState) :
    Prop where
  standing : Standing s.defs s.tree homes s.current
  placed : ∀ d ∈ declarations, ∃ id, s.defs.moduleOf d.home = some id
  standsFor : ∀ module ns name, StandsFor s.defs (declaredAt s.defs declarations module ns name)
    (s.tree.bindingAt? module ns name)
  reports : Reports s.defs declarations s.diagnostics

/-- What a part of the first pass does that declares nothing. -/
structure Silent (s s' : DeclareState) : Prop where
  keeps : s.defs.Keeps s'.defs
  members : ∀ set suffix, s'.defs.member? set suffix = s.defs.member? set suffix
  bindings : ∀ module ns name, s'.tree.bindingAt? module ns name = s.tree.bindingAt? module ns name
  diagnostics : s'.diagnostics = s.diagnostics

theorem Tally.silent (tally : Tally homes declarations s) (silent : Silent s s')
    (moves : Moves homes' s s') : Tally homes' declarations s' := by
  refine ⟨moves.standing, fun d mem => ?_, fun module ns name => ?_, ?_⟩
  · obtain ⟨id, held⟩ := tally.placed d mem
    exact ⟨id, moves.enlarges.defs.moduleOf held⟩
  · rw [declaredAt_mono moves.enlarges.defs tally.placed, silent.bindings]
    exact (tally.standsFor module ns name).mono moves.enlarges.defs silent.keeps
      fun set _ suffix => silent.members set suffix
  · rw [silent.diagnostics]
    exact tally.reports.mono moves.enlarges.defs

/-- What one more declaration comes to. Only its own name can have changed. -/
structure Adopts (declarations : List Declaration) (ns : Namespace) (d : Declaration)
    (s s' : DeclareState) : Prop where
  keeps : s.defs.Keeps s'.defs
  sort : d.kind.namespace? = some ns
  replied : ∃ reply, Reply d (declaredAt s.defs declarations s.current ns d.ident.name) reply ∧
    s'.diagnostics = s.diagnostics ++ reply.toList
  standsFor : StandsFor s'.defs
    (declaredAt s.defs declarations s.current ns d.ident.name ++ [d])
    (s'.tree.bindingAt? s.current ns d.ident.name)
  others : ∀ module ns' name', (module, ns', name') ≠ (s.current, ns, d.ident.name) →
    s'.tree.bindingAt? module ns' name' = s.tree.bindingAt? module ns' name' ∧
      ∀ set, s.tree.bindingAt? module ns' name' = some (.overloads set) → ∀ suffix,
        s'.defs.member? set suffix = s.defs.member? set suffix

theorem Tally.adopts (tally : Tally homes declarations s) (adopts : Adopts declarations ns d s s')
    (held : s.defs.moduleOf d.home = some s.current) (moves : Moves homes s s') :
    Tally homes (declarations ++ [d]) s' := by
  have ext := moves.enlarges.defs
  have held' := ext.moduleOf held
  have same := declaredAt_mono ext tally.placed
  have here : d.IsAt s'.defs s.current ns d.ident.name := ⟨held', adopts.sort, rfl⟩
  refine ⟨moves.standing, fun e mem => ?_, fun module ns' name' => ?_, ?_⟩
  · rcases List.mem_append.mp mem with mem | mem
    · obtain ⟨id, held⟩ := tally.placed e mem
      exact ⟨id, ext.moduleOf held⟩
    · rw [List.mem_singleton.mp mem]
      exact ⟨_, held'⟩
  · by_cases isHere : (module, ns', name') = (s.current, ns, d.ident.name)
    · cases isHere
      rw [declaredAt_append here, same]
      exact adopts.standsFor
    · obtain ⟨bound, members⟩ := adopts.others module ns' name' isHere
      have elsewhere : ¬ d.IsAt s'.defs module ns' name' := by
        rintro ⟨module_eq, sort, rfl⟩
        rw [held'] at module_eq
        rw [adopts.sort] at sort
        cases module_eq
        cases sort
        exact isHere rfl
      rw [declaredAt_append_of_not elsewhere, same, bound]
      exact (tally.standsFor module ns' name').mono ext adopts.keeps members
  · obtain ⟨reply, replied, diagnostics⟩ := adopts.replied
    rw [diagnostics]
    refine .snoc (tally.reports.mono ext) here ?_
    rw [same]
    exact replied

/-- A declaration that comes too late for its name is reported, and changes nothing else. -/
theorem Adopts.of_late (tally : Tally homes declarations s) (sort : d.kind.namespace? = some ns)
    {binding : Binding} (taken : s.tree.bindingAt? s.current ns d.ident.name = some binding)
    (ext : s.defs.Extends s'.defs) (keeps : s.defs.Keeps s'.defs)
    (members : ∀ set suffix, s'.defs.member? set suffix = s.defs.member? set suffix)
    (tree : s'.tree = s.tree) {report : Diagnostic}
    (reported : s'.diagnostics = s.diagnostics ++ [report])
    (late : ∀ first others, StandsFor s.defs (first :: others) (some binding) →
      Reply d (first :: others) (some report) ∧ (first.suffix?.isSome →
        ∀ suffix, d.suffix? = some suffix → firstWith (first :: others) suffix ≠ none)) :
    Adopts declarations ns d s s' := by
  have stands := tally.standsFor s.current ns d.ident.name
  rw [taken] at stands
  obtain ⟨first, others, before⟩ := stands.exists_cons
  rw [before] at stands
  obtain ⟨reply, tooLate⟩ := late first others stands
  refine ⟨keeps, sort, ⟨some report, before ▸ reply, reported⟩, ?_, fun _ _ _ _ =>
    ⟨by rw [tree], fun set _ suffix => members set suffix⟩⟩
  rw [tree, before, taken]
  exact (stands.mono ext keeps fun set _ suffix => members set suffix).append_late tooLate

/-- Something that is no function. -/
theorem NameOutcome.adopts (outcome : NameOutcome isPub node kind ident s s')
    (unused : s.defs.ofNode? node = none) (tally : Tally homes declarations s) :
    ∃ ns, Adopts declarations ns ⟨home, isPub, node, kind, ident, none⟩ s s' := by
  have keeps : s.defs.Keeps (declaredIn s isPub node kind ident) := Definitions.keeps_declared ..
  have ext : s.defs.Extends (declaredIn s isPub node kind ident) :=
    Definitions.extends_declared unused
  cases outcome with
  | @bound ns m sort found takes free =>
    have known := ModuleTree.known_of_find? found
    have none_before : declaredAt s.defs declarations s.current ns ident.name = [] :=
      (free ▸ tally.standsFor s.current ns ident.name).eq_nil
    refine ⟨ns, keeps, sort, ⟨none, none_before ▸ .first, (List.append_nil _).symm⟩, ?_, ?_⟩
    · show StandsFor _ (declaredAt s.defs declarations s.current ns ident.name ++ _) _
      rw [ModuleTree.bindingAt?_bind_self known, none_before]
      exact .single rfl ⟨Definitions.ofNode?_declared_self, Definitions.find?_declared_nextId⟩
    · intro module ns' name' elsewhere
      exact ⟨ModuleTree.bindingAt?_bind_of_ne elsewhere, fun _ _ _ => rfl⟩
  | @taken ns binding report sort taken reported =>
    refine ⟨ns, .of_late tally sort taken ext keeps (fun _ _ => rfl) rfl rfl
      fun first others stands => ⟨?_, fun _ suffix labelled => nomatch labelled⟩⟩
    refine Reply.of_reported (stands.mono ext keeps fun _ _ _ => rfl) ?_ fun _ => rfl
    rw [Declaration.text]
    simpa using reported

/-- A function or an initializer. -/
theorem FuncOutcome.adopts {kind : FuncKind} {free : Bool}
    (outcome : FuncOutcome isPub node (kindOf kind) ident suffix s free s')
    (unused : s.defs.ofNode? node = none) (inOrder : InOrder labels s)
    (tally : Tally homes declarations s) :
    Adopts declarations .value ⟨home, isPub, node, kindOf kind, ident, some suffix⟩ s s' := by
  have sort : (kindOf kind).namespace? = some .value := by cases kind <;> rfl
  have keeps : s.defs.Keeps (declaredIn s isPub node (kindOf kind) ident) :=
    Definitions.keeps_declared ..
  have ext : s.defs.Extends (declaredIn s isPub node (kindOf kind) ident) :=
    Definitions.extends_declared unused
  have stands := tally.standsFor s.current .value ident.name
  have ofNode := outcome.ofNode?
  have sorted := inOrder.sound.sorted
  cases outcome with
  | @joined set into defs bound made =>
    have keeps' := Definitions.keeps_of_addFunction made
    have ext' := (Definitions.grows_of_addFunction made).toExtends
    obtain ⟨rfl, isFree, joined, elsewhere⟩ := Definitions.member?_of_added made
    rw [bound] at stands
    obtain ⟨first, others, before⟩ := stands.exists_cons
    rw [before] at stands
    obtain ⟨function, members⟩ := stands.members
    refine ⟨keeps.trans keeps', sort, ⟨none, before ▸ ?_, (List.append_nil _).symm⟩, ?_, ?_⟩
    · exact .joins function rfl ((eq_none_of_rel (members suffix)).mpr isFree)
    · show StandsFor _ (declaredAt s.defs declarations s.current .value ident.name ++ _)
        (s.tree.bindingAt? s.current .value ident.name)
      rw [before, bound]
      exact stands.append_function (ext.trans ext') (keeps.trans keeps') rfl isFree
        ⟨ofNode, keeps'.defined Definitions.find?_declared_nextId⟩ joined
    · intro module ns' name' ne
      refine ⟨rfl, fun set' bound' => elsewhere set' ?_⟩
      -- no other name has the set that has been joined
      rintro rfl
      obtain ⟨rfl, rfl⟩ := sorted.apart bound bound'
      obtain ⟨rfl, -⟩ := sorted.bindings bound'
      exact ne rfl
  | @suffixTaken set id defs report bound made reported =>
    have keeps' := Definitions.keeps_of_addFunction made
    have ext' := (Definitions.grows_of_addFunction made).toExtends
    obtain ⟨held, same⟩ := Definitions.member?_of_taken made
    have held : s.defs.member? set suffix = some id := held
    refine .of_late tally sort bound (ext.trans ext') (keeps.trans keeps') same rfl rfl
      fun first others stands => ?_
    obtain ⟨function, members⟩ := stands.members
    obtain ⟨earlier, first_held, earlier_made⟩ := exists_of_rel (held ▸ members suffix)
    constructor
    · rw [report_of_made (earlier_made.mono (ext.trans ext') (keeps.trans keeps')) reported]
      exact .repeats function rfl first_held
    · rintro - _ ⟨⟩
      rw [first_held]
      exact Option.some_ne_none _
  | @blocked binding report taken other reported =>
    refine .of_late tally sort taken ext keeps (fun _ _ => rfl) rfl rfl
      fun first others stands => ?_
    obtain ⟨single, id, rfl, made⟩ := stands.made other
    constructor
    · rw [report_of_made (made.mono ext keeps) reported]
      exact .taken single
    · intro function
      rw [single] at function
      cases function
  | @opened set defs isFree made =>
    have keeps' := Definitions.keeps_of_addFunction made
    obtain ⟨isNew, -, joined, elsewhere⟩ := Definitions.member?_of_added made
    have isNew : set.index = s.defs.overloads.size := by
      rw [isNew]
      rfl
    have before : declaredAt s.defs declarations s.current .value ident.name = [] :=
      (isFree ▸ stands).eq_nil
    refine ⟨keeps.trans keeps', sort, ⟨none, before ▸ .first, (List.append_nil _).symm⟩, ?_, ?_⟩
    · show StandsFor _ (declaredAt s.defs declarations s.current .value ident.name ++ _) _
      rw [ModuleTree.bindingAt?_bind_self inOrder.current, before]
      refine StandsFor.of_function rfl
        ⟨ofNode, keeps'.defined Definitions.find?_declared_nextId⟩ fun other => ?_
      have missing : (declaredIn s isPub node (kindOf kind) ident).member? set other = none :=
        Definitions.member?_of_new isNew other
      rw [joined, missing]
    · intro module ns' name' ne
      refine ⟨ModuleTree.bindingAt?_bind_of_ne ne, fun set' bound' => elsewhere set' ?_⟩
      rintro rfl
      exact inOrder.sound.not_bound_of_new isNew _ _ _ bound'

/-- To open a module declares nothing. -/
theorem silent_of_adds {defs : Definitions} {tree : ModuleTree} {module : ModuleId}
    {owner : ModuleOwner} (adds : s.tree.Adds s.current owner node tree)
    (entries : defs.entries = s.defs.entries) (overloads : defs.overloads = s.defs.overloads) :
    Silent s { s with tree, defs, current := module } := by
  refine ⟨.of_eq entries overloads, fun set suffix => ?_, adds.bindingAt?_eq, rfl⟩
  rw [Definitions.member?, overloads]
  rfl

theorem EnterOutcome.silent {id : DefId} {name : Option String}
    (outcome : EnterOutcome id node s name s') (valid : s.tree.Valid) : Silent s s' := by
  cases outcome with
  | named child made =>
    obtain ⟨-, rfl⟩ := Definitions.addModule_eq_ok.mp made
    exact silent_of_adds (ModuleTree.adds_of_addNamed valid child node).2 rfl rfl
  | anonymous child made =>
    obtain ⟨-, rfl⟩ := Definitions.addModule_eq_ok.mp made
    exact silent_of_adds (ModuleTree.adds_of_addAnonymous valid child).2 rfl rfl

theorem Tally.declare (tally : Tally homes declarations s)
    (outcome : NameOutcome isPub node kind ident s s') (unused : s.defs.ofNode? node = none) :
    Tally homes (declarations ++ [⟨homes.headD .none, isPub, node, kind, ident, none⟩]) s' := by
  obtain ⟨home, others, rfl, held⟩ := tally.standing.head
  obtain ⟨ns, adopts⟩ := outcome.adopts unused tally
  exact tally.adopts adopts held (outcome.moves unused tally.standing)

theorem Tally.declareFunc (tally : Tally homes declarations s) {kind : FuncKind} {free : Bool}
    (outcome : FuncOutcome isPub node (kindOf kind) ident suffix s free s')
    (unused : s.defs.ofNode? node = none) (inOrder : InOrder labels s) :
    Tally homes
      (declarations ++ [⟨homes.headD .none, isPub, node, kindOf kind, ident, some suffix⟩]) s' := by
  obtain ⟨home, others, rfl, held⟩ := tally.standing.head
  exact tally.adopts (outcome.adopts unused inOrder tally) held
    (outcome.moves unused tally.standing)

theorem Tally.enter (tally : Tally homes declarations s) {id : DefId} {name : Option String}
    (outcome : EnterOutcome id node s name s') (valid : s.tree.Valid)
    (ofNode : s.defs.ofNode? node = some id) : Tally (.item node :: homes) declarations s' :=
  tally.silent (outcome.silent valid) ((outcome.opens valid ofNode).moves tally.standing)

theorem StepOutcome.tally {step : OutlineStep} (outcome : StepOutcome s step s')
    (inOrder : InOrder labels s) (tally : Tally homes declarations s) :
    Tally (step.homes homes)
      (declarations ++ (step.declaration? (homes.headD .none)).toList) s' := by
  have nothing : declarations ++ (none : Option Declaration).toList = declarations :=
    List.append_nil _
  have valid := inOrder.sound.intact.validTree
  have moves := outcome.moves valid tally.standing
  cases outcome with
  | declare unused outcome => exact tally.declare outcome unused
  | enterItem unused outcome entered =>
    exact (tally.declare outcome unused).enter entered (outcome.grows.valid valid) outcome.ofNode?
  | @enterImpl isPub node span _ unused entered =>
    have silent : Silent s { s with defs := declaredIn s isPub node .impl ⟨"impl", span⟩ } :=
      ⟨Definitions.keeps_declared .., fun _ _ => rfl, fun _ _ _ => rfl, rfl⟩
    have declared := tally.silent silent ((enlarges_declared unused).moves tally.standing rfl)
    exact nothing.symm ▸ declared.enter entered valid Definitions.ofNode?_declared_self
  | declareFunc unused outcome => exact tally.declareFunc outcome unused inOrder
  | enterFunc unused outcome entered =>
    exact (tally.declareFunc outcome unused inOrder).enter entered (outcome.grows.valid valid)
      outcome.ofNode?
  | enterBlock child made =>
    obtain ⟨-, rfl⟩ := Definitions.addBlock_eq_ok.mp made
    have adds := (ModuleTree.adds_of_addAnonymous valid child).2
    exact nothing.symm ▸ tally.silent (silent_of_adds adds rfl rfl) moves
  | leave _ _ | imports _ =>
    exact nothing.symm ▸ tally.silent ⟨.refl _, fun _ _ => rfl, fun _ _ _ => rfl, rfl⟩ moves

theorem FollowOutcome.tally {outline : Outline} (h : FollowOutcome labels outline s s')
    (tally : Tally homes declarations s) :
    Tally (outline.homes homes) (declarations ++ outline.declarations homes) s' := by
  induction h generalizing homes declarations with
  | nil _ =>
    have nothing : declarations ++ Outline.declarations homes [] = declarations :=
      List.append_nil _
    exact nothing.symm ▸ tally
  | @cons step outline _ _ _ inOrder outcome _ _ ih =>
    have all : declarations ++ Outline.declarations homes (step :: outline) =
        declarations ++ (step.declaration? (homes.headD .none)).toList ++
          Outline.declarations (step.homes homes) outline := (List.append_assoc ..).symm
    rw [all]
    exact ih (outcome.tally inOrder tally)

/-! ## The program -/

theorem tally_atRoot (program : Program) : Tally [.item program.id] [] (atRoot program) := by
  refine ⟨standing_atRoot program, List.forall_mem_nil _, fun module ns name => ?_, .nil⟩
  have unbound : (atRoot program).tree.bindingAt? module ns name = none :=
    ModuleTree.bindingAt?_new module ns name
  rw [unbound]
  exact .nothing

end Declaring

/-- Redefinitions are exact. The first pass goes through, and after it each name stands for what
    its declarations in its module make of it: the first one, or a set of functions with the
    first one for each suffix. Each declaration that comes too late is reported once, at its
    place in the text, and nothing else is reported. -/
theorem redefinitions_are_exact (program : Program) (distinct : program.nodes.Nodup)
    (log : Log) :
    ∃ built log', declareProgram .empty .new program log = .ok built log' ∧
      (∀ module ns name,
        StandsFor built.defs (declaredAt built.defs program.declarations module ns name)
          (built.tree.bindingAt? module ns name)) ∧
      Reports built.defs program.declarations built.diagnostics := by
  obtain ⟨_, built, log', run, -⟩ := Run.false_iff.mp (Declaring.run_wholeProgram distinct log)
  have declared : declareProgram .empty .new program log = .ok built log' :=
    Logged.bind_eq_ok.mpr ⟨_, _, run, rfl⟩
  have tally : Declaring.Tally _ program.declarations built :=
    (declareProgram_outcome declared).tally (Declaring.tally_atRoot program)
  exact ⟨built, log', declared, tally.standsFor, tally.reports⟩

/-- Names that clash in all three ways:

        const k; func k()
        func g(x); func g(y); func g(x); const g -/
def clashes : Program :=
  ⟨⟨0⟩, ⟨0, 60⟩,
    [.const ⟨⟨1⟩, true, ⟨0, 8⟩⟩ ⟨"k", ⟨6, 1⟩⟩ none none,
    .func ⟨⟨2⟩, true, ⟨9, 8⟩⟩ .func ⟨"k", ⟨14, 1⟩⟩ [] [] none none,
    .func ⟨⟨3⟩, true, ⟨18, 9⟩⟩ .func ⟨"g", ⟨23, 1⟩⟩ []
      [.mk none (.ident ⟨4⟩ ⟨"x", ⟨25, 1⟩⟩ none) none none] none none,
    .func ⟨⟨5⟩, true, ⟨29, 9⟩⟩ .func ⟨"g", ⟨34, 1⟩⟩ []
      [.mk none (.ident ⟨6⟩ ⟨"y", ⟨36, 1⟩⟩ none) none none] none none,
    .func ⟨⟨7⟩, true, ⟨40, 9⟩⟩ .func ⟨"g", ⟨45, 1⟩⟩ []
      [.mk none (.ident ⟨8⟩ ⟨"x", ⟨47, 1⟩⟩ none) none none] none none,
    .const ⟨⟨9⟩, true, ⟨51, 7⟩⟩ ⟨"g", ⟨57, 1⟩⟩ none none]⟩

/-- The function comes too late for the constant, and so do the function with the same suffix and
    the constant for the functions. -/
theorem redefinitions_are_exact_of_clashes :
    ∃ built log', declareProgram .empty .new clashes .empty = .ok built log' ∧
      built.diagnostics =
        [.redefinition "k()" ⟨14, 1⟩ ⟨6, 1⟩ .const, .redefinition "g(x:)" ⟨45, 1⟩ ⟨23, 1⟩ .func,
          .redefinition "g" ⟨57, 1⟩ ⟨23, 1⟩ .func] ∧
      (∀ module ns name,
        StandsFor built.defs (declaredAt built.defs clashes.declarations module ns name)
          (built.tree.bindingAt? module ns name)) ∧
      Reports built.defs clashes.declarations built.diagnostics := by
  have checked : ∃ built log', declareProgram .empty .new clashes .empty = .ok built log' ∧
      (built.diagnostics ==
        [.redefinition "k()" ⟨14, 1⟩ ⟨6, 1⟩ .const, .redefinition "g(x:)" ⟨45, 1⟩ ⟨23, 1⟩ .func,
          .redefinition "g" ⟨57, 1⟩ ⟨23, 1⟩ .func]) = true :=
    Logged.exists_of_check (by decide +kernel)
  obtain ⟨built, log', run, same⟩ := checked
  obtain ⟨_, _, run', standsFor, reports⟩ := redefinitions_are_exact clashes (by decide +kernel) .empty
  rw [run] at run'
  cases run'
  exact ⟨built, log', run, beq_iff_eq.mp same, standsFor, reports⟩

end NameResolution
