import NameResolution.Proofs.Import.State
import NameResolution.Proofs.Tables.Intact

/-! # Steps of the import phase

    Each step finds the tables in order and leaves them so: definitions gain
    aliases and functions, modules gain names, and a directive that has been
    opened is left to whoever opened it. No step ends with a fault. -/

namespace NameResolution

/-! ## Aliases -/

namespace Definitions

variable {defs : Definitions}

theorem Valid.defineAlias (valid : defs.Valid) {isPub : Bool} {node : NodeId} {ident : Ident}
    {target : DefId} (known : defs.Known target) :
    Yields False (defs.defineAlias isPub node ident target) fun r =>
      r.2.Valid ∧ defs.Grows r.2 ∧ r.2.Known r.1 ∧ r.2.overloads = defs.overloads := by
  rw [defineAlias_eq known, Yields.ok_iff]
  refine ⟨?_, grows_push .., known_nextId_push .., rfl⟩
  refine valid.push isPub node .importAlias ident (some target) ?_
  exact fun _ eq => Option.some.inj eq ▸ known

/-- What may be imported of a set is known, and it is not nothing: if only `pub` functions may be
    taken, there must be one. -/
theorem Valid.importable (valid : defs.Valid) {i : Nat} {set : OverloadSet}
    (held : defs.overloads[i]? = some set) (nonempty : set.toList ≠ []) {publicOnly : Bool}
    (pub : publicOnly = true → ∃ m ∈ set.toList, defs.isPub m.2 = .ok true) :
    Yields False (defs.importable set publicOnly) fun members =>
      members ≠ [] ∧ ∀ m ∈ members, defs.Known m.2 := by
  have known : ∀ m ∈ set.toList, defs.Known m.2 := fun m mem => valid.known_of_mem held mem
  cases publicOnly with
  | false => exact ⟨nonempty, known⟩
  | true =>
    obtain ⟨m, mem, isPub⟩ := pub rfl
    rw [Definitions.importable, if_pos rfl]
    -- the function that is `pub` is not filtered out, so something is left
    have kept := Yields.filterM set.toList (fun m mem => (known m mem).isPub) known
    obtain ⟨members, result, known⟩ := Yields.false_iff.mp kept
    rw [result]
    exact ⟨List.ne_nil_of_mem (mem_filterM_ok result mem isPub), known⟩

theorem Valid.importMembers {isPub : Bool} {node : NodeId} {into : OverloadId}
    (members : List (String × DefId)) {defs : Definitions} (valid : defs.Valid)
    (there : ∃ set, defs.overloads[into.index]? = some set)
    (known : ∀ m ∈ members, defs.Known m.2) :
    Yields False (importMembers isPub node into members defs) fun r =>
      r.2.Valid ∧ defs.Grows r.2 ∧ (members ≠ [] → r.2.Stocked into) ∧
        ∀ m ∈ r.1, r.2.Known m.2 := by
  induction members generalizing defs with
  | nil => exact ⟨valid, .refl defs, absurd rfl, List.forall_mem_nil _⟩
  | cons member members ih =>
    obtain ⟨suffix, target⟩ := member
    obtain ⟨set, held⟩ := there
    have target_known : defs.Known target := known _ (List.mem_cons_self ..)
    have others : ∀ m ∈ members, defs.Known m.2 := fun m mem => known m (List.mem_cons_of_mem _ mem)
    rw [Definitions.importMembers, overloadSet_of_getElem? held]
    simp only [Yields.bind_iff, Yields.ok_iff]
    split
    · next first taken =>
      -- the set is not empty, as there is a member that has the suffix
      simp only [Yields.bind_iff, Yields.pure_iff]
      apply (ih valid ⟨set, held⟩ others).mono
      intro r ended
      obtain ⟨valid', grows, _, known'⟩ := ended
      have first_known : defs.Known first := valid.members held taken
      have stocked : defs.Stocked into := ⟨set, suffix, first, held, taken⟩
      refine ⟨valid', grows, fun _ => grows.stocked stocked, fun m mem => ?_⟩
      rcases List.mem_cons.mp mem with rfl | mem
      · exact grows.known first_known
      · exact known' m mem
    · simp only [Yields.bind_iff]
      refine target_known.get.mono fun d _ => (valid.defineAlias target_known).mono ?_
      intro r made
      obtain ⟨id, defs₁⟩ := r
      obtain ⟨valid₁, grows₁, known₁, same⟩ := made
      -- the suffix is free: an alias of its own goes into the set
      have held₁ : defs₁.overloads[into.index]? = some set := by rw [same, held]
      have grows₂ : defs.Grows (defs₁.insertOverload into suffix id) :=
        grows₁.trans grows_insertOverload
      have stocked : (defs₁.insertOverload into suffix id).Stocked into :=
        stocked_insertOverload held₁
      have there : ∃ set',
          (defs₁.insertOverload into suffix id).overloads[into.index]? = some set' := by
        obtain ⟨set', _, _, held₂, _⟩ := stocked
        exact ⟨set', held₂⟩
      apply (ih (valid₁.insertOverload known₁) there fun m mem => grows₂.known (others m mem)).mono
      intro r ended
      obtain ⟨valid', grows, _, known'⟩ := ended
      exact ⟨valid', grows₂.trans grows, fun _ => grows.stocked stocked, known'⟩

/-- A set that is visible outside has a function that is. -/
theorem exists_isPub {id : OverloadId} {set : OverloadSet}
    (held : defs.overloads[id.index]? = some set)
    (pub : Importing.isPub defs (.overloads id) = .ok true) :
    ∃ m ∈ set.toList, defs.isPub m.2 = .ok true := by
  simp only [Importing.isPub, overloadSet_of_getElem? held] at pub
  exact exists_of_anyM_ok pub

/-- Of whatever is bound it is known whether it is visible outside. -/
theorem Valid.isPub (valid : defs.Valid) {ns : Namespace} {binding : Binding}
    (good : binding.Good defs ns) :
    Yields False (Importing.isPub defs binding) fun _ => True := by
  cases binding with
  | definition id | imported id => exact Definitions.Known.isPub good
  | overloads id =>
    simp only [Importing.isPub, Yields.bind_iff]
    refine good.1.overloadSet.mono fun set there => Yields.anyM _ ?_
    intro m mem
    exact (valid.known_of_mem there.1 mem).isPub

/-- When functions of a set have been imported, the set that has received them is stocked. -/
theorem Valid.importOverloads (valid : defs.Valid) {isPub : Bool} {node : NodeId}
    {source : OverloadId} {into : Option OverloadId} {publicOnly : Bool}
    (stocked : defs.Stocked source) (stocked' : ∀ id, into = some id → defs.Stocked id)
    (pub : publicOnly = true → Importing.isPub defs (.overloads source) = .ok true) :
    Yields False (defs.importOverloads isPub node source into publicOnly) fun r =>
      r.2.2.Valid ∧ defs.Grows r.2.2 ∧ r.2.2.Stocked r.1 ∧ ∀ m ∈ r.2.1, r.2.2.Known m.2 := by
  obtain ⟨members, there, -⟩ := getElem?_overloadsOrNew stocked'
  have valid' := valid.overloadsOrNew into
  have grows : defs.Grows (defs.overloadsOrNew into).2 := grows_overloadsOrNew into
  -- opening the set that receives the functions changes nothing about the source
  have pub' : publicOnly = true → ∀ set, (defs.overloadsOrNew into).2.overloads[source.index]? =
      some set → ∃ m ∈ set.toList, (defs.overloadsOrNew into).2.isPub m.2 = .ok true := by
    intro only set held
    obtain ⟨set₀, _, _, held₀, _⟩ := stocked
    rw [getElem?_overloadsOrNew_of_some held₀] at held
    cases held
    have same : (defs.overloadsOrNew into).2.isPub = defs.isPub := by cases into <;> rfl
    rw [same]
    exact exists_isPub held₀ (pub only)
  rw [Definitions.importOverloads]
  rcases opened : defs.overloadsOrNew into with ⟨into', defs'⟩
  rw [opened] at there valid' grows pub'
  dsimp only
  by_cases same : into' = source
  · -- a set that is imported into itself stays as it is
    rw [if_pos same]
    rw [same]
    exact ⟨valid', grows, grows.stocked stocked, List.forall_mem_nil _⟩
  · rw [if_neg same]
    simp only [Yields.bind_iff, Yields.pure_iff]
    apply (grows.stocked stocked).overloadSet.mono
    intro set ended
    obtain ⟨held, nonempty⟩ := ended
    apply (valid'.importable held nonempty fun only => pub' only set held).mono
    intro taken ended
    obtain ⟨nonempty', known⟩ := ended
    apply (valid'.importMembers taken ⟨members, there⟩ known).mono
    intro r ended
    obtain ⟨valid₁, grows₁, stocked₁, known₁⟩ := ended
    exact ⟨valid₁, grows.trans grows₁, stocked₁ nonempty', known₁⟩

end Definitions

/-! ## Before and after a step -/

namespace Importing

section

variable {n : Nat}

/-- The import phase is in order at any time. -/
structure Ready (imports : Imports n) (s : ImportState n) : Prop where
  intact : Intact s.defs s.tree
  homes : ∀ i, s.tree.Known (imports.get i).module
  sources : ∀ {i : Fin n} {source : ModuleId},
    s.statusOf i = .done (some source) → s.tree.Known source

/-- What a part of the import phase has done. What a directive that is not pending has come to is
    nobody else's business. -/
structure Progress (imports : Imports n) (s s' : ImportState n) : Prop where
  ready : Ready imports s'
  defs : s.defs.Grows s'.defs
  tree : s.tree.Grows s'.tree
  statuses : ∀ {i : Fin n}, s.statusOf i ≠ .pending → s'.statusOf i = s.statusOf i

end

variable {n : Nat} {imports : Imports n} {s s' s'' : ImportState n} {log : Log}

namespace Progress

theorem refl (ready : Ready imports s) : Progress imports s s :=
  ⟨ready, .refl _, .refl _, fun _ => rfl⟩

theorem trans (h : Progress imports s s') (h' : Progress imports s' s'') :
    Progress imports s s'' where
  ready := h'.ready
  defs := h.defs.trans h'.defs
  tree := h.tree.trans h'.tree
  statuses {i} notPending := by
    have same := h.statuses notPending
    rw [h'.statuses (by rw [same]; exact notPending), same]

theorem good (h : Progress imports s s') {ns : Namespace} {binding : Binding}
    (good : binding.Good s.defs ns) : binding.Good s'.defs ns := good.mono h.defs.toExtends

theorem known (h : Progress imports s s') {module : ModuleId} (known : s.tree.Known module) :
    s'.tree.Known module := h.tree.known_iff.mpr known

/-- Only diagnostics have been added. -/
theorem of_diagnostics (ready : Ready imports s) (diagnostics : List Diagnostic) :
    Progress imports s { s with diagnostics } :=
  ⟨⟨ready.intact, ready.homes, ready.sources⟩, .refl _, .refl _, fun _ => rfl⟩

theorem of_defs (ready : Ready imports s) {defs : Definitions} (valid : defs.Valid)
    (grows : s.defs.Grows defs) : Progress imports s { s with defs } :=
  ⟨⟨ready.intact.grow grows valid, ready.homes, ready.sources⟩, grows, .refl _, fun _ => rfl⟩

theorem of_bind (ready : Ready imports s) {module : ModuleId} {ns : Namespace} {name : String}
    {binding : Binding} (good : binding.Good s.defs ns) :
    Progress imports s { s with tree := s.tree.modify module (·.bind ns name binding) } where
  ready := ⟨ready.intact.bind good, fun i => ModuleTree.grows_bind.known_iff.mpr (ready.homes i),
    fun done => ModuleTree.grows_bind.known_iff.mpr (ready.sources done)⟩
  defs := .refl _
  tree := ModuleTree.grows_bind
  statuses _ := rfl

end Progress

/-! ## Binding -/

theorem run_bindingOf {module : ModuleId} (known : s.tree.Known module) (ns : Namespace)
    (name : String) :
    Run False (bindingOf module ns name) s log fun found s' _ =>
      s = s' ∧ found = s.tree.bindingAt? module ns name := by
  obtain ⟨m, found⟩ := known.find?
  simp only [bindingOf, lift, Run.bind_iff, Run.get_iff, Run.lift_iff, Run.pure_iff,
    ModuleTree.get_of_find? found, Yields.ok_iff, ModuleTree.bindingAt?_of_find? found, and_self]

namespace Ready

theorem run_reportTaken (ready : Ready imports s) (name : String) (span : Span) {ns : Namespace}
    {first : Binding} (good : first.Good s.defs ns) :
    Run False (reportTaken name span first) s log fun _ s' _ => Progress imports s s' := by
  simp only [reportTaken, report, lift, Run.bind_iff, Run.get_iff, Run.lift_iff, Run.modify_iff]
  exact (ready.intact.redefinition name span good).mono fun d _ => .of_diagnostics ready _

/-- A block takes no lifetimes. -/
def Takes (s : ImportState n) (module : ModuleId) (ns : Namespace) : Prop :=
  ∀ m, s.tree.find? module = some m → ¬ (ns = .lifetime ∧ m.owner.isBlock)

theorem run_bind (ready : Ready imports s) {module : ModuleId} (known : s.tree.Known module)
    {ns : Namespace} (name : String) {binding : Binding} (good : binding.Good s.defs ns)
    (takes : Takes s module ns) :
    Run False (bind module ns name binding) s log fun first s' _ =>
      Progress imports s s' ∧ first = s.tree.bindingAt? module ns name := by
  obtain ⟨m, found⟩ := known.find?
  simp only [bind, lift, Run.bind_iff, Run.get_iff, Run.lift_iff, ModuleTree.yields_bind,
    ModuleTree.get_of_find? found, Yields.ok_iff, if_neg (takes m found)]
  rw [ModuleTree.bindingAt?_of_find? found]
  split
  · next first bound => exact ⟨.refl ready, bound.symm⟩
  · next free => exact ⟨.of_bind ready good, free.symm⟩

/-- Making an alias, and reporting it where its name is taken. -/
theorem run_bindAlias (ready : Ready imports s) {directive : Directive}
    (home : s.tree.Known directive.module) {ns : Namespace} (takes : Takes s directive.module ns)
    (name : Ident) {target : DefId} (known : s.defs.Known target) :
    Run False (do
      let (id, defs) ← lift (s.defs.defineAlias directive.isPub directive.node name target)
      setDefs defs
      if let some first ← bind directive.module ns name.name (.imported id) then
        reportTaken name.name name.span first) s log fun _ s' _ => Progress imports s s' := by
  simp only [lift, Run.bind_iff, Run.lift_iff]
  apply (ready.intact.validDefs.defineAlias known).mono
  intro r made
  obtain ⟨id, defs⟩ := r
  obtain ⟨valid, grows, id_known, _⟩ := made
  apply (run_setDefs_eq defs).mono
  rintro _ _ log₁ ⟨rfl, -⟩
  have progress : Progress imports s { s with defs } := .of_defs ready valid grows
  have good : Binding.Good defs ns (.imported id) := id_known
  apply (progress.ready.run_bind home name.name good takes).mono
  intro first s₂ log₂ ended
  obtain ⟨bound, first_eq⟩ := ended
  have soFar := progress.trans bound
  split
  · have first_good := progress.ready.intact.bindings first_eq.symm
    refine (soFar.ready.run_reportTaken name.name name.span (bound.good first_good)).mono
      fun _ _ _ reported => soFar.trans reported
  · exact soFar

theorem run_reportAllTaken (ready : Ready imports s) (name : String) (span : Span)
    {taken : List (String × DefId)} (known : ∀ m ∈ taken, s.defs.Known m.2) :
    Run False (taken.forM fun (suffix, first) =>
      reportTaken (name ++ suffix) span (.definition first)) s log fun _ s' _ =>
      Progress imports s s' := by
  apply Run.forM _ (.refl ready)
  intro m mem s₁ log₁ soFar
  have first_known : Binding.Good s₁.defs .value (.definition m.2) :=
    soFar.defs.known (known m mem)
  exact (soFar.ready.run_reportTaken _ _ first_known).mono fun _ _ _ => soFar.trans

/-- Functions are imported into the set of their name, or into a fresh one. -/
theorem run_bindOverloads (ready : Ready imports s) {directive : Directive}
    (home : s.tree.Known directive.module) (name : Ident) {source : OverloadId}
    (stocked : s.defs.Stocked source) {publicOnly : Bool}
    (pub : publicOnly = true → isPub s.defs (.overloads source) = .ok true) :
    Run False (do
      match ← bindingOf directive.module .value name.name with
      | some (.overloads existing) =>
        let (_, taken, defs) ← lift <|
          s.defs.importOverloads directive.isPub directive.node source (some existing) publicOnly
        setDefs defs
        taken.forM fun (suffix, first) =>
          reportTaken (name.name ++ suffix) name.span (.definition first)
      | some first => reportTaken name.name name.span first
      | none =>
        let (merged, _, defs) ← lift <|
          s.defs.importOverloads directive.isPub directive.node source none publicOnly
        setDefs defs
        if (← bind directive.module .value name.name (.overloads merged)).isSome then
          lift (.error (.importAppeared name.name))) s log fun _ s' _ => Progress imports s s' := by
  rw [Run.bind_iff]
  apply (run_bindingOf home .value name.name).mono
  intro found _ log₀ read
  obtain ⟨rfl, bound⟩ := read
  split
  · next existing =>
    have good := ready.intact.bindings bound.symm
    have stocked' : ∀ into, some existing = some into → s.defs.Stocked into := by
      rintro _ ⟨⟩
      exact good.1
    simp only [lift, Run.bind_iff, Run.lift_iff]
    apply (ready.intact.validDefs.importOverloads stocked stocked' pub).mono
    intro r made
    obtain ⟨_, taken, defs⟩ := r
    obtain ⟨valid, grows, _, known⟩ := made
    apply (run_setDefs_eq defs).mono
    rintro _ _ log₁ ⟨rfl, -⟩
    have progress : Progress imports s { s with defs } := .of_defs ready valid grows
    exact (progress.ready.run_reportAllTaken name.name name.span known).mono
      fun _ _ _ => progress.trans
  · exact ready.run_reportTaken name.name name.span (ready.intact.bindings bound.symm)
  · have stocked' : ∀ into, none = some into → s.defs.Stocked into := by
      intro into eq
      cases eq
    simp only [lift, Run.bind_iff, Run.lift_iff]
    apply (ready.intact.validDefs.importOverloads stocked stocked' pub).mono
    intro r made
    obtain ⟨merged, _, defs⟩ := r
    obtain ⟨valid, grows, merged_stocked, _⟩ := made
    apply (run_setDefs_eq defs).mono
    rintro _ _ log₁ ⟨rfl, -⟩
    have progress : Progress imports s { s with defs } := .of_defs ready valid grows
    have good : Binding.Good defs .value (.overloads merged) := ⟨merged_stocked, rfl⟩
    apply (progress.ready.run_bind home name.name good (by rintro m _ ⟨⟨⟩, _⟩)).mono
    intro first s₂ log₂ ended
    obtain ⟨bind, first_eq⟩ := ended
    -- the name was free before the functions were made, and is still
    rw [← bound] at first_eq
    subst first_eq
    exact progress.trans bind

/-- From a set that is asked for `pub` functions only, there must be one to take. -/
theorem run_bindImport (ready : Ready imports s) {directive : Directive}
    (home : s.tree.Known directive.module) {ns : Namespace} (name : Ident) {binding : Binding}
    (good : binding.Good s.defs ns) {publicOnly : Bool}
    (pub : publicOnly = true → isPub s.defs binding = .ok true) :
    Run False (bindImport directive ns name binding publicOnly) s log fun _ s' _ =>
      Progress imports s s' := by
  obtain ⟨m, found⟩ := home.find?
  simp only [bindImport, Run.bind_iff, Run.get_iff, lift, Run.lift_iff,
    ModuleTree.get_of_find? found, Yields.ok_iff]
  split
  · exact .refl ready
  · next allowed =>
    -- the case of a lifetime in a block has been split off
    have takes : Takes s directive.module ns := by
      intro m' found'
      rw [found] at found'
      cases found'
      exact allowed
    split
    · exact ready.run_bindAlias home takes name good
    · exact ready.run_bindAlias home takes name good
    · exact ready.run_bindOverloads home name good.1 pub

/-! ## Privacy -/

/-- Only a diagnostic may have been added. -/
theorem run_checkPrivate (ready : Ready imports s) {directive : Directive}
    (home : s.tree.Known directive.module) {source : ModuleId} (known : s.tree.Known source)
    {ns : Namespace} {binding : Binding} (good : binding.Good s.defs ns) (name : String) :
    Run False (checkPrivate imports directive source binding name) s log fun _ s' _ =>
      Progress imports s s' ∧ s'.defs = s.defs := by
  obtain ⟨m, found⟩ := known.find?
  rw [checkPrivate]
  split
  · simp only [lift, Run.bind_iff, Run.get_iff, Run.lift_iff]
    apply (ready.intact.validTree.isWithin home).mono
    intro inside _
    split
    · exact ⟨.refl ready, rfl⟩
    · simp only [Run.bind_iff, Run.lift_iff, ModuleTree.get_of_find? found]
      apply (ready.intact.validDefs.isPub good).mono
      intro isPub _
      split
      · exact ⟨.refl ready, rfl⟩
      · simp only [report, Run.bind_iff, Run.lift_iff, Run.modify_iff]
        exact (ready.intact.name found).mono fun owner _ => ⟨.of_diagnostics ready _, trivial⟩
  · exact ⟨.refl ready, rfl⟩

end Ready

end Importing

end NameResolution
