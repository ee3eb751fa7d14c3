import NameResolution.Import.Phase
import NameResolution.Proofs.Journal
import NameResolution.Proofs.Tables.Modules

/-! # The state of the import phase

    Which directives may bring a name into a module, how far each of them has
    come, and how the tables are read and written on the way. -/

namespace NameResolution

/-- Whether the diagnostic is about an import that depends on itself. -/
def Diagnostic.isImportCycle : Diagnostic → Bool
  | .importCycle .. => true
  | _ => false

/-- Whether the diagnostic is about a name that is taken. -/
def Diagnostic.isRedefinition : Diagnostic → Bool
  | .redefinition .. => true
  | _ => false

/-- Only a single import has a target. -/
theorem Import.isGlob_of_target? {directive : Import} {target : ImportTarget}
    (h : directive.target? = some target) : directive.isGlob = false := by
  unfold Import.target? at h
  unfold Import.isGlob
  split at h
  · cases h
  · next kind => rw [kind]; rfl

/-- What a single import binds: a name in a module. -/
def Directive.slot? (directive : Directive) : Option (ModuleId × String) :=
  directive.target?.map fun target => (directive.module, target.name.name)

namespace Imports

variable {n : Nat} {imports : Imports n}

theorem mem_binders {module : ModuleId} {name : String} {i : Fin n} :
    i ∈ imports.binders module name ↔ (imports.get i).slot? = some (module, name) := by
  unfold binders Directive.slot?
  rw [List.mem_filter]
  cases (imports.get i).target? <;> simp

theorem mem_globsOf {module : ModuleId} {i : Fin n} :
    i ∈ imports.globsOf module ↔
      (imports.get i).isGlob = true ∧ (imports.get i).module = module := by
  simp [globsOf]

end Imports

/-! ## Statuses -/

namespace ImportState

variable {n : Nat}

/-- What a directive has come to. -/
def statusOf (s : ImportState n) (i : Fin n) : ImportStatus := s.statuses.get i

/-- A directive has another status. -/
def withStatus (s : ImportState n) (i : Fin n) (status : ImportStatus) : ImportState n :=
  { s with statuses := s.statuses.set i status i.isLt }

theorem statusOf_withStatus (s : ImportState n) (i j : Fin n) (status : ImportStatus) :
    (s.withStatus i status).statusOf j = if i = j then status else s.statusOf j := by
  show (s.statuses.set i status)[j] = if i = j then status else s.statuses[j]
  simp [Vector.getElem_set, Fin.ext_iff]

theorem statusOf_withStatus_self (s : ImportState n) (i : Fin n) (status : ImportStatus) :
    (s.withStatus i status).statusOf i = status := by
  rw [statusOf_withStatus, if_pos rfl]

/-- Whoever has come to something else is not touched. -/
theorem statusOf_withStatus_of_ne {s : ImportState n} {i j : Fin n} {reached : ImportStatus}
    (h : s.statusOf j = reached) (other : s.statusOf i ≠ reached) (status : ImportStatus) :
    (s.withStatus i status).statusOf j = reached := by
  rw [statusOf_withStatus, if_neg, h]
  rintro rfl
  exact other h

theorem statusOf_start (defs : Definitions) (tree : ModuleTree) (i : Fin n) :
    (ImportState.start n defs tree).statusOf i = .pending := by
  show (Vector.replicate n ImportStatus.pending)[i] = .pending
  simp

end ImportState

namespace Importing

variable {n : Nat} {onFault : Prop} {s : ImportState n} {log : Log}

@[simp] theorem run_status_iff {i : Fin n}
    {post : ImportStatus → ImportState n → Log → Prop} :
    Run onFault (status i) s log post ↔ post (s.statusOf i) s log := Iff.rfl

@[simp] theorem run_note_iff {opened searched : List (Fin n)} {task : ImportTask n}
    {post : Unit → ImportState n → Log → Prop} :
    Run onFault (note opened searched task) s log post ↔
      post () s (log.note (.importing ⟨opened, searched, task, s⟩)) := Iff.rfl

@[simp] theorem run_setStatus_iff {opened searched : List (Fin n)} {i : Fin n}
    {status : ImportStatus} {post : Unit → ImportState n → Log → Prop} :
    Run onFault (setStatus opened searched i status) s log post ↔
      post () (s.withStatus i status)
        (log.note (.importing ⟨opened, searched, .setStatus i status, s⟩)) := Iff.rfl

@[simp] theorem run_setTree_iff {tree : ModuleTree} {post : Unit → ImportState n → Log → Prop} :
    Run onFault (setTree tree) s log post ↔
      post () { s with tree } (log.note (.written s.defs tree)) := Iff.rfl

/-- Looking a binding up changes nothing. -/
theorem reads_bindingOf {module : ModuleId} {ns : Namespace} {name : String} :
    Run True (bindingOf module ns name) s log fun found s' log' =>
      s = s' ∧ found = s.tree.bindingAt? module ns name ∧ log' = log := by
  simp only [bindingOf, lift, Run.bind_iff, Run.get_iff, Run.lift_iff, Run.pure_iff]
  refine Yields.true_iff.mpr fun m got => ⟨trivial, ?_, trivial⟩
  rw [ModuleTree.bindingAt?_of_find? (ModuleTree.find?_of_get got)]

/-- Logging the new definitions changes nothing. -/
theorem run_setDefs_eq {onFault : Prop} (defs : Definitions) :
    Run onFault (setDefs defs) s log fun _ s' log' =>
      s' = { s with defs } ∧ log.Notes (· = .written defs s.tree) log' := by
  have emitted (new : List Definition) (log : Log) : Run onFault (new.forM fun d =>
      (Logged.emit (.defined d) : StateT (ImportState n) Logged Unit)) s log fun _ s' log' =>
      s' = s ∧ log'.journal = log.journal := by
    induction new generalizing log with
    | nil => exact ⟨rfl, rfl⟩
    | cons d new ih => exact ih (log.push (.defined d))
  simp only [setDefs, Run.bind_iff, Run.get_iff]
  apply (emitted _ log).mono
  rintro _ _ log₁ ⟨rfl, same⟩
  refine ⟨rfl, [_], ?_, List.forall_mem_singleton.mpr rfl⟩
  rw [← same]
  rfl

/-! ## Rounds of globs -/

section

variable {imports : Imports n} {inv : ImportState n → Log → Prop}
  (each : ∀ i source ns name binding s log, inv s log →
    Run True (Lookup.globBind imports i source ns name binding) s log fun _ => inv)

include each

theorem run_importNames_of (i : Fin n) (source : ModuleId) (ns : Namespace)
    (names : List (String × Binding)) {s : ImportState n} {log : Log} (h : inv s log) :
    Run True (importNames imports i source ns names) s log fun _ => inv := by
  induction names generalizing s log with
  | nil => exact h
  | cons first names ih =>
    simp only [importNames, Run.bind_iff, Run.pure_iff]
    exact (each i source ns _ _ s log h).mono fun _ _ _ => ih

theorem run_importNamespaces_of (i : Fin n) (source : ModuleId) (namespaces : List Namespace)
    {s : ImportState n} {log : Log} (h : inv s log) :
    Run True (importNamespaces imports i source namespaces) s log fun _ => inv := by
  induction namespaces generalizing s log with
  | nil => exact h
  | cons ns others ih =>
    simp only [importNamespaces, lift, Run.bind_iff, Run.get_iff, Run.lift_iff, Run.pure_iff]
    refine Yields.trivial_of_true fun m => ?_
    exact (run_importNames_of each i source ns _ h).mono fun _ _ _ => ih

theorem run_applyGlobs_of (globs : List (Fin n × ModuleId)) {s : ImportState n} {log : Log}
    (h : inv s log) : Run True (applyGlobs imports globs) s log fun _ => inv := by
  induction globs generalizing s log with
  | nil => exact h
  | cons glob others ih =>
    obtain ⟨i, source⟩ := glob
    have applied : Run True (applyGlob imports i source) s log fun _ => inv := by
      unfold applyGlob
      split
      · exact h
      · exact run_importNamespaces_of each i source _ h
    simp only [applyGlobs, Run.bind_iff, Run.pure_iff]
    exact applied.mono fun _ _ _ => ih

/-- What bringing in a name keeps, whichever glob and whichever name, is kept by all rounds. -/
theorem run_saturate_of (globs : List (Fin n × ModuleId)) (rounds : Nat) {s : ImportState n}
    {log : Log} (h : inv s log) :
    Run True (saturate imports globs rounds) s log fun _ => inv := by
  induction rounds generalizing s log with
  | zero => exact h
  | succ rounds ih =>
    rw [saturate, Run.bind_iff]
    apply (run_applyGlobs_of each globs h).mono
    intro more s₁ log₁ kept
    split
    · exact ih kept
    · exact kept

end

end Importing

end NameResolution
