import NameResolution.Proofs.Import.Plain
import NameResolution.Session
import Mathlib.Data.List.Forall2
import Mathlib.Data.List.FinRange

/-! # Import cycles

    An import is reported as cyclic where it is met again while it is in
    progress, and it is open then what will become of it: the import that has
    met it fails, but its failure may not reach back. Where the imports of a
    module are single ones, each of a name of its own, there is no other way to
    the name that is asked for, so every import on the way back fails, and each
    of them is reported at most once. -/

namespace NameResolution

namespace Imports

variable {n : Nat} {imports : Imports n}

/-- No import is a glob, and no two bind one name in one module. -/
structure Plain (imports : Imports n) : Prop where
  single : ∀ i, (imports.get i).isGlob = false
  apart : ∀ {i j : Fin n} {slot : ModuleId × String}, (imports.get i).slot? = some slot →
    (imports.get j).slot? = some slot → i = j

theorem Plain.globsOf (plain : imports.Plain) (module : ModuleId) :
    imports.globsOf module = [] := by
  apply List.filter_eq_nil_iff.mpr
  intro i _
  simp [plain.single i]

/-- A name of a module has one import at most that binds it. -/
theorem Plain.binders (plain : imports.Plain) (module : ModuleId) (name : String) :
    imports.binders module name = [] ∨ ∃ i, imports.binders module name = [i] := by
  have nodup : (imports.binders module name).Nodup := (List.nodup_finRange n).filter _
  rcases listed : imports.binders module name with _ | ⟨i, _ | ⟨j, others⟩⟩
  · exact .inl rfl
  · exact .inr ⟨i, rfl⟩
  · -- two of them would bind one slot, so they would be one directive listed twice
    have first : (imports.get i).slot? = some (module, name) :=
      mem_binders.mp (by rw [listed]; simp)
    have second : (imports.get j).slot? = some (module, name) :=
      mem_binders.mp (by rw [listed]; simp)
    rw [listed, plain.apart first second] at nodup
    simp at nodup

end Imports

/-! ## Who has been reported -/

section

variable {n : Nat}

/-- An import that has bound what it found. -/
def ImportState.IsDone (s : ImportState n) (i : Fin n) : Prop :=
  ∃ source, s.statusOf i = .done source

/-- The diagnostics about cycles name these imports, one each. -/
def ReportsCycles (imports : Imports n) (diagnostics : List Diagnostic) (cyclic : List (Fin n)) :
    Prop :=
  List.Forall₂
    (fun d i => ∃ cycle, d = .importCycle (imports.get i).boundName (imports.get i).span cycle)
    (diagnostics.filter (·.isImportCycle)) cyclic

theorem ReportsCycles.append {imports : Imports n} {diagnostics more : List Diagnostic}
    {cyclic : List (Fin n)} (h : ReportsCycles imports diagnostics cyclic)
    (others : ∀ d ∈ more, d.isImportCycle = false) :
    ReportsCycles imports (diagnostics ++ more) cyclic := by
  have none : more.filter (·.isImportCycle) = [] := by
    apply List.filter_eq_nil_iff.mpr
    intro d mem
    simp [others d mem]
  rw [ReportsCycles, List.filter_append, none, List.append_nil]
  exact h

variable (imports : Imports n) (defs : Definitions) (tree : ModuleTree)

/-- What holds while imports are resolved, from the given tables on: with some directives opened,
    with one of them perhaps about to be done, and with a cycle perhaps on its way back. -/
structure Accounted (closing : Option (Fin n)) (opened : List (Fin n)) (cycle : Prop)
    (s : ImportState n) : Prop where
  inProgress : ∀ i, s.statusOf i = .inProgress ↔ i ∈ opened
  /-- An import that is not done has bound nothing -/
  unbound : ∀ {i slot}, (imports.get i).slot? = some slot → ¬ s.IsDone i → some i ≠ closing →
    ∀ ns, s.tree.bindingAt? slot.1 ns slot.2 = tree.bindingAt? slot.1 ns slot.2
  /-- Nor has it made an alias -/
  added : ∃ aliases, s.defs.toList = defs.toList ++ aliases ∧
    ∀ d ∈ aliases, ∃ i, (s.IsDone i ∨ some i = closing) ∧ (imports.get i).node = d.node
  /-- Who has been reported has failed, or fails when the cycle comes back to it -/
  reported : ∃ cyclic, cyclic.Nodup ∧ ReportsCycles imports s.diagnostics cyclic ∧
    ∀ i ∈ cyclic, s.statusOf i = .cycleFailed ∨ cycle ∧ i ∈ opened

/-- An import that is done stays so. -/
def StaysDone (s s' : ImportState n) : Prop := ∀ i, s.IsDone i → s'.IsDone i

/-- A part of the import phase, in the course of the opened directives. Only with a cycle that
    comes back can it leave reports behind that are not settled. -/
def Accounts {α : Type} (opened : List (Fin n)) (m : Attempt n α) : Prop :=
  ∀ s log, Accounted imports defs tree none opened False s →
    Tries True m s log fun r s' _ =>
      Accounted imports defs tree none opened (r = .error .cycle) s' ∧ StaysDone s s'

end

section

variable {n : Nat} {imports : Imports n} {defs : Definitions} {tree : ModuleTree}
  {closing : Option (Fin n)} {opened : List (Fin n)} {cycle cycle' : Prop}
  {s s' s'' : ImportState n}

theorem StaysDone.refl (s : ImportState n) : StaysDone s s := fun _ h => h

theorem StaysDone.trans (h : StaysDone s s') (h' : StaysDone s' s'') : StaysDone s s'' :=
  fun i done => h' i (h i done)

/-- A directive that is not done may be given any status. -/
theorem staysDone_withStatus {i : Fin n} (notDone : ∀ source, s.statusOf i ≠ .done source)
    (status : ImportStatus) : StaysDone s (s.withStatus i status) := by
  rintro j ⟨source, done⟩
  exact ⟨source, ImportState.statusOf_withStatus_of_ne done (notDone source) status⟩

namespace Accounted

/-- A cycle that is not on its way may be supposed to be. -/
theorem weaken (h : Accounted imports defs tree closing opened cycle s) (imp : cycle → cycle') :
    Accounted imports defs tree closing opened cycle' s := by
  obtain ⟨cyclic, nodup, reports, settled⟩ := h.reported
  refine ⟨h.inProgress, h.unbound, h.added, cyclic, nodup, reports, fun i mem => ?_⟩
  exact (settled i mem).imp_right fun met => ⟨imp met.1, met.2⟩

/-- No cycle is on its way. -/
theorem steady (h : Accounted imports defs tree closing opened cycle s) (off : ¬ cycle) :
    Accounted imports defs tree closing opened False s :=
  h.weaken off

/-- With no directive opened there is no way back. -/
theorem settled (h : Accounted imports defs tree closing [] cycle s) :
    Accounted imports defs tree closing [] False s := by
  obtain ⟨cyclic, nodup, reports, settled⟩ := h.reported
  refine ⟨h.inProgress, h.unbound, h.added, cyclic, nodup, reports, fun i mem => ?_⟩
  exact (settled i mem).imp_right fun met => absurd met.2 List.not_mem_nil

/-- Opening a pending directive. -/
theorem opening (h : Accounted imports defs tree none opened False s) {i : Fin n}
    (pending : s.statusOf i = .pending) :
    Accounted imports defs tree none (opened ++ [i]) False (s.withStatus i .inProgress) ∧
      StaysDone s (s.withStatus i .inProgress) := by
  have keeps : StaysDone s (s.withStatus i .inProgress) :=
    staysDone_withStatus (by simp [pending]) _
  refine ⟨⟨?_, ?_, ?_, ?_⟩, keeps⟩
  · intro j
    rw [ImportState.statusOf_withStatus, List.mem_append, List.mem_singleton, ← h.inProgress j]
    by_cases same : i = j <;> simp [same, eq_comm]
  · intro j slot held notDone _ ns
    exact h.unbound held (fun done => notDone (keeps j done)) (by simp) ns
  · obtain ⟨aliases, eq, made⟩ := h.added
    refine ⟨aliases, eq, fun d mem => ?_⟩
    obtain ⟨j, done | closed, node⟩ := made d mem
    · exact ⟨j, .inl (keeps j done), node⟩
    · cases closed
  · obtain ⟨cyclic, nodup, reports, settled⟩ := h.reported
    refine ⟨cyclic, nodup, reports, fun j mem => ?_⟩
    -- who has failed is not the one that is opened, as that one is pending
    rcases settled j mem with failed | ⟨⟨⟩, -⟩
    exact .inl (ImportState.statusOf_withStatus_of_ne failed (by simp [pending]) _)

/-- Closing the directive that was opened last, with its final status. -/
theorem closed {i : Fin n} {status : ImportStatus} (fresh : i ∉ opened)
    (final : status ≠ .inProgress)
    (h : Accounted imports defs tree closing (opened ++ [i]) cycle s)
    (done : closing = none ∨ closing = some i ∧ ∃ source, status = .done source)
    (failed : cycle → status = .cycleFailed) :
    Accounted imports defs tree none opened cycle (s.withStatus i status) ∧
      StaysDone s (s.withStatus i status) := by
  have inProgress : s.statusOf i = .inProgress := (h.inProgress i).mpr (by simp)
  have keeps : StaysDone s (s.withStatus i status) :=
    staysDone_withStatus (by simp [inProgress]) _
  -- a directive that has bound its name is done by now
  have closes : ∀ {j}, some j = closing → (s.withStatus i status).IsDone j := by
    intro j closed
    rcases done with rfl | ⟨rfl, source, rfl⟩
    · cases closed
    · obtain rfl : j = i := Option.some.inj closed
      exact ⟨source, ImportState.statusOf_withStatus_self ..⟩
  refine ⟨⟨?_, ?_, ?_, ?_⟩, keeps⟩
  · intro j
    rw [ImportState.statusOf_withStatus]
    split
    · next same =>
      subst same
      exact ⟨fun eq => absurd eq final, fun mem => absurd mem fresh⟩
    · next ne =>
      rw [h.inProgress j, List.mem_append, List.mem_singleton]
      exact ⟨fun mem => mem.resolve_right fun eq => ne eq.symm, .inl⟩
  · intro j slot held notDone _ ns
    exact h.unbound held (fun done => notDone (keeps j done)) (fun eq => notDone (closes eq)) ns
  · obtain ⟨aliases, eq, made⟩ := h.added
    refine ⟨aliases, eq, fun d mem => ?_⟩
    obtain ⟨j, done | closed, node⟩ := made d mem
    · exact ⟨j, .inl (keeps j done), node⟩
    · exact ⟨j, .inl (closes closed), node⟩
  · obtain ⟨cyclic, nodup, reports, settled⟩ := h.reported
    refine ⟨cyclic, nodup, reports, fun j mem => ?_⟩
    rcases settled j mem with failedJ | ⟨on, memJ⟩
    · exact .inl (ImportState.statusOf_withStatus_of_ne failedJ (by simp [inProgress]) _)
    · rcases List.mem_append.mp memJ with memJ | memJ
      · exact .inr ⟨on, memJ⟩
      · -- the cycle comes back to the directive that is closed, and fails it
        rw [List.mem_singleton.mp memJ, ImportState.statusOf_withStatus_self]
        exact .inl (failed on)

/-- A diagnostic that is not about a cycle. -/
theorem report (h : Accounted imports defs tree closing opened cycle s) {d : Diagnostic}
    (other : d.isImportCycle = false) : Accounted imports defs tree closing opened cycle
      { s with diagnostics := s.diagnostics ++ [d] } := by
  obtain ⟨cyclic, nodup, reports, settled⟩ := h.reported
  refine ⟨h.inProgress, h.unbound, h.added, cyclic, nodup, reports.append ?_, settled⟩
  simpa using other

/-- A directive that is met again while it is in progress. It has not been reported before: then
    the cycle would have come back to it, and it would have failed. -/
theorem reportCycle (h : Accounted imports defs tree closing opened False s) {i : Fin n}
    (inProgress : s.statusOf i = .inProgress) (text : String) :
    Accounted imports defs tree closing opened True
      { s with diagnostics := s.diagnostics ++
        [.importCycle (imports.get i).boundName (imports.get i).span text] } := by
  obtain ⟨cyclic, nodup, reports, settled⟩ := h.reported
  refine ⟨h.inProgress, h.unbound, h.added, cyclic ++ [i], ?_, ?_, ?_⟩
  · have fresh : i ∉ cyclic := by
      intro mem
      rcases settled i mem with failed | ⟨⟨⟩, -⟩
      rw [inProgress] at failed
      cases failed
    exact nodup.append (by simp) (by simpa using fresh)
  · rw [ReportsCycles, List.filter_append]
    exact List.rel_append reports (.cons ⟨text, rfl⟩ .nil)
  · intro j mem
    rcases List.mem_append.mp mem with mem | mem
    · rcases settled j mem with failed | ⟨⟨⟩, -⟩
      exact .inl failed
    · rw [List.mem_singleton.mp mem]
      exact .inr ⟨trivial, (h.inProgress i).mp inProgress⟩

/-- The opened directive that has found something binds it. -/
theorem binds (plain : imports.Plain) {i : Fin n} {target : ImportTarget}
    (hasTarget : (imports.get i).target? = some target)
    (h : Accounted imports defs tree none opened cycle s)
    (bound : Binds (imports.get i) target.name.name s s') :
    Accounted imports defs tree (some i) opened cycle s' ∧ StaysDone s s' := by
  have slot : (imports.get i).slot? = some ((imports.get i).module, target.name.name) := by
    rw [Directive.slot?, hasTarget, Option.map_some]
  have keeps : ∀ {j}, s.IsDone j ↔ s'.IsDone j := by
    intro j
    unfold ImportState.IsDone
    rw [bound.statusOf]
  refine ⟨⟨?_, ?_, ?_, ?_⟩, fun _ => keeps.mp⟩
  · rw [bound.statusOf]
    exact h.inProgress
  · intro j slot' held notDone ne ns
    -- no two imports share a slot, so this one does not bind what `j` has not bound
    have other : slot' ≠ ((imports.get i).module, target.name.name) := by
      rintro rfl
      exact ne (congrArg some (plain.apart held slot))
    rw [bound.elsewhere ns other]
    exact h.unbound held (fun done => notDone (keeps.mp done)) (by simp) ns
  · obtain ⟨aliases, eq, made⟩ := h.added
    obtain ⟨more, eq', at_node⟩ := bound.added
    refine ⟨aliases ++ more, by rw [eq', eq, List.append_assoc], fun d mem => ?_⟩
    rcases List.mem_append.mp mem with mem | mem
    · obtain ⟨j, done | closed, node⟩ := made d mem
      · exact ⟨j, .inl (keeps.mp done), node⟩
      · cases closed
    · exact ⟨i, .inr rfl, (at_node d mem).symm⟩
  · obtain ⟨cyclic, nodup, reports, settled⟩ := h.reported
    obtain ⟨more, eq, others⟩ := bound.diagnostics
    refine ⟨cyclic, nodup, ?_, ?_⟩
    · rw [eq]
      exact reports.append others
    · rw [bound.statusOf]
      exact settled

end Accounted

/-! ## Following paths -/

/-- What follows a cycle is left out. -/
theorem composes_accounts : Attempt.Composes (Accounts imports defs tree opened) where
  pure a s log h := ⟨h.weaken False.elim, .refl s⟩
  throw _ s log h := ⟨h.weaken False.elim, .refl s⟩
  lift := by
    intro α result s log h
    simp only [Attempt.lift, Importing.lift, Tries.lift_iff, Run.lift_iff]
    exact Yields.trivial_of_true fun a => ⟨h.weaken False.elim, .refl s⟩
  get s log h := ⟨h.weaken False.elim, .refl s⟩
  bind := by
    intro α β m f h h' s log before
    rw [Tries.bind_iff]
    apply (h s log before).mono
    intro r s₁ log₁ ended
    obtain ⟨after, keeps⟩ := ended
    cases r with
    | ok a =>
      apply (h' a s₁ log₁ (after.weaken (by simp))).mono
      intro r s₂ log₂ ended
      obtain ⟨after', keeps'⟩ := ended
      exact ⟨after', keeps.trans keeps'⟩
    -- a cycle that cuts `m` off is still on its way behind `f`
    | error failure => exact ⟨after.weaken fun eq => by cases eq; rfl, keeps⟩

namespace Lookup

variable {lookup : Lookup n} {asker : Asker n}

/-- A lookup in the course of whatever directives are opened. -/
def Accounted (imports : Imports n) (defs : Definitions) (tree : ModuleTree)
    (lookup : Lookup n) : Prop :=
  ∀ asker module ns name, Accounts imports defs tree asker.opened (lookup asker module ns name)

/-! ## Resolving an import -/

/-- Resolving the path of an opened import, and binding what it finds. -/
theorem importSingle_accounts (plain : imports.Plain) (h : Accounted imports defs tree lookup)
    {s : ImportState n} {log : Log}
    (before : NameResolution.Accounted imports defs tree none asker.opened False s) :
    Tries True (importSingle imports lookup asker) s log fun r s' _ =>
      NameResolution.Accounted imports defs tree
        (match r with | .ok _ => some asker.index | .error _ => none)
        asker.opened (r = .error .cycle) s' ∧ StaysDone s s' := by
  cases hasTarget : (imports.get asker.index).target? with
  | none =>
    rw [importSingle, hasTarget]
    exact ⟨before.weaken False.elim, .refl s⟩
  | some target =>
    rw [importSingle_eq hasTarget, Tries.bind_iff]
    apply (composes_accounts.findSingle (h asker) _ _ s log before).mono
    intro r s₁ log₁ ended
    obtain ⟨after, keeps⟩ := ended
    cases r with
    | error failure => exact ⟨after.weaken fun eq => by cases eq; rfl, keeps⟩
    | ok found =>
      -- the path has been followed without a cycle, so the import may bind what it leads to
      have steady := after.steady (by simp)
      dsimp only
      rw [Tries.liftM_iff]
      apply (run_bindTargets found).mono
      intro _ s₂ log₂ bound
      obtain ⟨closing, keeps'⟩ := steady.binds plain hasTarget bound
      exact ⟨closing.weaken False.elim, keeps.trans keeps'⟩

/-- A single import from opening to closing. A cycle comes back from it only if it fails with
    it. -/
theorem resolveSingle_accounts (plain : imports.Plain) (h : Accounted imports defs tree lookup)
    {i : Fin n} {searched : List (Fin n)} {s : ImportState n} {log : Log}
    (before : NameResolution.Accounted imports defs tree none opened False s)
    (pending : s.statusOf i = .pending) :
    Run True (resolveSingle imports lookup i opened searched) s log fun _ s' _ =>
      NameResolution.Accounted imports defs tree none opened (s'.statusOf i = .cycleFailed) s' ∧
        StaysDone s s' := by
  have fresh : i ∉ opened := by
    intro mem
    rw [(before.inProgress i).mpr mem] at pending
    cases pending
  obtain ⟨open', keeps⟩ := before.opening pending
  simp only [resolveSingle, Importing.run_setStatus_iff, Run.bind_iff, Tries.run_iff]
  let asker : Asker n := ⟨i, opened ++ [i], searched⟩
  have accounts (log : Log) : Tries True (importSingle imports lookup asker) _ log _ :=
    importSingle_accounts plain h open'
  apply (accounts _).mono
  intro r s₁ log₁ ended
  obtain ⟨after, keeps₁⟩ := ended
  cases r with
  | ok _ =>
    have steady := after.steady (by simp)
    have done : ImportStatus.done none ≠ .inProgress := by simp
    obtain ⟨closed, keeps₂⟩ :=
      steady.closed fresh done (.inr ⟨rfl, none, rfl⟩) False.elim
    exact ⟨closed.weaken False.elim, (keeps.trans keeps₁).trans keeps₂⟩
  | error failure =>
    simp only [Run.bind_iff, Importing.run_setStatus_iff, Importing.reportFailure]
    split
    · next reason isReason =>
      simp only [Run.bind_iff, Importing.report, Run.modify_iff, Run.pure_iff]
      -- a failure for another reason than a cycle leaves no cycle on its way
      have steady := after.steady (by rintro ⟨⟩; cases isReason)
      have isOther : Diagnostic.isImportCycle (.unresolvedImport (imports.get i).pathText
        (imports.get i).span reason) = false := rfl
      have failed : ImportStatus.failed ≠ .inProgress := by simp
      obtain ⟨closed, keeps₂⟩ :=
        (steady.report isOther).closed fresh failed (.inl rfl) False.elim
      exact ⟨closed.weaken False.elim, (keeps.trans keeps₁).trans keeps₂⟩
    · rw [Run.pure_iff]
      -- a cycle has come back to this import, which fails with it and passes it on
      have failed : ImportStatus.cycleFailed ≠ .inProgress := by simp
      obtain ⟨closed, keeps₂⟩ := after.closed fresh failed (.inl rfl) fun _ => rfl
      refine ⟨closed.weaken fun _ => ?_, (keeps.trans keeps₁).trans keeps₂⟩
      exact ImportState.statusOf_withStatus_self ..

/-- Waiting for an import. A cycle comes back only from one that is not done. -/
theorem awaitImport_accounts (plain : imports.Plain) (h : Accounted imports defs tree lookup)
    {i : Fin n} {s : ImportState n} {log : Log}
    (before : NameResolution.Accounted imports defs tree none asker.opened False s) :
    Run True (awaitImport imports lookup asker i) s log fun found s' _ =>
      NameResolution.Accounted imports defs tree none asker.opened (found = true) s' ∧
        StaysDone s s' ∧ (found = true → ¬ s'.IsDone i) := by
  rw [awaitImport]
  split
  · exact ⟨before.weaken False.elim, .refl s, by simp⟩
  · simp only [Importing.run_status_iff, Run.bind_iff]
    split
    · next pending =>
      rw [Run.bind_iff]
      apply (resolveSingle_accounts plain h before pending).mono
      intro _ s₁ log₁ ended
      obtain ⟨after, keeps⟩ := ended
      simp only [Importing.run_status_iff, Run.bind_iff, Run.pure_iff, beq_iff_eq]
      -- the cycle goes on only if the import has failed with it, and then it is not done
      refine ⟨after, keeps, ?_⟩
      rintro failed ⟨source, done⟩
      rw [failed] at done
      cases done
    · next inProgress =>
      -- this is where a cycle is met: the directive is one of those that are open
      simp only [reportCycle, Importing.report, Run.bind_iff, Importing.run_note_iff,
        Run.emit_iff, Run.modify_iff, Run.pure_iff]
      refine ⟨before.reportCycle inProgress _, .refl s, ?_⟩
      rintro - ⟨source, done⟩
      have done : s.statusOf i = .done source := done
      rw [inProgress] at done
      cases done
    · next failed =>
      refine ⟨before.weaken False.elim, .refl s, ?_⟩
      rintro - ⟨source, done⟩
      rw [failed] at done
      cases done
    · exact ⟨before.weaken False.elim, .refl s, by simp⟩
    · exact ⟨before.weaken False.elim, .refl s, by simp⟩

/-- Waiting for all imports of a name. -/
theorem awaitImports_accounts (plain : imports.Plain) (h : Accounted imports defs tree lookup)
    {module : ModuleId} {name : String} {s : ImportState n} {log : Log}
    (before : NameResolution.Accounted imports defs tree none asker.opened False s) :
    Run True (awaitImports imports lookup asker (imports.binders module name)) s log
      fun cycle s' _ =>
        NameResolution.Accounted imports defs tree none asker.opened (cycle = true) s' ∧
          StaysDone s s' ∧
          (cycle = true → ∃ i, (imports.get i).slot? = some (module, name) ∧ ¬ s'.IsDone i) := by
  rcases plain.binders module name with none | ⟨i, only⟩
  · rw [none]
    exact ⟨before.weaken False.elim, .refl s, by simp⟩
  · have slot := Imports.mem_binders.mp (only ▸ List.mem_singleton_self i)
    -- with one import at most to wait for, its answer is the answer
    rw [only]
    simp only [awaitImports, Run.bind_iff, Run.pure_iff, Bool.or_false]
    apply (awaitImport_accounts plain h before).mono
    intro found s₁ log₁ ended
    obtain ⟨after, keeps, notDone⟩ := ended
    exact ⟨after, keeps, fun on => ⟨i, slot, notDone on⟩⟩

/-- What is bound in the end is the answer. Behind a cycle it is nothing. -/
theorem answer_accounts {module : ModuleId} {ns : Namespace} {name : String} {cycle : Bool}
    (after : NameResolution.Accounted imports defs tree none opened (cycle = true) s)
    (unbound : cycle = true → s.tree.bindingAt? module ns name = none) (log : Log) :
    Tries True (do
      match ← (Importing.bindingOf module ns name : Importing n (Option Binding)) with
      | some binding => return some binding
      | none => if cycle then throw .cycle else return none : Attempt n (Option Binding)) s log
      fun r s' _ => NameResolution.Accounted imports defs tree none opened (r = .error .cycle) s' ∧
        StaysDone s s' := by
  simp only [Tries.bind_iff, Tries.liftM_iff]
  apply Importing.reads_bindingOf.mono
  intro found _ log₁ read
  obtain ⟨rfl, bound, -⟩ := read
  cases cycle with
  | false =>
    split
    · exact ⟨after.weaken (by simp), .refl _⟩
    · exact ⟨after.weaken (by simp), .refl _⟩
  | true =>
    -- the name is still unbound behind the cycle, so the lookup throws it again
    rw [unbound rfl] at bound
    subst bound
    exact ⟨after.weaken fun _ => rfl, .refl _⟩

/-- One more level of nesting. When the import of the name comes back with a cycle, it has not
    bound the name, and nothing else could have. -/
theorem step_accounted (plain : imports.Plain) (h : Accounted imports defs tree lookup) :
    Accounted imports defs tree (step imports lookup) := by
  intro asker module ns name s log before
  rw [step]
  simp only [Tries.bind_iff, Tries.liftM_iff, Importing.run_note_iff]
  apply Importing.reads_bindingOf.mono
  intro found _ log₀ read
  obtain ⟨rfl, bound, -⟩ := read
  split
  · exact ⟨before.weaken False.elim, .refl _⟩
  · next isNone =>
    simp only [Tries.bind_iff, Tries.liftM_iff]
    apply (awaitImports_accounts plain h before).mono
    intro cycle s₁ log₁ ended
    obtain ⟨after, keeps, notDone⟩ := ended
    -- what is not done has bound the name neither before the wait nor in its course
    have unbound (on : cycle = true) : s₁.tree.bindingAt? module ns name = none := by
      obtain ⟨i, slot, notDone⟩ := notDone on
      have late := after.unbound slot notDone (by simp) ns
      have early := before.unbound slot (fun done => notDone (keeps i done)) (by simp) ns
      rw [late, ← early, ← bound]
    have answer := (answer_accounts after unbound log₁).mono fun _ _ _ answered =>
      And.intro answered.1 (keeps.trans answered.2)
    split
    · simp only [askGlobs, plain.globsOf, Tries.bind_iff, Tries.liftM_iff] at answer ⊢
      exact answer
    · exact answer

theorem upTo_accounted (plain : imports.Plain) (depth : Nat) :
    Accounted imports defs tree (upTo imports depth) := by
  induction depth with
  | zero =>
    intro asker module ns name
    exact composes_accounts.lift
  | succ depth ih => exact step_accounted plain ih

theorem full_accounted (plain : imports.Plain) : Accounted imports defs tree (full imports) :=
  upTo_accounted plain _

end Lookup

/-! ## The whole phase -/

namespace Importing

variable {log : Log}

theorem resolvePending_accounts (plain : imports.Plain) {i : Fin n}
    (before : Accounted imports defs tree none [] False s) :
    Run True (resolvePending imports i) s log fun _ s' _ =>
      Accounted imports defs tree none [] False s' := by
  simp only [resolvePending, run_status_iff, plain.single i, Bool.not_false, Bool.true_and,
    Run.bind_iff]
  split
  · next pending =>
    apply (Lookup.resolveSingle_accounts plain (Lookup.full_accounted plain) before
      (by simpa using pending)).mono
    intro _ s₁ log₁ ended
    exact ended.1.settled
  · exact before

theorem globSources_eq_nil (plain : imports.Plain) (is : List (Fin n)) :
    globSources imports is = (pure [] : Importing n _) := by
  induction is with
  | nil => rfl
  | cons i others ih =>
    rw [globSources, ih, plain.single i]
    rfl

/-- All imports in order, whatever their order is. -/
theorem allDirectives_accounts (plain : imports.Plain)
    (before : Accounted imports defs tree none [] False s) :
    Run True (allDirectives imports) s log fun _ s' _ =>
      Accounted imports defs tree none [] False s' := by
  simp only [allDirectives, globSources_eq_nil plain, Run.bind_iff, Run.pure_iff, Run.get_iff]
  have singles : Run True ((List.finRange n).forM (resolvePending imports)) s log fun _ s' _ =>
      Accounted imports defs tree none [] False s' :=
    Run.forM _ before fun i _ s log h => resolvePending_accounts plain h
  apply singles.mono
  intro _ s₁ log₁ after
  exact after

end Importing

end

/-- The imports of a phase are plain where the list says so. -/
theorem plain_of_list {directives : List Directive} {lint : Bool}
    (single : ∀ d ∈ directives, d.isGlob = false)
    (apart : (directives.filterMap Directive.slot?).Nodup) :
    Imports.Plain ⟨⟨directives.toArray, List.size_toArray⟩, lint⟩ := by
  constructor
  · intro i
    exact single _ (List.getElem_mem i.isLt)
  · intro i j slot held held'
    -- of two places in the list one comes first, and the slots of the two differ
    have apart := List.pairwise_iff_getElem.mp (List.pairwise_filterMap.mp apart)
    rcases Nat.lt_trichotomy i j with lt | eq | gt
    · exact absurd rfl (apart i j i.isLt j.isLt lt slot held slot held')
    · exact Fin.ext eq
    · exact absurd rfl (apart j i j.isLt i.isLt gt slot held' slot held)

/-- Without globs and without two imports of one name in one module, in whatever order the imports
    stand: who is reported as cyclic is reported once, has failed, and has bound nothing, neither
    its name nor anything at its node. Globs break this even where no name is imported twice, and
    where one is it takes no glob (`cyclic_import_binds_beside_namesake`). -/
theorem cyclic_imports_fail {defs : Definitions} {tree : ModuleTree} {lint : Bool}
    {directives : List Directive} (single : ∀ d ∈ directives, d.isGlob = false)
    (apart : (directives.filterMap Directive.slot?).Nodup)
    {s : ImportState directives.length} {log log' : Log}
    (run : resolveImports defs tree lint directives log = .ok s log') :
    ∃ cyclic : List (Fin directives.length), cyclic.Nodup ∧
      List.Forall₂
        (fun d i => ∃ cycle, d = .importCycle directives[i].boundName directives[i].span cycle)
        (s.diagnostics.filter (·.isImportCycle)) cyclic ∧
      ∀ i ∈ cyclic, s.statusOf i = .cycleFailed ∧
        (∀ slot, directives[i].slot? = some slot → ∀ ns,
          s.tree.bindingAt? slot.1 ns slot.2 = tree.bindingAt? slot.1 ns slot.2) ∧
        ∀ d ∈ s.defs.since defs.size, d.node = directives[i].node →
          ∃ j, j ≠ i ∧ s.IsDone j ∧ directives[j].node = d.node := by
  have start : Accounted ⟨⟨directives.toArray, List.size_toArray⟩, lint⟩ defs tree none [] False
      (.start directives.length defs tree) := by
    refine ⟨fun i => ?_, fun _ _ _ _ => rfl, ⟨[], by simp [ImportState.start], by simp⟩, ⟨[], ?_⟩⟩
    · simp [ImportState.statusOf_start]
    · simp [ImportState.start, ReportsCycles]
  obtain ⟨⟨_, s'⟩, log₁, phase, last⟩ := Logged.bind_eq_ok.mp run
  obtain ⟨rfl, -⟩ : s' = s ∧ log₁ = log' := by
    cases last
    exact ⟨rfl, rfl⟩
  have after := Run.true_iff.mp
    (Importing.allDirectives_accounts (plain_of_list single apart) start) _ _ _ phase
  obtain ⟨cyclic, nodup, reports, failed⟩ := after.reported
  refine ⟨cyclic, nodup, reports, fun i mem => ?_⟩
  -- in the end nothing is open, so whoever has been reported has failed
  have status : s'.statusOf i = .cycleFailed := (failed i mem).resolve_right (by simp)
  have notDone : ¬ s'.IsDone i := by
    rintro ⟨source, done⟩
    rw [status] at done
    cases done
  refine ⟨status, fun slot held ns => after.unbound held notDone (by simp) ns, ?_⟩
  intro d mem node
  obtain ⟨aliases, eq, made⟩ := after.added
  rw [Definitions.since_eq_drop, eq, List.drop_left' (by simp [Definitions.toList,
    Definitions.size])] at mem
  -- an alias at the node of `i` is that of an import that is done, which `i` is not
  obtain ⟨j, done | closing, node'⟩ := made d mem
  · exact ⟨j, fun same => notDone (same ▸ done), done, node'⟩
  · cases closing

/-- Two imports that need each other, and nothing else. -/
def needEachOther : List Directive :=
  [⟨⟨true, ⟨1⟩, ⟨1, 1⟩, ⟨true, [⟨.name "y", ⟨1, 1⟩⟩]⟩, .single (some ⟨"x", ⟨1, 1⟩⟩)⟩, .root⟩,
    ⟨⟨true, ⟨2⟩, ⟨2, 1⟩, ⟨true, [⟨.name "x", ⟨2, 1⟩⟩]⟩, .single (some ⟨"y", ⟨2, 1⟩⟩)⟩, .root⟩]

theorem cyclic_imports_fail_of_need :
    ∃ s log', resolveImports .empty .new true needEachOther .empty = .ok s log' ∧
      s.diagnostics.length = 1 ∧
      ∃ cyclic : List (Fin needEachOther.length), cyclic.Nodup ∧
        List.Forall₂
          (fun d i => ∃ cycle,
            d = .importCycle needEachOther[i].boundName needEachOther[i].span cycle)
          (s.diagnostics.filter (·.isImportCycle)) cyclic ∧
        ∀ i ∈ cyclic, s.statusOf i = .cycleFailed ∧
          (∀ slot, needEachOther[i].slot? = some slot → ∀ ns,
            s.tree.bindingAt? slot.1 ns slot.2 = ModuleTree.new.bindingAt? slot.1 ns slot.2) ∧
          ∀ d ∈ s.defs.since 0, d.node = needEachOther[i].node →
            ∃ j, j ≠ i ∧ s.IsDone j ∧ needEachOther[j].node = d.node := by
  have checked : ∃ s log', resolveImports .empty .new true needEachOther .empty = .ok s log' ∧
      (s.diagnostics.length == 1) = true := Logged.exists_of_check (by decide +kernel)
  obtain ⟨s, log', run, one⟩ := checked
  exact ⟨s, log', run, by simpa using one,
    cyclic_imports_fail (by decide) (by decide) run⟩

/-! ## Cycles that lead nowhere -/

/-- A module that imports a name from where it is imported back from, and from elsewhere:

        mod m { pub use ::a::x; }
        mod a { pub use ::m::*; pub use ::n::*; }
        mod n { pub struct x; } -/
def importedBack : Program :=
  ⟨⟨0⟩, ⟨0, 12⟩,
    [.mod ⟨⟨1⟩, true, ⟨1, 1⟩⟩ ⟨"m", ⟨1, 1⟩⟩
      [.useDecl ⟨⟨2⟩, true, ⟨2, 1⟩⟩
        (.path ⟨3⟩ ⟨3, 1⟩ ⟨true, [⟨.name "a", ⟨3, 1⟩⟩, ⟨.name "x", ⟨3, 1⟩⟩]⟩ none)],
    .mod ⟨⟨4⟩, true, ⟨4, 1⟩⟩ ⟨"a", ⟨4, 1⟩⟩
      [.useDecl ⟨⟨5⟩, true, ⟨5, 1⟩⟩
        (.glob ⟨6⟩ ⟨6, 1⟩ (some ⟨true, [⟨.name "m", ⟨6, 1⟩⟩]⟩)),
      .useDecl ⟨⟨7⟩, true, ⟨7, 1⟩⟩
        (.glob ⟨8⟩ ⟨8, 1⟩ (some ⟨true, [⟨.name "n", ⟨8, 1⟩⟩]⟩))],
    .mod ⟨⟨9⟩, true, ⟨9, 1⟩⟩ ⟨"n", ⟨9, 1⟩⟩
      [.struct ⟨⟨10⟩, true, ⟨10, 1⟩⟩ ⟨"x", ⟨10, 1⟩⟩ [] []]]⟩

/-- With globs, an import is reported as cyclic once for each namespace, and still binds its
    name: the glob that has met it finds nothing, and the next one does. -/
theorem cyclic_import_binds_beside_globs :
    ∃ reported session log', (Session.new {}).build importedBack .empty =
        .ok (reported, session) log' ∧
      reported = List.replicate 3 (.importCycle "x" ⟨3, 1⟩ "cycle: `x` -> `x`") ∧
      session.tree.bindingAt? ⟨1⟩ .type "x" = some (.imported ⟨6⟩) ∧
      session.defs.find? ⟨6⟩ = some ⟨⟨6⟩, .importAlias, ⟨"x", ⟨3, 1⟩⟩, true, ⟨3⟩, some ⟨5⟩⟩ := by
  have checked : ∃ r log', (Session.new {}).build importedBack .empty = .ok r log' ∧
      (r.1 == List.replicate 3 (.importCycle "x" ⟨3, 1⟩ "cycle: `x` -> `x`")
        && r.2.tree.bindingAt? ⟨1⟩ .type "x" == some (.imported ⟨6⟩)
        && r.2.defs.find? ⟨6⟩ ==
          some ⟨⟨6⟩, .importAlias, ⟨"x", ⟨3, 1⟩⟩, true, ⟨3⟩, some ⟨5⟩⟩) = true :=
    Logged.exists_of_check (by decide +kernel)
  obtain ⟨⟨reported, session⟩, log', run, same⟩ := checked
  simp only [Bool.and_eq_true, beq_iff_eq] at same
  exact ⟨reported, session, log', run, same.1.1, same.1.2, same.2⟩

/-- A module that imports one name from two places, one of which imports it back:

        mod m { pub use ::a::x; pub use ::b::x; }
        mod a { pub func x(); pub use ::m::x::self; }
        mod b { pub struct x; } -/
def importedTwice : Program :=
  ⟨⟨0⟩, ⟨0, 12⟩,
    [.mod ⟨⟨1⟩, true, ⟨1, 1⟩⟩ ⟨"m", ⟨1, 1⟩⟩
      [.useDecl ⟨⟨2⟩, true, ⟨2, 1⟩⟩
        (.path ⟨3⟩ ⟨3, 1⟩ ⟨true, [⟨.name "a", ⟨3, 1⟩⟩, ⟨.name "x", ⟨3, 1⟩⟩]⟩ none),
      .useDecl ⟨⟨4⟩, true, ⟨4, 1⟩⟩
        (.path ⟨5⟩ ⟨5, 1⟩ ⟨true, [⟨.name "b", ⟨5, 1⟩⟩, ⟨.name "x", ⟨5, 1⟩⟩]⟩ none)],
    .mod ⟨⟨6⟩, true, ⟨6, 1⟩⟩ ⟨"a", ⟨6, 1⟩⟩
      [.func ⟨⟨7⟩, true, ⟨7, 1⟩⟩ .func ⟨"x", ⟨7, 1⟩⟩ [] [] none none,
      .useDecl ⟨⟨8⟩, true, ⟨8, 1⟩⟩
        (.path ⟨9⟩ ⟨9, 1⟩
          ⟨true, [⟨.name "m", ⟨9, 1⟩⟩, ⟨.name "x", ⟨9, 1⟩⟩, ⟨.selfModule, ⟨9, 1⟩⟩]⟩ none)],
    .mod ⟨⟨10⟩, true, ⟨10, 1⟩⟩ ⟨"b", ⟨10, 1⟩⟩
      [.struct ⟨⟨11⟩, true, ⟨11, 1⟩⟩ ⟨"x", ⟨11, 1⟩⟩ [] []]]⟩

/-- Nor does it help to do without globs where a name is imported twice: the other import of the
    name breaks the cycle, and the one that was reported binds a function. -/
theorem cyclic_import_binds_beside_namesake :
    ∃ reported session log', (Session.new {}).build importedTwice .empty =
        .ok (reported, session) log' ∧
      .importCycle "x" ⟨3, 1⟩ "cycle: `x` -> `x` -> `x`" ∈ reported ∧
      session.tree.bindingAt? ⟨1⟩ .value "x" = some (.overloads ⟨1⟩) := by
  have checked : ∃ r log', (Session.new {}).build importedTwice .empty = .ok r log' ∧
      (r.1.contains (.importCycle "x" ⟨3, 1⟩ "cycle: `x` -> `x` -> `x`")
        && r.2.tree.bindingAt? ⟨1⟩ .value "x" == some (.overloads ⟨1⟩)) = true :=
    Logged.exists_of_check (by decide +kernel)
  obtain ⟨⟨reported, session⟩, log', run, same⟩ := checked
  simp only [Bool.and_eq_true, beq_iff_eq, List.contains_iff_mem] at same
  exact ⟨reported, session, log', run, same.1, same.2⟩

end NameResolution
