import NameResolution.Proofs.Declaration.Sorts
import NameResolution.Proofs.Import.Tracing

/-! # The import phase as a run of moves

    Each part of the import phase is taken apart into the moves that it makes.
    A lookup makes them in the course of the directives that wait for it, and
    these take no part. Where a glob is asked, the single imports that would
    bind the name have come to their end. -/

namespace NameResolution

variable {n : Nat} {labels : NodeId → String → Prop} {imports : Imports n}
  {start s s' s'' : ImportState n} {log log' log'' : Log} {opened searched : List (Fin n)}
  {i : Fin n}

namespace Importing

open Lookup

/-- A part of the import phase makes moves only, and leaves the others in order. Whenever it notes
    a moment the tables are in order. -/
structure Goes (labels : NodeId → String → Prop) (imports : Imports n) (start : ImportState n)
    (opened : List (Fin n)) (s : ImportState n) (log : Log) (s' : ImportState n) (log' : Log) :
    Prop where
  steps : Steps imports opened s s'
  notes : log.NotesSound labels log'
  course : Course labels imports start opened s'

theorem Goes.refl (course : Course labels imports start opened s) :
    Goes labels imports start opened s log s log := ⟨.refl s, .refl log, course⟩

theorem Goes.trans (h : Goes labels imports start opened s log s' log')
    (h' : Goes labels imports start opened s' log' s'' log'') :
    Goes labels imports start opened s log s'' log'' :=
  ⟨h.steps.trans h'.steps, h.notes.trans h'.notes, h'.course⟩

theorem Goes.emits (h : Goes labels imports start opened s log s' log') (event : Event) :
    Goes labels imports start opened s log s' (log'.push event) :=
  ⟨h.steps, h.notes.trans (.push event), h.course⟩

theorem notesSound_importing (sound : Sound labels (s.defs, s.tree)) {task : ImportTask n} :
    log.NotesSound labels (log.note (.importing ⟨opened, searched, task, s⟩)) := .note sound

/-- Where a status is about to be set, the tables are what they will be. -/
theorem Course.notesSound {status : ImportStatus} {opened' : List (Fin n)} {task : ImportTask n}
    (course : Course labels imports start opened (s.withStatus i status)) :
    log.NotesSound labels (log.note (.importing ⟨opened', searched, task, s⟩)) :=
  .note course.inOrder.sound

/-- Before anything is done, it is noted what that will be. -/
theorem Goes.noted (course : Course labels imports start opened s) {opened' : List (Fin n)}
    {task : ImportTask n} : Goes labels imports start opened s log s
      (log.note (.importing ⟨opened', searched, task, s⟩)) :=
  ⟨.refl s, notesSound_importing course.inOrder.sound, course⟩

/-! ## Opening and closing -/

theorem Course.not_mem (course : Course labels imports start opened s)
    (ne : s.statusOf i ≠ .inProgress) : i ∉ opened :=
  fun mem => ne ((course.inProgress i).mp mem)

/-- Outside of all directives, whoever has been opened has come to its end. -/
theorem Course.finished (course : Course labels imports start [] s) (ne : s.statusOf i ≠ .pending) :
    s.Finished i :=
  ⟨ne, fun inProgress => List.not_mem_nil ((course.inProgress i).mpr inProgress)⟩

/-- A directive is opened, and is one more in whose course others are. -/
theorem Course.opens (course : Course labels imports start opened s)
    (pending : s.statusOf i = .pending) :
    Course labels imports start (opened ++ [i]) (s.withStatus i .inProgress) ∧
      Steps imports opened s (s.withStatus i .inProgress) := by
  have fresh : i ∉ opened := course.not_mem (by rw [pending]; decide)
  have step : Step imports opened s (s.withStatus i .inProgress) := .moves fresh (.opens pending)
  refine ⟨⟨(course.inOrder.step step).inOrder course.inOrder,
    course.reached.trans ((Steps.single step).mono (List.nil_subset _)), fun j => ?_,
    fun j failed => ?_, fun j failed => ?_, fun j source single done => ?_⟩, .single step⟩
  · rw [ImportState.statusOf_withStatus, List.mem_append, List.mem_singleton]
    by_cases same : i = j
    · simp [same]
    · rw [if_neg same, ← course.inProgress j]
      simp [Ne.symm same]
  · rw [ImportState.statusOf_withStatus] at failed
    split at failed
    · cases failed
    · exact (course.lost j failed).beside (step.beside failed)
  · rw [ImportState.statusOf_withStatus] at failed
    split at failed
    · simp at failed
    · exact course.reported j failed
  · rw [ImportState.statusOf_withStatus] at done
    split at done
    · cases done
    · exact (course.linted j source single done).step step

/-- The directive that was opened last makes its move. -/
theorem Course.closes (course : Course labels imports start (opened ++ [i]) s) (fresh : i ∉ opened)
    (move : Move imports i s s') (lost : s'.statusOf i = .failed → Lost imports i s')
    (reported : s'.statusOf i = .failed ∨ s'.statusOf i = .cycleFailed →
      hasErrors s'.diagnostics = true)
    (linted : ∀ source, (imports.get i).isGlob = false → s'.statusOf i = .done source →
      Linted imports start i s') :
    Course labels imports start opened s' ∧ Steps imports opened s s' := by
  have step : Step imports opened s s' := .moves fresh move
  have finished : s'.Finished i := move.finished ((course.inProgress i).mp (by simp))
  refine ⟨⟨(course.inOrder.step step).inOrder course.inOrder,
    course.reached.trans ((Steps.single step).mono (List.nil_subset _)), fun j => ?_,
    fun j failed => ?_, fun j failed => ?_, fun j source single done => ?_⟩, .single step⟩
  · by_cases same : i = j
    · subst same
      exact iff_of_false fresh finished.2
    · rw [move.statusOf_of_ne same, ← course.inProgress j]
      simp [Ne.symm same]
  · by_cases same : i = j
    · subst same
      exact lost failed
    · have before : s.statusOf j = .failed := by rw [← move.statusOf_of_ne same, failed]
      exact (course.lost j before).beside (step.beside before)
  · by_cases same : i = j
    · subst same
      exact reported failed
    · rw [move.statusOf_of_ne same] at failed
      exact Steps.hasErrors (.single step) (course.reported j failed)
  · by_cases same : i = j
    · subst same
      exact linted source single done
    · rw [move.statusOf_of_ne same] at done
      exact (course.linted j source single done).step step

/-- A failure is reported, except for a cycle, which has been reported already. -/
theorem run_reportFailure_eq {directive : Directive} {failure : ImportFailure} :
    Run True (reportFailure directive failure) s log fun status s' log' => log' = log ∧
      ∃ more, (∀ d ∈ more, d.isRedefinition = false) ∧
        s' = { s with diagnostics := s.diagnostics ++ more } ∧
        (status = .failed ∧ failure ≠ .cycle ∧ hasErrors s'.diagnostics = true ∨
          status = .cycleFailed ∧ failure = .cycle) := by
  rw [reportFailure]
  split
  · next reason given =>
    simp only [report, Run.bind_iff, Run.modify_iff, Run.pure_iff]
    refine ⟨trivial, [_], by simp [Diagnostic.isRedefinition], rfl, .inl ⟨trivial, ?_, ?_⟩⟩
    · rintro rfl
      cases given
    · simp [hasErrors, Diagnostic.isError, Diagnostic.isWarning]
  · next none =>
    refine ⟨rfl, [], by simp, by simp, .inr ⟨rfl, ?_⟩⟩
    cases failure with
    | cycle => rfl
    | _ => cases none

/-- The directive that was opened last fails. Unless it is for a cycle, it is lost. -/
theorem Course.run_reportFailure (course : Course labels imports start (opened ++ [i]) s)
    (fresh : i ∉ opened) {failure : ImportFailure}
    (lost : failure ≠ .cycle → Lost imports i s)
    (cycle : failure = .cycle → hasErrors s.diagnostics = true) :
    Run True (reportFailure (imports.get i) failure) s log fun status s' log' => log' = log ∧
      Course labels imports start opened (s'.withStatus i status) ∧
        Steps imports opened s (s'.withStatus i status) ∧
        (status = .failed ∨ status = .cycleFailed) := by
  apply run_reportFailure_eq.mono
  rintro status _ _ ⟨rfl, more, others, rfl, failed⟩
  have course₁ := course.reports others
  have report : Step imports opened s { s with diagnostics := s.diagnostics ++ more } :=
    .reports others
  have inProgress : s.statusOf i = .inProgress := (course.inProgress i).mp (by simp)
  have isFailed : status = .failed ∨ status = .cycleFailed := failed.imp And.left And.left
  have move : Move imports i { s with diagnostics := s.diagnostics ++ more } _ :=
    .fails inProgress isFailed
  have lost₁ : status = .failed → Lost imports i
      (ImportState.withStatus { s with diagnostics := s.diagnostics ++ more } i status) := by
    rintro rfl
    have notCycle : failure ≠ .cycle := by
      rcases failed with ⟨-, notCycle, -⟩ | ⟨impossible, -⟩
      · exact notCycle
      · cases impossible
    -- reporting and taking the status down changes nothing for who is lost
    have beside : Beside imports i s (ImportState.withStatus
        { s with diagnostics := s.diagnostics ++ more } i .failed) :=
      .tail (.single (.inl (.reports others))) (.inr ⟨.failed, rfl⟩)
    exact (lost notCycle).beside beside
  have errors : hasErrors (s.diagnostics ++ more) = true := by
    rcases failed with ⟨-, -, errors⟩ | ⟨-, isCycle⟩
    · exact errors
    · exact Steps.hasErrors (.single report) (cycle isCycle)
  obtain ⟨closed, steps⟩ := course₁.closes fresh move
    (fun failed => lost₁ ((ImportState.statusOf_withStatus_self ..).symm.trans failed))
    (fun _ => errors) fun source _ done => by
      rw [ImportState.statusOf_withStatus_self] at done
      rcases isFailed with rfl | rfl <;> cases done
  exact ⟨rfl, closed, Steps.trans (.single report) steps, isFailed⟩

end Importing

namespace Lookup

open Importing

variable {lookup : Lookup n} {asker : Asker n}

/-! ## Single imports -/

/-- What a single import has come to. -/
inductive SingleEnds (labels : NodeId → String → Prop) (imports : Imports n)
    (start : ImportState n) (i : Fin n) (opened : List (Fin n)) (s : ImportState n) (log : Log) :
    Except ImportFailure Unit → ImportState n → Log → Prop where
  | found {target : ImportTarget} {module : ModuleId}
      {found : List (Namespace × ModuleId × Binding)} {s₁ s' : ImportState n} {log₁ log' : Log}
      (hasTarget : (imports.get i).target? = some target)
      (goes : Goes labels imports start opened s log s₁ log₁)
      (finds : SingleFound imports i s₁ target module found) (notEmpty : found ≠ [])
      (brings : BringsAll (imports.get i) target.name found s₁ s')
      (warned : (target.lead.isEmpty && !(imports.get i).path.global) = false →
        Warned imports (imports.get i) target.last.name found s')
      (notes : log₁.NotesSound labels log') :
      SingleEnds labels imports start i opened s log (.ok ()) s' log'
  | failed {failure : ImportFailure} {s' : ImportState n} {log' : Log}
      (goes : Goes labels imports start opened s log s' log')
      (lost : failure ≠ .cycle → Lost imports i s')
      (cycle : failure = .cycle → hasErrors s'.diagnostics = true) :
      SingleEnds labels imports start i opened s log (.error failure) s' log'

theorem Traced.importSingle (traced : Traced labels imports start lookup) (asker : Asker n)
    (mem : asker.index ∈ asker.opened) (single : (imports.get asker.index).isGlob = false)
    (course : Course labels imports start asker.opened s) :
    Tries True (importSingle imports lookup asker) s log fun r s' log' =>
      SingleEnds labels imports start asker.index asker.opened s log r s' log' := by
  cases hasTarget : (imports.get asker.index).target? with
  | none =>
    rw [Lookup.importSingle, hasTarget]
    refine .failed (.refl course) (fun _ e _ => ?_) (by simp)
    rw [followPath, single, hasTarget]
    exact .inr ⟨_, .throw _⟩
  | some target =>
    rw [importSingle_eq hasTarget, Tries.bind_iff]
    apply (traced.findSingle ⟨asker.index, [], []⟩ mem rfl target course log).mono
    intro r s₁ log₁ ended
    cases r with
    | error failure =>
      refine .failed ⟨ended.path, ended.notes, ended.course⟩ (fun notCycle e beside => ?_)
        fun isCycle => ended.cycle (congrArg _ isCycle)
      rw [followPath, single, hasTarget]
      exact (ended.mirrors e beside notCycle).bind
    | ok found =>
      obtain ⟨notEmpty, module, finds⟩ := ended.found found rfl
      show Tries True _ s₁ log₁ _
      rw [Tries.liftM_iff]
      apply (run_bindTargets_brings found (ended.course.inOrder.prepared finds)).mono
      rintro _ s₂ _ ⟨brings, warned, notes⟩
      exact .found hasTarget ⟨ended.path, ended.notes, ended.course⟩ finds notEmpty brings warned
        notes

theorem finished_of_failed {status : ImportStatus}
    (failed : status = .failed ∨ status = .cycleFailed) : (s.withStatus i status).Finished i := by
  rcases failed with rfl | rfl
  · exact ImportState.finished_withStatus (by simp) (by simp)
  · exact ImportState.finished_withStatus (by simp) (by simp)

/-- Opened and closed in the course of others, a single import has come to its end. -/
theorem Traced.resolveSingle (traced : Traced labels imports start lookup)
    (single : (imports.get i).isGlob = false) (course : Course labels imports start opened s)
    (pending : s.statusOf i = .pending) :
    Run True (resolveSingle imports lookup i opened searched) s log fun _ s' log' =>
      Goes labels imports start opened s log s' log' ∧ s'.Finished i := by
  have fresh : i ∉ opened := course.not_mem (by rw [pending]; decide)
  obtain ⟨course₀, opens⟩ := course.opens pending
  -- the steps in the course of one more directive are steps in the course of the others
  have goesOn {s' : ImportState n} {log₀ log' : Log}
      (goes : Goes labels imports start (opened ++ [i]) (s.withStatus i .inProgress) log₀ s' log') :
      Steps imports opened s s' := opens.trans (goes.steps.mono (List.subset_append_left ..))
  have opening : log.NotesSound labels
      (log.note (.importing ⟨opened, searched, .setStatus i .inProgress, s⟩)) :=
    notesSound_importing course.inOrder.sound
  simp only [Lookup.resolveSingle, run_setStatus_iff, Run.bind_iff, Tries.run_iff]
  apply (traced.importSingle ⟨i, opened ++ [i], searched⟩ (by simp) single course₀).mono
  intro r s₂ log₂ ended
  cases ended with
  | @found target module found s₁ _ _ _ hasTarget goes finds notEmpty brings warned notes =>
    have inProgress : s₁.statusOf i = .inProgress := (goes.course.inProgress i).mp (by simp)
    have move : Move imports i s₁ (s₂.withStatus i (.done none)) :=
      .binds inProgress hasTarget finds brings
    have done : (s₂.withStatus i (.done none)).statusOf i = .done none :=
      ImportState.statusOf_withStatus_self ..
    have linted : Linted imports start i (s₂.withStatus i (.done none)) :=
      .intro hasTarget goes.course.reached inProgress finds notEmpty brings warned (.refl _)
    obtain ⟨closed, steps⟩ := goes.course.closes fresh move (by simp [done]) (by simp [done])
      fun _ _ _ => linted
    refine ⟨⟨(goesOn goes).trans steps, ?_, closed⟩, move.finished inProgress⟩
    exact (opening.trans (goes.notes.trans notes)).trans closed.notesSound
  | failed goes lost cycle =>
    rw [Run.bind_iff]
    apply (goes.course.run_reportFailure fresh lost cycle).mono
    rintro status s₃ _ ⟨rfl, closed, steps, failed⟩
    refine ⟨⟨(goesOn goes).trans steps, ?_, closed⟩, finished_of_failed failed⟩
    exact (opening.trans goes.notes).trans closed.notesSound

/-! ## Globs -/

/-- A glob has a source if it is done with finding it. -/
theorem Traced.globSource (traced : Traced labels imports start lookup)
    (isGlob : (imports.get i).isGlob = true) (course : Course labels imports start opened s) :
    Run True (globSource imports lookup i opened searched) s log fun source s' log' =>
      Goes labels imports start opened s log s' log' ∧ s'.statusOf i ≠ .pending ∧
        ∀ m, s'.statusOf i = .done (some m) ↔ source = some m := by
  simp only [Lookup.globSource, run_note_iff, run_status_iff, Run.bind_iff]
  split
  · next source done => exact ⟨.noted course, by rw [done]; simp, by simp [done]⟩
  · next inProgress => exact ⟨.noted course, by rw [inProgress]; simp, by simp [inProgress]⟩
  · next failed => exact ⟨.noted course, by rw [failed]; simp, by simp [failed]⟩
  · next failed => exact ⟨.noted course, by rw [failed]; simp, by simp [failed]⟩
  · next pending =>
    have fresh : i ∉ opened := course.not_mem (by rw [pending]; decide)
    obtain ⟨course₀, opens⟩ := course.opens pending
    simp only [run_setStatus_iff, Run.bind_iff, Tries.run_iff]
    apply (traced.globPath ⟨i, opened ++ [i], searched⟩ ⟨i, [], []⟩ (by simp) rfl course₀ _).mono
    intro r s₁ log₁ ended
    have goes : Steps imports opened s s₁ :=
      opens.trans (ended.path.mono (List.subset_append_left ..))
    have notes : log.NotesSound labels log₁ := ((notesSound_importing course.inOrder.sound).trans
      (notesSound_importing course.inOrder.sound)).trans ended.notes
    have inProgress : s₁.statusOf i = .inProgress := (ended.course.inProgress i).mp (by simp)
    cases r with
    | ok source =>
      have move : Move imports i s₁ (s₁.withStatus i (.done (some source))) :=
        .reads inProgress isGlob
      have done : (s₁.withStatus i (.done (some source))).statusOf i = .done (some source) :=
        ImportState.statusOf_withStatus_self ..
      obtain ⟨closed, steps⟩ := ended.course.closes fresh move (by simp [done]) (by simp [done])
        fun _ single => by simp [isGlob] at single
      simp only [run_setStatus_iff, Run.bind_iff, Run.pure_iff]
      exact ⟨⟨goes.trans steps, notes.trans closed.notesSound, closed⟩,
        (move.finished inProgress).1, by simp [done]⟩
    | error failure =>
      have lost : failure ≠ .cycle → Lost imports i s₁ := by
        intro notCycle e beside
        rw [followPath, if_pos isGlob]
        exact (ended.mirrors e beside notCycle).bind
      simp only [Run.bind_iff]
      apply (ended.course.run_reportFailure fresh lost
        fun isCycle => ended.cycle (congrArg _ isCycle)).mono
      rintro status s₂ _ ⟨rfl, closed, steps, failed⟩
      refine ⟨⟨goes.trans steps, notes.trans closed.notesSound, closed⟩,
        (finished_of_failed failed).1, fun m => ?_⟩
      show (s₂.withStatus i status).statusOf i = .done (some m) ↔ none = some m
      rw [ImportState.statusOf_withStatus_self]
      rcases failed with rfl | rfl <;> simp

/-- A glob that brings in a name makes a move, or does nothing. -/
theorem run_globBind_goes {source : ModuleId} {ns : Namespace} {name : String} {binding : Binding}
    (isGlob : (imports.get i).isGlob = true) (done : s.statusOf i = .done (some source))
    (there : s.tree.bindingAt? source ns name = some binding)
    (settled : AllSettled imports s (imports.get i).module name)
    (course : Course labels imports start opened s) :
    Run True (globBind imports i source ns name binding) s log fun _ s' log' =>
      Goes labels imports start opened s log s' log' := by
  simp only [globBind, lift, Run.bind_iff, Run.get_iff, Run.lift_iff]
  refine Yields.true_iff.mpr fun m got => ?_
  split
  · exact .refl course
  · next fits =>
    simp only [Bool.or_eq_true, not_or, Module.has_eq_isSome_find?] at fits
    have free : s.tree.bindingAt? (imports.get i).module ns name = none := by
      rw [ModuleTree.bindingAt?_of_find? (ModuleTree.find?_of_get got)]
      simpa using fits.1
    simp only [Run.bind_iff, Run.lift_iff]
    refine Yields.true_iff.mpr fun inside within => Yields.true_iff.mpr fun pub isPub => ?_
    split
    · next visible =>
      simp only [Run.bind_iff, Run.pure_iff]
      apply run_bindImport_noted.mono
      rintro _ s₁ log₁ ⟨outcome, noted⟩
      -- from outside, a glob only brings in what is `pub`
      have only : (!inside) = (!inside && pub) := by
        cases inside
        · cases pub
          · cases visible
          · rfl
        · rfl
      rw [only] at outcome
      have brings : Brings (imports.get i) ⟨name, (imports.get i).span⟩ ns source binding s s₁ :=
        .of_outcome within isPub outcome
      have mayBring : s.tree.isWithin (imports.get i).module source = .ok true ∨
          Importing.isPub s.defs binding = .ok true := by
        rw [within, isPub]
        simpa using visible
      have step : Step imports opened s s₁ :=
        .moves (course.not_mem (by rw [done]; simp))
          (.spreads isGlob done there free (fun j slot _ => settled j slot) mayBring brings)
      have notes := (course.inOrder.step step).notes course.inOrder.sound noted
      exact ⟨.single step, notes, course.step step brings.statusOf⟩
    · exact .refl course

theorem Traced.askGlob (traced : Traced labels imports start lookup) {module : ModuleId}
    (ns : Namespace) {name : String} (mem : i ∈ imports.globsOf module)
    (settled : AllSettled imports s module name)
    (course : Course labels imports start asker.opened s) :
    Run True (askGlob imports lookup asker module ns name i) s log fun _ s' log' =>
      Goes labels imports start asker.opened s log s' log' := by
  obtain ⟨isGlob, rfl⟩ := Imports.mem_globsOf.mp mem
  simp only [Lookup.askGlob, Run.bind_iff]
  apply reads_bindingOf.mono
  rintro found _ log ⟨rfl, -, rfl⟩
  split
  · rw [Run.bind_iff]
    apply (traced.globSource isGlob course).mono
    rintro found s₁ log₁ ⟨goes, -, done⟩
    cases found with
    | none => exact goes
    | some source =>
      dsimp only
      split
      · rw [Run.bind_iff, Tries.run_iff]
        have answers : Traces labels imports start i asker.opened
            (lookup ⟨i, asker.opened, asker.searched ++ [i]⟩ source ns name)
            (explicit imports asker source ns name) (Answered imports i source ns name) s₁ :=
          traced ns goes.course
        apply (answers log₁).mono
        intro r s₂ log₂ ended
        have soFar : Goes labels imports start asker.opened s log s₂ log₂ :=
          goes.trans ⟨ended.path, ended.notes, ended.course⟩
        split
        · next _ binding =>
          have there := (ended.found _ rfl).bound
          have done₁ : s₁.statusOf i = .done (some source) := (done source).mpr rfl
          have done₂ : s₂.statusOf i = .done (some source) := by
            rw [ended.path.statusOf_of_finished, done₁]
            unfold ImportState.Finished
            rw [done₁]
            exact ⟨by simp, by simp⟩
          simp only [Run.bind_iff, Run.emit_iff, Run.pure_iff]
          exact (run_globBind_goes isGlob done₂ there (settled.steps soFar.steps)
            soFar.course).mono fun _ _ _ => (soFar.emits _).trans
        · exact soFar
      · exact goes
  · exact .refl course

theorem Traced.askGlobs (traced : Traced labels imports start lookup) {module : ModuleId}
    (ns : Namespace) {name : String} (settled : AllSettled imports s module name)
    (course : Course labels imports start asker.opened s) :
    Run True (askGlobs imports lookup asker module ns name) s log fun _ s' log' =>
      Goes labels imports start asker.opened s log s' log' := by
  apply Run.forM _ (.refl course)
  intro i mem s₁ log₁ soFar
  exact (traced.askGlob ns mem (settled.steps soFar.steps) soFar.course).mono
    fun _ _ _ => soFar.trans

/-! ## Names -/

theorem single_of_slot? {slot : ModuleId × String} (h : (imports.get i).slot? = some slot) :
    (imports.get i).isGlob = false := by
  obtain ⟨target, hasTarget, -⟩ := Option.map_eq_some_iff.mp h
  exact Import.isGlob_of_target? hasTarget

theorem Traced.awaitImport (traced : Traced labels imports start lookup)
    (single : (imports.get i).isGlob = false)
    (course : Course labels imports start asker.opened s) :
    Run True (awaitImport imports lookup asker i) s log fun cycle s' log' =>
      Goes labels imports start asker.opened s log s' log' ∧
        (cycle = false → i ≠ asker.index → s'.Finished i) ∧
        (cycle = true → hasErrors s'.diagnostics = true) := by
  rw [Lookup.awaitImport]
  split
  · next same => exact ⟨.refl course, fun _ ne => absurd same ne, by simp⟩
  · simp only [run_status_iff, Run.bind_iff]
    split
    · next pending =>
      simp only [Run.bind_iff, run_status_iff, Run.pure_iff, beq_iff_eq]
      exact (traced.resolveSingle single course pending).mono fun _ _ _ ended =>
        ⟨ended.1, fun _ _ => ended.2, fun failed => ended.1.course.reported i (.inr failed)⟩
    · simp only [reportCycle, report, Run.bind_iff, run_note_iff, Run.emit_iff, Run.modify_iff,
        Run.pure_iff]
      have others : ∀ d ∈ [Diagnostic.importCycle (imports.get i).boundName (imports.get i).span
          (cycleText ((asker.opened.drop ((asker.opened.idxOf? i).getD 0) ++ [i]).map
            fun j => (imports.get j).boundName))], d.isRedefinition = false := by
        simp [Diagnostic.isRedefinition]
      refine ⟨⟨.single (.reports others), notesSound_importing course.inOrder.sound,
        course.reports others⟩, by simp, fun _ => ?_⟩
      simp [hasErrors, Diagnostic.isError, Diagnostic.isWarning]
    · next failed => exact ⟨.refl course, by simp, fun _ => course.reported i (.inr failed)⟩
    · next source done =>
      refine ⟨.refl course, fun _ _ => ?_, by simp⟩
      unfold ImportState.Finished
      rw [done]
      exact ⟨by simp, by simp⟩
    · next failed =>
      refine ⟨.refl course, fun _ _ => ?_, by simp⟩
      unfold ImportState.Finished
      rw [failed]
      exact ⟨by simp, by simp⟩

theorem Traced.awaitImports (traced : Traced labels imports start lookup)
    (directives : List (Fin n)) (single : ∀ i ∈ directives, (imports.get i).isGlob = false)
    {s : ImportState n} {log : Log} (course : Course labels imports start asker.opened s) :
    Run True (awaitImports imports lookup asker directives) s log fun cycle s' log' =>
      Goes labels imports start asker.opened s log s' log' ∧
        (cycle = false → ∀ i ∈ directives, i ≠ asker.index → s'.Finished i) ∧
        (cycle = true → hasErrors s'.diagnostics = true) := by
  induction directives generalizing s log with
  | nil => exact ⟨.refl course, fun _ => List.forall_mem_nil _, by simp⟩
  | cons i others ih =>
    simp only [Lookup.awaitImports, Run.bind_iff, Run.pure_iff]
    apply (traced.awaitImport (single i (List.mem_cons_self ..)) course).mono
    rintro first s₁ log₁ ⟨goes, finished, errors⟩
    apply (ih (fun j mem => single j (List.mem_cons_of_mem _ mem)) goes.course).mono
    rintro later s₂ log₂ ⟨goes', finished', errors'⟩
    refine ⟨goes.trans goes', fun noCycle j mem ne => ?_, fun cycle => ?_⟩
    · obtain ⟨noFirst, noLater⟩ := Bool.or_eq_false_iff.mp noCycle
      rcases List.mem_cons.mp mem with rfl | mem
      · exact goes'.steps.finished (finished noFirst ne)
      · exact finished' noLater j mem ne
    · rcases (Bool.or_eq_true _ _).mp cycle with first | later
      · exact goes'.steps.hasErrors (errors first)
      · exact errors' later

theorem knows_bindingOf {module : ModuleId} {ns : Namespace} {name : String} :
    Run True (bindingOf module ns name) s log fun _ _ _ => s.tree.Known module := by
  simp only [bindingOf, lift, Run.bind_iff, Run.get_iff, Run.lift_iff, Run.pure_iff]
  exact Yields.true_iff.mpr fun m got => ModuleTree.known_of_find? (ModuleTree.find?_of_get got)

/-- What is bound now is found later, too, unless a glob has brought it in. -/
theorem mirrors_bound {asker' : Asker n} {module : ModuleId} {ns : Namespace} {name : String}
    {binding : Binding} {e : ImportState n} (known : e.tree.Known module)
    (bound : e.tree.bindingAt? module ns name = some binding) :
    Mirrors (explicit imports asker' module ns name) e (.ok (some binding)) := by
  by_cases broughtIn : BroughtIn imports e.defs module binding
  · exact .inl (explicit_stops known asker' bound broughtIn)
  · exact .inr (explicit_reads_some known asker' bound broughtIn)

/-- What is bound in the end is the answer, now and by a plain lookup later. -/
theorem traces_answer {asker' : Asker n} {module : ModuleId} (ns : Namespace) {name : String}
    {cycle : Bool} (goes : Goes labels imports start asker.opened s log s' log')
    (settled : cycle = false → Settled imports s' asker.index module name)
    (errors : cycle = true → hasErrors s'.diagnostics = true) :
    Tries True (do
      match ← (bindingOf module ns name : Importing n (Option Binding)) with
      | some binding => return some binding
      | none => if cycle then throw .cycle else return none : Attempt n (Option Binding)) s' log'
      fun r s'' log'' => Ends labels imports start asker.index asker.opened
        (explicit imports asker' module ns name) (Answered imports asker.index module ns name)
        s log r s'' log'' := by
  simp only [Tries.bind_iff, Tries.liftM_iff]
  apply (reads_bindingOf.and knows_bindingOf).mono
  rintro found _ _ ⟨⟨rfl, bound, rfl⟩, known⟩
  have knownLater {e : ImportState n} (beside : Beside imports asker.index s' e) :
      e.tree.Known module := (goes.course.inOrder.beside beside).tree.known_iff.mpr known
  cases found with
  | some binding =>
    refine ⟨goes.steps, goes.notes, goes.course, fun e beside => ?_, by simp, ?_⟩
    · have later := (goes.course.inOrder.beside beside).tree_keeps.bound bound.symm
      exact mirrors_bound (knownLater beside) later
    · rintro _ ⟨⟩
      exact ⟨bound.symm, by simp⟩
  | none =>
    cases cycle with
    | true =>
      exact ⟨goes.steps, goes.notes, goes.course, fun _ _ no => absurd rfl no,
        fun _ => errors rfl, by simp⟩
    | false =>
      have settled := settled rfl
      refine ⟨goes.steps, goes.notes, goes.course, fun e beside => ?_, by rintro ⟨⟩, ?_⟩
      · cases later : e.tree.bindingAt? module ns name with
        | none => exact .inr (explicit_reads_none (knownLater beside) asker' later)
        | some binding =>
          -- only a glob can have bound it since
          have broughtIn := beside.broughtIn goes.course.inOrder settled bound.symm later
          exact .inl (explicit_stops (knownLater beside) asker' later broughtIn)
      · rintro _ ⟨⟩
        exact ⟨bound.symm, fun _ => settled⟩

/-- One more level of nesting. -/
theorem Traced.step (traced : Traced labels imports start lookup) :
    Traced labels imports start (step imports lookup) := by
  intro asker asker' module ns name s course log
  rw [Lookup.step]
  simp only [Tries.bind_iff, Tries.liftM_iff, run_note_iff]
  apply (reads_bindingOf.and knows_bindingOf).mono
  rintro found _ _ ⟨⟨rfl, bound, rfl⟩, known⟩
  have noted : Goes labels imports start asker.opened s log s (log.note
      (.importing ⟨asker.opened, asker.searched, .lookUp asker.index module ns name, s⟩)) :=
    .noted course
  cases found with
  | some binding =>
    refine ⟨.refl s, noted.notes, course, fun e beside => ?_, by simp, ?_⟩
    · have later := course.inOrder.beside beside
      exact mirrors_bound (later.tree.known_iff.mpr known) (later.tree_keeps.bound bound.symm)
    · rintro _ ⟨⟩
      exact ⟨bound.symm, by simp⟩
  | none =>
    have single : ∀ i ∈ imports.binders module name, (imports.get i).isGlob = false :=
      fun i mem => single_of_slot? (Imports.mem_binders.mp mem)
    simp only [Tries.bind_iff, Tries.liftM_iff]
    apply (traced.awaitImports _ single course).mono
    rintro cycle s₁ log₁ ⟨goes, finished, errors⟩
    have settled : cycle = false → Settled imports s₁ asker.index module name :=
      fun noCycle j slot ne => finished noCycle j (Imports.mem_binders.mpr slot) ne
    split
    · next asks =>
      simp only [Bool.and_eq_true, Bool.not_eq_true', List.contains_eq_mem, decide_eq_false_iff_not]
        at asks
      obtain ⟨noCycle, notBinder⟩ := asks
      have all : AllSettled imports s₁ module name := by
        intro j slot
        have mem := Imports.mem_binders.mpr slot
        refine finished noCycle j mem ?_
        rintro rfl
        exact notBinder mem
      rw [Tries.bind_iff, Tries.liftM_iff]
      apply (traced.askGlobs ns all goes.course).mono
      intro _ s₂ log₂ asked
      exact traces_answer ns ((noted.trans goes).trans asked)
        (fun noCycle => asked.steps.settled (settled noCycle))
        fun cycle => asked.steps.hasErrors (errors cycle)
    · exact traces_answer ns (noted.trans goes) settled errors

theorem traced_upTo (depth : Nat) : Traced labels imports start (upTo imports depth) := by
  induction depth with
  | zero =>
    intro asker asker' module ns name s course log
    trivial
  | succ depth ih => exact ih.step

theorem traced_full : Traced labels imports start (full imports) := traced_upTo _

end Lookup

/-! ## The whole phase -/

namespace Importing

open Lookup

theorem run_resolvePending_goes (course : Course labels imports start [] s) (i : Fin n) :
    Run True (resolvePending imports i) s log fun _ s' log' =>
      Goes labels imports start [] s log s' log' ∧
        ((imports.get i).isGlob = false → s'.Finished i) := by
  simp only [resolvePending, run_status_iff, Run.bind_iff]
  split
  · next opens =>
    simp only [Bool.and_eq_true, Bool.not_eq_true', beq_iff_eq] at opens
    obtain ⟨single, pending⟩ := opens
    exact (traced_full.resolveSingle single course pending).mono
      fun _ _ _ ended => ⟨ended.1, fun _ => ended.2⟩
  · next other =>
    refine ⟨.refl course, fun single => course.finished fun pending => ?_⟩
    simp [single, pending] at other

/-- One after another, all single imports come to their end. -/
theorem run_resolveSingles_goes (directives : List (Fin n)) {s : ImportState n}
    {log : Log} (course : Course labels imports start [] s) :
    Run True (directives.forM (resolvePending imports)) s log fun _ s' log' =>
      Goes labels imports start [] s log s' log' ∧
        ∀ i ∈ directives, (imports.get i).isGlob = false → s'.Finished i := by
  induction directives generalizing s log with
  | nil => exact ⟨.refl course, List.forall_mem_nil _⟩
  | cons i others ih =>
    show Run True (resolvePending imports i >>= fun _ => others.forM (resolvePending imports))
      s log _
    rw [Run.bind_iff]
    apply (run_resolvePending_goes course i).mono
    rintro _ s₁ log₁ ⟨goes, first⟩
    apply (ih goes.course).mono
    rintro _ s₂ log₂ ⟨goes', later⟩
    refine ⟨goes.trans goes', fun j mem single => ?_⟩
    rcases List.mem_cons.mp mem with rfl | mem
    · exact goes'.steps.finished (first single)
    · exact later j mem single

/-- Outside of all directives, single imports have come to their end, and some globs know where
    they read from. -/
structure Spreading (labels : NodeId → String → Prop) (imports : Imports n)
    (start : ImportState n) (globs : List (Fin n × ModuleId)) (s : ImportState n) : Prop where
  course : Course labels imports start [] s
  singles : ∀ i, (imports.get i).isGlob = false → s.Finished i
  sources : ∀ glob ∈ globs,
    (imports.get glob.1).isGlob = true ∧ s.statusOf glob.1 = .done (some glob.2)

theorem Spreading.settled {globs : List (Fin n × ModuleId)}
    (h : Spreading labels imports start globs s) (module : ModuleId) (name : String) :
    AllSettled imports s module name :=
  fun i slot => h.singles i (single_of_slot? slot)

theorem Spreading.goes {globs : List (Fin n × ModuleId)}
    (h : Spreading labels imports start globs s)
    (goes : Goes labels imports start [] s log s' log') :
    Spreading labels imports start globs s' where
  course := goes.course
  singles i single := goes.steps.finished (h.singles i single)
  sources glob mem := by
    obtain ⟨isGlob, done⟩ := h.sources glob mem
    refine ⟨isGlob, ?_⟩
    rw [goes.steps.statusOf_of_finished (h.course.finished (by simp [done])), done]

/-- Every glob is asked, so all those are found that know where they read from. -/
theorem run_globSources_goes (directives : List (Fin n)) {s : ImportState n} {log : Log}
    (spreading : Spreading labels imports start [] s) :
    Run True (globSources imports directives) s log fun globs s' log' =>
      Goes labels imports start [] s log s' log' ∧ Spreading labels imports start globs s' ∧
        ∀ i ∈ directives, (imports.get i).isGlob = true → s'.Finished i ∧
          ∀ m, s'.statusOf i = .done (some m) → (i, m) ∈ globs := by
  induction directives generalizing s log with
  | nil => exact ⟨.refl spreading.course, spreading, List.forall_mem_nil _⟩
  | cons i others ih =>
    -- what this directive leads to is still so when the others have come to their end
    have rest (source : Option ModuleId) (s₁ : ImportState n) (log₁ : Log)
        (goes : Goes labels imports start [] s log s₁ log₁)
        (asked : (imports.get i).isGlob = true → s₁.statusOf i ≠ .pending)
        (found : ∀ m, source = some m ↔
          (imports.get i).isGlob = true ∧ s₁.statusOf i = .done (some m)) :
        Run True (do
          let rest ← globSources imports others
          return source.toList.map (i, ·) ++ rest) s₁ log₁ fun globs s' log' =>
          Goes labels imports start [] s log s' log' ∧ Spreading labels imports start globs s' ∧
            ∀ j ∈ i :: others, (imports.get j).isGlob = true → s'.Finished j ∧
              ∀ m, s'.statusOf j = .done (some m) → (j, m) ∈ globs := by
      simp only [Run.bind_iff, Run.pure_iff]
      apply (ih (spreading.goes goes)).mono
      rintro rest s₂ log₂ ⟨goes', spreading', complete⟩
      have first : Spreading labels imports start (source.toList.map (i, ·)) s₁ := by
        refine ⟨goes.course, (spreading.goes goes).singles, fun glob mem => ?_⟩
        obtain ⟨m, here, rfl⟩ := List.mem_map.mp mem
        exact (found m).mp (Option.mem_toList.mp here)
      refine ⟨goes.trans goes', ⟨spreading'.course, spreading'.singles, fun glob mem => ?_⟩,
        fun j mem isGlob => ?_⟩
      · rcases List.mem_append.mp mem with mem | mem
        · exact (first.goes goes').sources glob mem
        · exact spreading'.sources glob mem
      · rcases List.mem_cons.mp mem with rfl | mem
        · have finished := goes.course.finished (asked isGlob)
          refine ⟨goes'.steps.finished finished, fun m done => ?_⟩
          rw [goes'.steps.statusOf_of_finished finished] at done
          have here := (found m).mpr ⟨isGlob, done⟩
          exact List.mem_append_left _ (List.mem_map.mpr ⟨m, Option.mem_toList.mpr here, rfl⟩)
        · obtain ⟨finished, mem'⟩ := complete j mem isGlob
          exact ⟨finished, fun m done => List.mem_append_right _ (mem' m done)⟩
    rw [globSources]
    split
    · next isGlob =>
      rw [Run.bind_iff]
      apply (traced_full.globSource isGlob spreading.course).mono
      rintro source s₁ log₁ ⟨goes, asked, done⟩
      exact rest source s₁ log₁ goes (fun _ => asked) fun m => by simp [isGlob, done m]
    · next single =>
      exact rest none s log (.refl spreading.course) (fun isGlob => absurd isGlob single)
        (by simp [single])

section

variable {globs : List (Fin n × ModuleId)} {source : ModuleId}

theorem run_importNames_goes (glob : (i, source) ∈ globs) {ns : Namespace}
    (names : List (String × Binding)) {s : ImportState n} {log : Log}
    (spreading : Spreading labels imports start globs s)
    (there : ∀ name ∈ names, s.tree.bindingAt? source ns name.1 = some name.2) :
    Run True (importNames imports i source ns names) s log fun _ s' log' =>
      Goes labels imports start [] s log s' log' := by
  induction names generalizing s log with
  | nil => exact .refl spreading.course
  | cons first names ih =>
    obtain ⟨name, binding⟩ := first
    obtain ⟨isGlob, done⟩ := spreading.sources _ glob
    simp only [importNames, Run.bind_iff, Run.pure_iff]
    apply (run_globBind_goes isGlob done (there _ (List.mem_cons_self ..))
      (spreading.settled _ name) spreading.course).mono
    intro _ s₁ log₁ goes
    have keeps := (spreading.course.inOrder.path goes.steps).tree_keeps
    have there₁ := fun name mem => keeps.bound (there name (List.mem_cons_of_mem _ mem))
    exact (ih (spreading.goes goes) there₁).mono fun _ _ _ => goes.trans

theorem run_importNamespaces_goes (glob : (i, source) ∈ globs) (namespaces : List Namespace)
    {s : ImportState n} {log : Log} (spreading : Spreading labels imports start globs s) :
    Run True (importNamespaces imports i source namespaces) s log fun _ s' log' =>
      Goes labels imports start [] s log s' log' := by
  induction namespaces generalizing s log with
  | nil => exact .refl spreading.course
  | cons ns others ih =>
    simp only [importNamespaces, lift, Run.bind_iff, Run.get_iff, Run.lift_iff, Run.pure_iff]
    apply Yields.true_iff.mpr
    intro m got
    have there : ∀ name ∈ m.bindings ns, s.tree.bindingAt? source ns name.1 = some name.2 := by
      intro name mem
      rw [ModuleTree.bindingAt?_of_find? (ModuleTree.find?_of_get got)]
      exact Std.TreeMap.mem_toList_iff_getElem?_eq_some.mp mem
    apply (run_importNames_goes glob _ spreading there).mono
    intro _ s₁ log₁ goes
    exact (ih (spreading.goes goes)).mono fun _ _ _ => goes.trans

theorem run_applyGlobs_goes (some' : List (Fin n × ModuleId)) (subset : some' ⊆ globs)
    {s : ImportState n} {log : Log} (spreading : Spreading labels imports start globs s) :
    Run True (applyGlobs imports some') s log fun _ s' log' =>
      Goes labels imports start [] s log s' log' := by
  induction some' generalizing s log with
  | nil => exact .refl spreading.course
  | cons glob others ih =>
    obtain ⟨i, source⟩ := glob
    obtain ⟨mem, others_subset⟩ := List.cons_subset.mp subset
    have applied : Run True (applyGlob imports i source) s log fun _ s' log' =>
        Goes labels imports start [] s log s' log' := by
      unfold applyGlob
      split
      · exact .refl spreading.course
      · exact run_importNamespaces_goes mem _ spreading
    simp only [applyGlobs, Run.bind_iff, Run.pure_iff]
    apply applied.mono
    intro _ s₁ log₁ goes
    exact (ih others_subset (spreading.goes goes)).mono fun _ _ _ => goes.trans

theorem run_saturate_goes (rounds : Nat) {s : ImportState n} {log : Log}
    (spreading : Spreading labels imports start globs s) :
    Run True (saturate imports globs rounds) s log fun _ s' log' =>
      Goes labels imports start [] s log s' log' := by
  induction rounds generalizing s log with
  | zero => exact .refl spreading.course
  | succ rounds ih =>
    rw [saturate, Run.bind_iff]
    apply (run_applyGlobs_goes globs (List.Subset.refl _) spreading).mono
    intro more s₁ log₁ goes
    split
    · exact (ih (spreading.goes goes)).mono fun _ _ _ => goes.trans
    · exact goes

end

/-- In the end no directive is still to be resolved. -/
theorem run_allDirectives_goes (course : Course labels imports start [] s) (log : Log) :
    Run True (allDirectives imports) s log fun _ s' log' =>
      Goes labels imports start [] s log s' log' ∧ ∀ i, s'.Finished i := by
  simp only [allDirectives, Run.bind_iff, Run.get_iff, Run.emit_iff]
  apply (run_resolveSingles_goes _ course).mono
  rintro _ s₁ log₁ ⟨goes, finished⟩
  have spreading : Spreading labels imports start [] s₁ :=
    ⟨goes.course, fun i => finished i (List.mem_finRange i), List.forall_mem_nil _⟩
  apply (run_globSources_goes _ spreading).mono
  rintro globs s₂ log₂ ⟨goes', spreading', asked⟩
  apply (run_saturate_goes _ spreading').mono
  intro _ s₃ log₃ goes''
  refine ⟨((goes.trans goes').trans goes'').emits _, fun i => goes''.steps.finished ?_⟩
  by_cases isGlob : (imports.get i).isGlob = true
  · exact (asked i (List.mem_finRange i) isGlob).1
  · exact spreading'.singles i (by simpa using isGlob)

/-- Before the first of them is opened, no directive has come to anything. -/
theorem course_start {defs : Definitions} {tree : ModuleTree} (sound : Sound labels (defs, tree))
    (homes : ∀ i, tree.Known (imports.get i).module) :
    Course labels imports (.start n defs tree) [] (.start n defs tree) := by
  refine ⟨⟨sound, homes⟩, .refl _, fun i => ?_, fun i failed => ?_, fun i failed => ?_,
    fun i source _ done => ?_⟩
  · rw [ImportState.statusOf_start]
    simp
  · rw [ImportState.statusOf_start] at failed
    cases failed
  · rw [ImportState.statusOf_start] at failed
    simp at failed
  · rw [ImportState.statusOf_start] at done
    cases done

end Importing

/-! ## After the first pass -/

/-- What the import phase works from, for directives in order. -/
def Imports.ofList (directives : List Directive) (lintPrivateAccess : Bool) :
    Imports directives.length := ⟨⟨directives.toArray, List.size_toArray⟩, lintPrivateAccess⟩

theorem allDirectives_of_resolveImports {defs : Definitions} {tree : ModuleTree}
    {directives : List Directive} {lint : Bool} {s : ImportState directives.length}
    {log₀ log₁ : Log}
    (run : resolveImports defs tree lint directives log₀ = .ok s log₁) :
    Importing.allDirectives (Imports.ofList directives lint) (.start _ defs tree) log₀ =
      .ok ((), s) log₁ := by
  obtain ⟨⟨_, s'⟩, log₂, phase, last⟩ := Logged.bind_eq_ok.mp run
  cases last
  exact phase

/-- Over what the first pass makes of any program, and with its imports in any order. -/
theorem resolveImports_goes {program : Program} {built : DeclareState} {log log' : Log}
    (declared : declareProgram .empty .new program log = .ok built log')
    {directives : List Directive} (reordered : directives.Perm built.directives) {lint : Bool}
    {s : ImportState directives.length} {log₀ log₁ : Log}
    (run : resolveImports built.defs built.tree lint directives log₀ = .ok s log₁) :
    Importing.InOrder program.DeclaresFunc (Imports.ofList directives lint)
        (.start _ built.defs built.tree) ∧
      Importing.Goes program.DeclaresFunc (Imports.ofList directives lint)
        (.start _ built.defs built.tree) [] (.start _ built.defs built.tree) log₀ s log₁ := by
  obtain ⟨-, inOrder⟩ := declareProgram_passes declared
  have homes : ∀ i, built.tree.Known ((Imports.ofList directives lint).get i).module := by
    intro i
    have mem : (Imports.ofList directives lint).get i ∈ directives := List.getElem_mem i.isLt
    exact inOrder.directives _ (reordered.mem_iff.mp mem)
  have start := Importing.course_start inOrder.sound homes
  have phase := allDirectives_of_resolveImports run
  exact ⟨start.inOrder, ((Importing.run_allDirectives_goes start log₀).of_ok phase).1⟩

theorem finished_of_resolveImports {labels : NodeId → String → Prop} {defs : Definitions}
    {tree : ModuleTree} {directives : List Directive} {lint : Bool}
    {s : ImportState directives.length} {log₀ log₁ : Log}
    (inOrder : Importing.InOrder labels (Imports.ofList directives lint) (.start _ defs tree))
    (run : resolveImports defs tree lint directives log₀ = .ok s log₁)
    (i : Fin directives.length) : s.Finished i := by
  have start := Importing.course_start inOrder.sound inOrder.homes
  have phase := allDirectives_of_resolveImports run
  exact ((Importing.run_allDirectives_goes start log₀).of_ok phase).2 i

/-- The import phase goes through. -/
theorem exists_resolved {program : Program} {built : DeclareState} {log log' : Log}
    (declared : declareProgram .empty .new program log = .ok built log')
    {directives : List Directive} (reordered : directives.Perm built.directives) (lint : Bool)
    (log₀ : Log) :
    ∃ s log₁, resolveImports built.defs built.tree lint directives log₀ = .ok s log₁ := by
  obtain ⟨-, inOrder⟩ := declareProgram_passes declared
  have homes : ∀ d ∈ directives, built.tree.Known d.module :=
    fun d mem => inOrder.directives d (reordered.mem_iff.mp mem)
  obtain ⟨s, log₁, run, -⟩ := resolveImports_completes inOrder.sound.intact lint homes log₀
  exact ⟨s, log₁, run⟩

/-- What is checked of the imports of one program, in the order of the text. -/
theorem exists_resolved_of_check (program : Program)
    (check : ∀ built : DeclareState, ImportState built.directives.length → Bool)
    (passes : (declareProgram .empty .new program).passes .empty (fun built =>
      (resolveImports built.defs built.tree true built.directives).passes .empty (check built)) =
        true) :
    ∃ built log', declareProgram .empty .new program .empty = .ok built log' ∧
      ∃ s log₁, resolveImports built.defs built.tree true built.directives .empty = .ok s log₁ ∧
        check built s = true := by
  obtain ⟨built, log', declared, rest⟩ := Logged.exists_of_check passes
  obtain ⟨s, log₁, run, checked⟩ := Logged.exists_of_check rest
  exact ⟨built, log', declared, s, log₁, run, checked⟩

end NameResolution
