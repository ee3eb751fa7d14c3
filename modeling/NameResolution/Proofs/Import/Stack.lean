import NameResolution.Proofs.Import.Underway
import NameResolution.Proofs.Import.Writes

/-! # The stack of imports

    Every moment of the import phase is orderly. Each part is shown to note only
    such moments, from any state that the lists it is handed are up to date
    with, and to leave them so. -/

namespace NameResolution

variable {n : Nat} {imports : Imports n} {underway : Underway n} {s s' : ImportState n}
  {log log' : Log} {i : Fin n}

namespace Importing

/-- The lists that are handed on are up to date, and the journal has been kept in order. -/
structure Tracked (imports : Imports n) (underway : Underway n) (s : ImportState n) (log : Log) :
    Prop where
  upToDate : underway.UpToDate imports log.moments s
  kept : Kept imports s log

namespace Tracked

theorem since (h : Tracked imports underway s log) (since : Since imports s log s' log') :
    Tracked imports underway s' log' := ⟨h.upToDate.since since, since.kept⟩

/-- What is about to be done is noted. -/
theorem note (h : Tracked imports underway s log) {task : ImportTask n}
    (fits : task.Fits imports underway s) :
    Since imports s log s (log.note (.importing (underway.moment task s))) :=
  h.upToDate.note h.kept fits

/-- The log when a pending directive has been opened. -/
abbrev logOpening (underway : Underway n) (i : Fin n) (s : ImportState n) (log : Log) : Log :=
  log.note (.importing (underway.moment (.setStatus i .inProgress) s))

theorem opens (h : Tracked imports underway s log) (pending : s.statusOf i = .pending) :
    Tracked imports (underway.opening i s) (s.withStatus i .inProgress)
      (logOpening underway i s log) := by
  have advances : (s.statusOf i).Advances .inProgress := by
    rw [pending]
    exact .opens
  have noted : Since imports s log s (logOpening underway i s log) := h.note advances
  have mem : .importing (underway.moment (.setStatus i .inProgress) s) ∈
      (logOpening underway i s log).moments := by
    rw [h.kept.moments_note]
    exact List.mem_append_right _ (List.mem_singleton_self _)
  exact ⟨(h.upToDate.since noted).opening pending ⟨_, _, mem⟩, noted.kept.withStatus advances⟩

/-- The directive that was opened last is closed. -/
theorem closes (h : Tracked imports underway s log) (pending : s.statusOf i = .pending)
    (since : Since imports (s.withStatus i .inProgress) (logOpening underway i s log) s' log')
    {status : ImportStatus} (advances : ImportStatus.inProgress.Advances status) :
    Since imports s log (s'.withStatus i status)
      (log'.note (.importing ((underway.opening i s).moment (.setStatus i status) s'))) := by
  have inProgress : s'.statusOf i = .inProgress :=
    since.inProgress_iff.mpr (ImportState.statusOf_withStatus_self ..)
  have advances' : (s'.statusOf i).Advances status := inProgress ▸ advances
  have noted : Since imports s' log' s'
      (log'.note (.importing ((underway.opening i s).moment (.setStatus i status) s'))) :=
    ((h.opens pending).since since).note advances'
  obtain ⟨opened, closed⟩ := advances.closes
  have opening : log.moments ⊆ (logOpening underway i s log).moments := by
    rw [h.kept.moments_note]
    exact List.subset_append_left ..
  refine ⟨fun j => ?_, fun moment mem => noted.moments (since.moments (opening mem)),
    noted.kept.withStatus advances'⟩
  by_cases same : i = j
  · -- who was pending before the opening has come to an end with the closing
    subst same
    exact .inr ⟨pending, ImportState.finished_withStatus opened closed⟩
  · -- nobody else is touched
    have others := since.statuses j
    unfold ImportState.Finished at others ⊢
    rw [ImportState.statusOf_withStatus, if_neg same] at others
    rw [ImportState.statusOf_withStatus, if_neg same]
    exact others

/-- It is closed as failed. -/
theorem run_fails (h : Tracked imports underway s log) (pending : s.statusOf i = .pending)
    (since : Since imports (s.withStatus i .inProgress) (logOpening underway i s log) s' log')
    (failure : ImportFailure) :
    Run True (reportFailure (imports.get i) failure) s' log' fun status s'' log'' =>
      Since imports s log (s''.withStatus i status)
        (log''.note (.importing ((underway.opening i s).moment (.setStatus i status) s''))) := by
  apply run_reportFailure_eq.mono
  rintro status _ log' ⟨rfl, more, -, rfl, failed⟩
  have advances : ImportStatus.inProgress.Advances status := by
    rcases failed with ⟨rfl, -⟩ | ⟨rfl, -⟩
    · exact .fails
    · exact .failsForCycle
  have reported : Since imports s' log' { s' with diagnostics := s'.diagnostics ++ more } log' :=
    .of_eq since.kept rfl rfl
  exact h.closes pending (since.trans reported) advances

end Tracked

/-! ## Parts that only write -/

theorem written_of_bindsNoted {moment : Moment} (noted : BindsNoted s s' moment) :
    ∃ defs tree, moment = .written defs tree := by
  rcases noted with rfl | rfl
  · exact ⟨_, _, rfl⟩
  · exact ⟨_, _, rfl⟩

theorem run_globBind_since {source : ModuleId} {ns : Namespace} {name : String}
    {binding : Binding} (kept : Kept imports s log) :
    Run True (Lookup.globBind imports i source ns name binding) s log fun _ s' log' =>
      Since imports s log s' log' := by
  simp only [Lookup.globBind, Importing.lift, Run.bind_iff, Run.get_iff, Run.lift_iff]
  refine Yields.trivial_of_true fun m => ?_
  split
  · exact .refl kept
  · simp only [Run.bind_iff, Run.lift_iff]
    refine Yields.trivial_of_true fun inside => Yields.trivial_of_true fun isPub => ?_
    split
    · simp only [Run.bind_iff, Run.pure_iff]
      apply run_bindImport_noted.mono
      rintro _ s₁ log₁ ⟨outcome, noted⟩
      have same : s₁.statusOf = s.statusOf := by
        funext j
        rw [ImportState.statusOf, outcome.statuses, ImportState.statusOf]
      exact .writes kept same (noted.mono fun _ => written_of_bindsNoted)
    · exact .refl kept

end Importing

open Importing

/-- In the course of something an attempt notes orderly moments only. -/
def Attempt.Orderly {α : Type} (imports : Imports n) (underway : Underway n) (m : Attempt n α) :
    Prop :=
  ∀ s log, Tracked imports underway s log →
    Tries True m s log fun _ s' log' => Since imports s log s' log'

theorem Attempt.composes_orderly : Composes (Attempt.Orderly imports underway) where
  pure _ _ _ tracked := .refl tracked.kept
  throw _ _ _ tracked := .refl tracked.kept
  lift := by
    intro α result s log tracked
    simp only [Attempt.lift, Importing.lift, Tries.lift_iff, Run.lift_iff]
    exact Yields.trivial_of_true fun _ => .refl tracked.kept
  get _ _ tracked := .refl tracked.kept
  bind := by
    intro α β m f h h' s log tracked
    rw [Tries.bind_iff]
    apply (h s log tracked).mono
    intro r s₁ log₁ since
    cases r with
    | ok a => exact (h' a s₁ log₁ (tracked.since since)).mono fun _ _ _ => since.trans
    | error failure => exact since

namespace Lookup

/-- A lookup that notes orderly moments only, whoever asks, if the lists that are handed to it are
    up to date. -/
def Orderly (imports : Imports n) (lookup : Lookup n) : Prop :=
  ∀ openings asker module ns name, Attempt.Orderly imports ⟨openings, asker.opened, asker.searched⟩
    (lookup asker module ns name)

section

open Attempt

variable {lookup : Lookup n} (orderly : Orderly imports lookup) {asker : Asker n}
  {module : ModuleId} {ns : Namespace} {name : String}

/-! ## Single imports -/

theorem run_bindTargets_since {directive : Directive} {target : ImportTarget} {bare : Bool}
    (found : List (Namespace × ModuleId × Binding)) {s : ImportState n} {log : Log}
    (kept : Kept imports s log) :
    Run True (bindTargets imports directive target bare found) s log fun _ s' log' =>
      Since imports s log s' log' := by
  induction found generalizing s log with
  | nil => exact .refl kept
  | cons first others ih =>
    obtain ⟨ns, source, binding⟩ := first
    rw [bindTargets, Run.bind_iff]
    apply run_bindTarget_brings.mono
    rintro _ s₁ log₁ ⟨brings, -, noted⟩
    have first : Since imports s log s₁ log₁ :=
      .writes kept brings.statusOf (noted.mono fun _ => written_of_bindsNoted)
    exact (ih first.kept).mono fun _ _ _ => first.trans

include orderly

theorem Orderly.importSingle (underway : Underway n) (i : Fin n) : Attempt.Orderly imports underway
    (importSingle imports lookup ⟨i, underway.opened, underway.searched⟩) := by
  have lookups := orderly underway.openings ⟨i, underway.opened, underway.searched⟩
  cases hasTarget : (imports.get i).target? with
  | none =>
    rw [Lookup.importSingle, hasTarget]
    exact composes_orderly.throw (by simp)
  | some target =>
    rw [importSingle_eq hasTarget]
    refine composes_orderly.bind (composes_orderly.findSingle lookups _ _) fun found => ?_
    intro s log tracked
    rw [Tries.liftM_iff]
    exact run_bindTargets_since found tracked.kept

theorem Orderly.resolveSingle (tracked : Tracked imports underway s log)
    (pending : s.statusOf i = .pending) :
    Run True (resolveSingle imports lookup i underway.opened underway.searched) s log
      fun _ s' log' => Since imports s log s' log' := by
  simp only [Lookup.resolveSingle, Run.bind_iff, run_setStatus_iff, Tries.run_iff]
  apply (orderly.importSingle (underway.opening i s) i _ _ (tracked.opens pending)).mono
  intro r s₁ log₁ since
  cases r with
  | ok _ => exact tracked.closes pending since (.done none)
  | error failure =>
    simp only [Run.bind_iff, run_setStatus_iff]
    exact tracked.run_fails pending since failure

/-! ## Globs -/

/-- A glob that gives a source has found it. -/
theorem Orderly.globSource (isGlob : (imports.get i).isGlob = true)
    (tracked : Tracked imports underway s log) :
    Run True (globSource imports lookup i underway.opened underway.searched) s log
      fun found s' log' => Since imports s log s' log' ∧
        ∀ source, found = some source → s'.statusOf i = .done (some source) := by
  have asked : Since imports s log s
      (log.note (.importing (underway.moment (.findSource i) s))) := tracked.note isGlob
  simp only [Lookup.globSource, Run.bind_iff, run_note_iff, run_status_iff]
  split
  · next source done => exact ⟨asked, fun source eq => eq ▸ done⟩
  · exact ⟨asked, by simp⟩
  · exact ⟨asked, by simp⟩
  · exact ⟨asked, by simp⟩
  · next pending =>
    have tracked₁ := tracked.since asked
    have lookups := orderly (underway.opening i s).openings
      ⟨i, underway.opened ++ [i], underway.searched⟩
    simp only [Run.bind_iff, run_setStatus_iff, Tries.run_iff]
    apply (composes_orderly.globPath lookups imports _ _ (tracked₁.opens pending)).mono
    intro r s₁ log₁ since
    cases r with
    | ok source =>
      simp only [Run.bind_iff, run_setStatus_iff, Run.pure_iff]
      refine ⟨asked.trans (tracked₁.closes pending since (.done (some source))), ?_⟩
      rintro _ ⟨⟩
      exact ImportState.statusOf_withStatus_self ..
    | error failure =>
      simp only [Run.bind_iff, run_setStatus_iff, Run.pure_iff]
      exact (tracked₁.run_fails pending since failure).mono fun _ _ _ fails =>
        ⟨asked.trans fails, by simp⟩

theorem Orderly.askGlob {openings : List (Opening n)} (isGlob : (imports.get i).isGlob = true)
    (tracked : Tracked imports ⟨openings, asker.opened, asker.searched⟩ s log) :
    Run True (askGlob imports lookup asker module ns name i) s log fun _ s' log' =>
      Since imports s log s' log' := by
  simp only [Lookup.askGlob, Run.bind_iff]
  apply reads_bindingOf.mono
  rintro found _ log ⟨rfl, -, rfl⟩
  split
  · next asks =>
    simp only [Bool.and_eq_true, Bool.not_eq_true', List.contains_eq_mem, decide_eq_false_iff_not]
      at asks
    rw [Run.bind_iff]
    apply (orderly.globSource isGlob tracked).mono
    rintro found s₁ log₁ ⟨first, done⟩
    cases found with
    | none => exact first
    | some source =>
      dsimp only
      split
      · -- its source is asked in the course of one more search, since it has not been searched yet
        have tracked₁ := tracked.since first
        have searching : Tracked imports ⟨openings, asker.opened, asker.searched ++ [i]⟩ s₁ log₁ :=
          ⟨tracked₁.upToDate.searching isGlob (done source rfl) asks.2, tracked₁.kept⟩
        rw [Run.bind_iff, Tries.run_iff]
        apply (orderly openings ⟨i, asker.opened, asker.searched ++ [i]⟩ source ns name _ _
          searching).mono
        intro r s₂ log₂ second
        split
        · simp only [Run.bind_iff, Run.emit_iff, Run.pure_iff]
          have emitted (event : Event) : Since imports s₂ log₂ s₂ (log₂.push event) :=
            .of_eq second.kept rfl rfl
          exact (run_globBind_since (emitted _).kept).mono fun _ _ _ =>
            ((first.trans second).trans (emitted _)).trans
        · exact first.trans second
      · exact first
  · exact .refl tracked.kept

theorem Orderly.askGlobs {openings : List (Opening n)}
    (tracked : Tracked imports ⟨openings, asker.opened, asker.searched⟩ s log) :
    Run True (askGlobs imports lookup asker module ns name) s log fun _ s' log' =>
      Since imports s log s' log' := by
  apply Run.forM _ (.refl tracked.kept)
  intro i mem s₁ log₁ soFar
  exact (orderly.askGlob (Imports.mem_globsOf.mp mem).1 (tracked.since soFar)).mono
    fun _ _ _ => soFar.trans

/-! ## Names -/

theorem Orderly.awaitImport {openings : List (Opening n)}
    (tracked : Tracked imports ⟨openings, asker.opened, asker.searched⟩ s log) :
    Run True (awaitImport imports lookup asker i) s log fun _ s' log' =>
      Since imports s log s' log' := by
  rw [Lookup.awaitImport]
  split
  · exact .refl tracked.kept
  · simp only [run_status_iff, Run.bind_iff]
    split
    · next pending =>
      have resolved := orderly.resolveSingle tracked pending
      simp only [Run.bind_iff, run_status_iff, Run.pure_iff]
      exact resolved
    · next inProgress =>
      -- this is where a cycle is read off the stack
      have fits : (ImportTask.reportCycle i).Fits imports
          ⟨openings, asker.opened, asker.searched⟩ s := tracked.upToDate.leadsBack inProgress
      have noted := tracked.note fits
      simp only [reportCycle, report, Run.bind_iff, run_note_iff, Run.emit_iff, Run.modify_iff,
        Run.pure_iff]
      exact noted.trans (.of_eq noted.kept rfl rfl)
    · exact .refl tracked.kept
    · exact .refl tracked.kept
    · exact .refl tracked.kept

theorem Orderly.awaitImports {openings : List (Opening n)} (directives : List (Fin n))
    {s : ImportState n} {log : Log}
    (tracked : Tracked imports ⟨openings, asker.opened, asker.searched⟩ s log) :
    Run True (awaitImports imports lookup asker directives) s log fun _ s' log' =>
      Since imports s log s' log' := by
  induction directives generalizing s log with
  | nil => exact .refl tracked.kept
  | cons i others ih =>
    simp only [Lookup.awaitImports, Run.bind_iff, Run.pure_iff]
    apply (orderly.awaitImport tracked).mono
    intro _ s₁ log₁ first
    exact (ih (tracked.since first)).mono fun _ _ _ => first.trans

omit orderly in
/-- What is bound in the end is the answer. -/
theorem answer_since {cycle : Bool} (since : Since imports s log s' log') :
    Tries True (do
      match ← (bindingOf module ns name : Importing n (Option Binding)) with
      | some binding => return some binding
      | none => if cycle then throw .cycle else return none : Attempt n (Option Binding)) s' log'
      fun _ s'' log'' => Since imports s log s'' log'' := by
  simp only [Tries.bind_iff, Tries.liftM_iff]
  apply reads_bindingOf.mono
  rintro found _ _ ⟨rfl, -, rfl⟩
  cases found with
  | some binding => exact since
  | none =>
    cases cycle with
    | true => exact since
    | false => exact since

/-- One more level of nesting. -/
theorem Orderly.step : Orderly imports (step imports lookup) := by
  intro openings asker module ns name s log tracked
  rw [Lookup.step]
  simp only [Tries.bind_iff, Tries.liftM_iff, run_note_iff]
  have noted : Since imports s log s (log.note
      (.importing ⟨asker.opened, asker.searched, .lookUp asker.index module ns name, s⟩)) :=
    tracked.note trivial
  have tracked := tracked.since noted
  apply reads_bindingOf.mono
  rintro found _ _ ⟨rfl, -, rfl⟩
  cases found with
  | some binding => exact noted
  | none =>
    simp only [Tries.bind_iff, Tries.liftM_iff]
    apply (orderly.awaitImports _ tracked).mono
    intro cycle s₁ log₁ waited
    split
    · rw [Tries.bind_iff, Tries.liftM_iff]
      apply (orderly.askGlobs (tracked.since waited)).mono
      intro _ s₂ log₂ asked
      exact answer_since ((noted.trans waited).trans asked)
    · exact answer_since (noted.trans waited)

end

theorem orderly_upTo (depth : Nat) : Orderly imports (upTo imports depth) := by
  induction depth with
  | zero => exact fun openings asker _ _ _ => Attempt.composes_orderly.lift
  | succ depth ih => exact ih.step

theorem orderly_full : Orderly imports (full imports) := orderly_upTo _

end Lookup

/-! ## The whole phase -/

namespace Importing

open Lookup

theorem run_resolvePending_since (tracked : Tracked imports .nothing s log) (i : Fin n) :
    Run True (resolvePending imports i) s log fun _ s' log' => Since imports s log s' log' := by
  simp only [resolvePending, run_status_iff, Run.bind_iff]
  split
  · next opens =>
    simp only [Bool.and_eq_true, Bool.not_eq_true', beq_iff_eq] at opens
    -- stated first, as the goal does not show that its empty lists are those of `nothing`
    have resolved := orderly_full.resolveSingle tracked opens.2
    exact resolved
  · exact .refl tracked.kept

theorem run_globSources_since (directives : List (Fin n)) {s : ImportState n} {log : Log}
    (tracked : Tracked imports .nothing s log) :
    Run True (globSources imports directives) s log fun _ s' log' =>
      Since imports s log s' log' := by
  induction directives generalizing s log with
  | nil => exact .refl tracked.kept
  | cons i others ih =>
    rw [globSources]
    split
    · next isGlob =>
      simp only [Run.bind_iff, Run.pure_iff]
      apply (orderly_full.globSource isGlob tracked).mono
      rintro _ s₁ log₁ ⟨first, -⟩
      exact (ih (tracked.since first)).mono fun _ _ _ => first.trans
    · simp only [Run.bind_iff, Run.pure_iff]
      exact ih tracked

theorem run_allDirectives_since (tracked : Tracked imports .nothing s log) :
    Run True (allDirectives imports) s log fun _ s' log' => Since imports s log s' log' := by
  simp only [allDirectives, Run.bind_iff, Run.get_iff, Run.emit_iff]
  have singles : Run True ((List.finRange n).forM (resolvePending imports)) s log
      fun _ s' log' => Since imports s log s' log' :=
    Run.forM _ (.refl tracked.kept) fun i _ s₁ log₁ soFar =>
      (run_resolvePending_since (tracked.since soFar) i).mono fun _ _ _ => soFar.trans
  apply singles.mono
  intro _ s₁ log₁ first
  apply (run_globSources_since _ (tracked.since first)).mono
  intro globs s₂ log₂ second
  have rounds : Run True (saturate imports globs (roundBound s₂.tree)) s₂ log₂ fun _ s' log' =>
      Since imports s log s' log' := by
    refine run_saturate_of ?_ globs _ (first.trans second)
    exact fun _ _ _ _ _ _ _ soFar => (run_globBind_since soFar.kept).mono fun _ _ _ => soFar.trans
  exact rounds.mono fun _ _ _ since => since.trans (.of_eq since.kept rfl rfl)

/-- Before the first import is opened nobody is in progress, and nothing has been noted. -/
theorem tracked_start (defs : Definitions) (tree : ModuleTree) (events : Array Event) :
    Tracked imports .nothing (.start n defs tree) ⟨events, some []⟩ := by
  refine ⟨.nothing fun i => by simp [ImportState.statusOf_start], rfl, fun before => ?_, ?_⟩
  · simp [Log.moments] at before
  · simp [Log.moments, ImportState.Follows]

end Importing

/-- Over what the first pass makes of any program, and with its imports in any order, the import
    phase goes through, and each moment that it notes is orderly: at every lookup, every question
    for the source of a glob, every report of a cycle and every change of a status, the stack and
    the list of searched globs are up to date, what is about to be done fits, and every status has
    come of those before. So have the statuses in the end. -/
theorem stack_holds_imports_in_progress {program : Program} {built : DeclareState}
    {log log' : Log}
    (declared : declareProgram .empty .new program log = .ok built log')
    {directives : List Directive} (reordered : directives.Perm built.directives) (lint : Bool)
    (events : Array Event) :
    ∃ s events' noted, (resolveImports built.defs built.tree lint directives).Recounts events
        (.ok s) events' noted ∧
      (∀ earlier moment, earlier ++ [moment] <+: noted →
        moment.Orderly (.ofList directives lint) earlier) ∧
      s.Follows noted := by
  obtain ⟨outcome, events', noted, _, recounts, -⟩ :=
    resolveImports_recounts built.defs built.tree lint directives events
  -- a journal that is empty in the beginning holds in the end just what is recounted
  obtain ⟨s, log₁, run⟩ := exists_resolved declared reordered lint ⟨events, some []⟩
  obtain ⟨rfl, rfl⟩ := recounts.of_run run
  have phase := allDirectives_of_resolveImports run
  have kept := ((Importing.run_allDirectives_since
    (Importing.tracked_start built.defs built.tree events)).of_ok phase).kept
  exact ⟨s, events', noted, recounts, fun _ _ before => kept.orderly before, kept.follows⟩

/-- Three imports that need each other, and one in front that needs the first of them:

        use a::x;
        mod a { pub use ::b::y as x; }
        mod b { pub use ::c::z as y; }
        mod c { pub use ::a::x as z; } -/
def entersRing : Program :=
  ⟨⟨0⟩, ⟨0, 12⟩,
    [.useDecl ⟨⟨1⟩, false, ⟨1, 1⟩⟩
      (.path ⟨2⟩ ⟨2, 1⟩ ⟨false, [⟨.name "a", ⟨2, 1⟩⟩, ⟨.name "x", ⟨2, 1⟩⟩]⟩ none),
    .mod ⟨⟨3⟩, true, ⟨3, 1⟩⟩ ⟨"a", ⟨3, 1⟩⟩
      [.useDecl ⟨⟨4⟩, true, ⟨4, 1⟩⟩
        (.path ⟨5⟩ ⟨5, 1⟩ ⟨true, [⟨.name "b", ⟨5, 1⟩⟩, ⟨.name "y", ⟨5, 1⟩⟩]⟩
          (some ⟨"x", ⟨5, 2⟩⟩))],
    .mod ⟨⟨6⟩, true, ⟨6, 1⟩⟩ ⟨"b", ⟨6, 1⟩⟩
      [.useDecl ⟨⟨7⟩, true, ⟨7, 1⟩⟩
        (.path ⟨8⟩ ⟨8, 1⟩ ⟨true, [⟨.name "c", ⟨8, 1⟩⟩, ⟨.name "z", ⟨8, 1⟩⟩]⟩
          (some ⟨"y", ⟨8, 2⟩⟩))],
    .mod ⟨⟨9⟩, true, ⟨9, 1⟩⟩ ⟨"c", ⟨9, 1⟩⟩
      [.useDecl ⟨⟨10⟩, true, ⟨10, 1⟩⟩
        (.path ⟨11⟩ ⟨11, 1⟩ ⟨true, [⟨.name "a", ⟨11, 1⟩⟩, ⟨.name "x", ⟨11, 1⟩⟩]⟩
          (some ⟨"z", ⟨11, 2⟩⟩))]]⟩

/-- Four directives are in progress, and the second of them is met again. -/
def Moment.meetsSecondAgain : Moment → Bool
  | .written .. => false
  | .importing moment =>
    moment.opened.map Fin.val == [0, 1, 2, 3] &&
      match moment.task with
      | .reportCycle i => i.val == 1
      | _ => false

/-- There is a moment when the second of four is met again. The one in front is not part of the
    chain. -/
theorem stack_holds_imports_in_progress_in_ring :
    ∃ built log', declareProgram .empty .new entersRing .empty = .ok built log' ∧
      ∃ s events' noted, (resolveImports built.defs built.tree true built.directives).Recounts #[]
          (.ok s) events' noted ∧
        noted.any Moment.meetsSecondAgain = true ∧
        .importCycle "x" ⟨5, 1⟩ "cycle: `x` -> `y` -> `z` -> `x`" ∈ s.diagnostics ∧
        (∀ earlier moment, earlier ++ [moment] <+: noted →
          moment.Orderly (.ofList built.directives true) earlier) ∧
        s.Follows noted := by
  have checked : ∃ built log', declareProgram .empty .new entersRing .empty = .ok built log' ∧
      (resolveImports built.defs built.tree true built.directives).passesNoting (fun s noted =>
        noted.any Moment.meetsSecondAgain && s.diagnostics.contains
          (.importCycle "x" ⟨5, 1⟩ "cycle: `x` -> `y` -> `z` -> `x`")) = true :=
    Logged.exists_of_check (by decide +kernel)
  obtain ⟨built, log', declared, passes⟩ := checked
  obtain ⟨s, events', noted, recounts, orderly⟩ :=
    stack_holds_imports_in_progress declared (.refl _) true #[]
  obtain ⟨_, same, both⟩ := recounts.of_check _ passes
  cases same
  rw [Bool.and_eq_true] at both
  exact ⟨built, log', declared, s, events', noted, recounts, both.1,
    List.contains_iff_mem.mp both.2, orderly⟩

end NameResolution
