import NameResolution.Proofs.Import.Steps
import Mathlib.Data.Fintype.Card
import Mathlib.Data.List.Nodup

/-! # The import phase goes through

    A nested lookup either has one more directive opened or searches one more
    glob, and neither comes up twice. So lookups are never nested too deep, and
    the import phase ends without a fault, with tables in order. -/

namespace NameResolution

variable {n : Nat} {imports : Imports n} {s s' : ImportState n} {log : Log}

@[simp] theorem Attempt.tries_lift_iff {α : Type} {onFault : Prop} {result : Except Fault α}
    {post : Except ImportFailure α → ImportState n → Log → Prop} :
    Tries onFault (Attempt.lift result) s log post ↔
      Yields onFault result fun a => post (.ok a) s log := by
  simp only [Attempt.lift, Importing.lift, Tries.lift_iff, Run.lift_iff]

/-! ## Steps that may lead nowhere -/

namespace Importing

/-- From this state an attempt leaves the tables in order. What it finds is so from then on. -/
def Leads {α : Type} (imports : Imports n) (s : ImportState n) (m : Attempt n α)
    (found : α → ImportState n → Prop) : Prop :=
  ∀ log, Tries False m s log fun r s' _ => Progress imports s s' ∧ ∀ a, r = .ok a → found a s'

namespace Leads

variable {α β : Type} {found : α → ImportState n → Prop} {found' : β → ImportState n → Prop}

theorem pure {a : α} (ready : Ready imports s) (h : found a s) :
    Leads imports s (Pure.pure a) found :=
  fun _ => ⟨.refl ready, fun _ eq => Except.ok.inj eq ▸ h⟩

theorem throw {failure : ImportFailure} (ready : Ready imports s) :
    Leads imports s (MonadExcept.throw failure) found :=
  fun _ => ⟨.refl ready, by simp⟩

theorem bind {m : Attempt n α} {f : α → Attempt n β} (h : Leads imports s m found)
    (h' : ∀ a s', Progress imports s s' → found a s' → Leads imports s' (f a) found') :
    Leads imports s (m >>= f) found' := by
  intro log
  rw [Tries.bind_iff]
  apply (h log).mono
  intro r s₁ log₁ ended
  obtain ⟨progress, holds⟩ := ended
  cases r with
  | error failure => exact ⟨progress, by simp⟩
  | ok a =>
    apply (h' a s₁ progress (holds a rfl) log₁).mono
    intro r s₂ log₂ ended
    obtain ⟨later, holds'⟩ := ended
    exact ⟨progress.trans later, holds'⟩

/-- Reading the state. -/
theorem bind_get {f : ImportState n → Attempt n β} (h : Leads imports s (f s) found') :
    Leads imports s (get >>= f) found' := by
  intro log
  rw [Tries.bind_iff, Tries.get_iff]
  exact h log

/-- Reading a table. -/
theorem bind_lift {result : Except Fault α} {post : α → Prop} {f : α → Attempt n β}
    (h : Yields False result post) (h' : ∀ a, post a → Leads imports s (f a) found') :
    Leads imports s (Attempt.lift result >>= f) found' := by
  intro log
  rw [Tries.bind_iff, Attempt.tries_lift_iff]
  exact h.mono fun a holds => h' a holds log

theorem lift {result : Except Fault α} {post : α → Prop} (ready : Ready imports s)
    (h : Yields False result post) (h' : ∀ a, post a → found a s) :
    Leads imports s (Attempt.lift result) found := by
  intro log
  rw [Attempt.tries_lift_iff]
  exact h.mono fun a holds => ⟨.refl ready, fun _ eq => Except.ok.inj eq ▸ h' a holds⟩

end Leads

/-! ## Asking -/

/-- In the course of some directives that are open and some globs that are searched, none of them
    twice. -/
structure InCourse (opened searched : List (Fin n)) (s : ImportState n) : Prop where
  inProgress : ∀ i ∈ opened, s.statusOf i = .inProgress
  opened_nodup : opened.Nodup
  searched_nodup : searched.Nodup

theorem InCourse.progress {opened searched : List (Fin n)} (course : InCourse opened searched s)
    (progress : Progress imports s s') : InCourse opened searched s' := by
  refine ⟨fun i mem => ?_, course.opened_nodup, course.searched_nodup⟩
  have inProgress := course.inProgress i mem
  rw [progress.statuses (by rw [inProgress]; decide), inProgress]

/-- How deep somebody asks. -/
def depth (asker : Asker n) : Nat := asker.opened.length + asker.searched.length

theorem InCourse.depth_le {asker : Asker n} (course : InCourse asker.opened asker.searched s) :
    depth asker ≤ 2 * n := by
  have opened := course.opened_nodup.length_le_card
  have searched := course.searched_nodup.length_le_card
  rw [Fintype.card_fin] at opened searched
  unfold depth
  omega

end Importing

namespace Lookup

open Importing

/-- What has been found is there. -/
def Finds (ns : Namespace) (found : Option Binding) (s : ImportState n) : Prop :=
  ∀ binding, found = some binding → binding.Good s.defs ns

/-- A way to look names up that gives an answer to whoever asks at least so deep. -/
def Answers (imports : Imports n) (lookup : Lookup n) (least : Nat) : Prop :=
  ∀ {asker : Asker n} {module : ModuleId} (ns : Namespace) (name : String) {s : ImportState n},
    Ready imports s → InCourse asker.opened asker.searched s → least ≤ depth asker →
      s.tree.Known module → Leads imports s (lookup asker module ns name) (Finds ns)

/-! ## Paths -/

/-- A binding that is there, in a module that is there. -/
def FindsIn (ns : Namespace) (found : Option (ModuleId × Binding)) (s : ImportState n) : Prop :=
  ∀ p, found = some p → s.tree.Known p.1 ∧ p.2.Good s.defs ns

/-- A module that is there. -/
def Reaches (module : ModuleId) (s : ImportState n) : Prop := s.tree.Known module

theorem leads_enclosingMod (ready : Ready imports s) {module : ModuleId}
    (known : s.tree.Known module) : Leads imports s (enclosingMod module) Reaches := by
  refine .bind_get (.lift ready (ready.intact.enclosingMod known) ?_)
  rintro id ⟨m, owner, found, _⟩
  exact ModuleTree.known_of_find? found

theorem leads_outerMod (ready : Ready imports s) {module : ModuleId}
    (known : s.tree.Known module) : Leads imports s (outerMod module) Reaches := by
  refine .bind (leads_enclosingMod ready known) ?_
  intro current s₁ progress reached
  have reached : s₁.tree.Known current := reached
  refine .bind_get (.bind_lift reached.get fun m found => ?_)
  split
  · next parent inside =>
    exact leads_enclosingMod progress.ready
      (progress.ready.intact.validTree.known_parent found inside)
  · exact .throw progress.ready

theorem yields_placeText (intact : Intact s.defs s.tree) {module : ModuleId}
    (known : s.tree.Known module) :
    Yields False (placeText s.tree s.defs module) fun _ => True := by
  rw [placeText, Yields.bind_iff]
  apply known.get.mono
  intro m found
  split
  · next id owned =>
    split
    · trivial
    · rw [Yields.bind_iff]
      exact (intact.owners found owned).get.mono fun _ _ => trivial
  · trivial

/-- Among types there are no sets of functions. -/
theorem yields_definitionOf (ready : Ready imports s) {binding : Binding}
    (good : binding.Good s.defs .type) :
    Yields False (definitionOf s.defs binding) s.defs.Known := by
  cases binding with
  | definition id => exact good
  | imported id =>
    obtain ⟨final, resolved, known⟩ := ready.intact.validDefs.resolveAlias good
    rw [definitionOf, resolved]
    exact known
  | overloads id => cases good.2

theorem leads_moduleOf (ready : Ready imports s) {module : ModuleId} (known : s.tree.Known module)
    (name : String) {found : Option Binding} (good : Finds .type found s) :
    Leads imports s (moduleOf module name found) Reaches := by
  refine .bind_get ?_
  split
  · exact .bind_lift (yields_placeText ready.intact known) fun _ _ => .throw ready
  · next binding =>
    refine .bind_lift (yields_definitionOf ready (good binding rfl)) ?_
    intro id id_known
    split
    · next next held => exact .pure ready (ready.intact.modules held)
    · exact .bind_lift id_known.get fun _ _ => .throw ready

section

variable {lookup : Lookup n} {least : Nat} {asker : Asker n}

theorem Answers.inAnyOf (answers : Answers imports lookup least) (deep : least ≤ depth asker)
    (ns : Namespace) (name : String) (modules : List ModuleId) {s : ImportState n}
    (ready : Ready imports s) (course : InCourse asker.opened asker.searched s)
    (known : ∀ module ∈ modules, s.tree.Known module) :
    Leads imports s (inAnyOf lookup asker ns name modules) (FindsIn ns) := by
  -- each lookup moves the state on, so the induction is over all states that follow
  induction modules generalizing s with
  | nil => exact .pure ready (by rintro _ ⟨⟩)
  | cons module modules ih =>
    have here := known module (List.mem_cons_self ..)
    rw [Lookup.inAnyOf]
    refine .bind (answers ns name ready course deep here) ?_
    intro found s₁ progress good
    split
    · next binding =>
      refine .pure progress.ready ?_
      rintro _ ⟨⟩
      exact ⟨progress.known here, good binding rfl⟩
    · exact ih progress.ready (course.progress progress) fun module mem =>
        progress.known (known module (List.mem_cons_of_mem _ mem))

theorem Answers.outward (answers : Answers imports lookup least) (deep : least ≤ depth asker)
    (ns : Namespace) (name : String) (ready : Ready imports s)
    (course : InCourse asker.opened asker.searched s) {module : ModuleId}
    (known : s.tree.Known module) :
    Leads imports s (outward lookup asker module ns name) (FindsIn ns) := by
  obtain ⟨m, found⟩ := known.find?
  refine .bind_get (.bind_lift (ready.intact.validTree.ancestors found) fun around there => ?_)
  apply answers.inAnyOf deep ns name _ ready course
  intro id mem
  obtain ⟨m', mem', rfl⟩ := List.mem_map.mp mem
  exact ModuleTree.known_of_find? (there.2 m' mem')

theorem Answers.followModules (answers : Answers imports lookup least)
    (deep : least ≤ depth asker) (segments : List Segment) (position : PathPosition)
    {module : ModuleId} {s : ImportState n} (ready : Ready imports s)
    (course : InCourse asker.opened asker.searched s) (known : s.tree.Known module) :
    Leads imports s (followModules lookup asker position module segments) Reaches := by
  -- every segment leads from one module that is there to another one, in a later state
  induction segments generalizing position module s with
  | nil =>
    unfold Lookup.followModules
    exact .pure ready known
  | cons segment segments ih =>
    have goOn (position : PathPosition) (next : ModuleId) (s' : ImportState n)
        (progress : Progress imports s s') (reached : Reaches next s') :
        Leads imports s' (Lookup.followModules lookup asker position next segments) Reaches :=
      ih position progress.ready (course.progress progress) reached
    unfold Lookup.followModules
    split
    · exact .bind (leads_enclosingMod ready known) (goOn .inside)
    · exact .bind (leads_outerMod ready known) (goOn .climbing)
    · exact .bind (leads_outerMod ready known) (goOn .climbing)
    · next name _ =>
      refine .bind (answers.outward deep .type name ready course known) ?_
      intro found s₁ progress finds
      have good : Finds .type (found.map (·.2)) s₁ := by
        intro binding eq
        obtain ⟨p, here, rfl⟩ := Option.map_eq_some_iff.mp eq
        exact (finds p here).2
      exact .bind (leads_moduleOf progress.ready (progress.known known) name good)
        fun next s₂ later => goOn .inside next s₂ (progress.trans later)
    · next name _ _ =>
      refine .bind (answers .type name ready course deep known) ?_
      intro found s₁ progress good
      exact .bind (leads_moduleOf progress.ready (progress.known known) name good)
        fun next s₂ later => goOn .inside next s₂ (progress.trans later)
    · exact .throw ready

theorem Answers.modulePath (answers : Answers imports lookup least) (deep : least ≤ depth asker)
    {home : ModuleId} (global : Bool) (segments : List Segment) (ready : Ready imports s)
    (course : InCourse asker.opened asker.searched s) (known : s.tree.Known home) :
    Leads imports s (modulePath lookup asker home global segments) Reaches := by
  unfold Lookup.modulePath
  split
  · exact answers.followModules deep _ _ ready course ready.intact.validTree.known_root
  · exact answers.followModules deep _ _ ready course known

/-- Everything that a single import has found is there. -/
def FindsAll (found : List (Namespace × ModuleId × Binding)) (s : ImportState n) : Prop :=
  ∀ p ∈ found, s.tree.Known p.2.1 ∧ p.2.2.Good s.defs p.1

theorem FindsAll.progress {found : List (Namespace × ModuleId × Binding)}
    (h : FindsAll found s) (progress : Progress imports s s') : FindsAll found s' :=
  fun p mem => ⟨progress.known (h p mem).1, progress.good (h p mem).2⟩

theorem Answers.findTargets (answers : Answers imports lookup least) (deep : least ≤ depth asker)
    {module : ModuleId} (bare : Bool) (name : String) (namespaces : List Namespace)
    {s : ImportState n} (ready : Ready imports s) (course : InCourse asker.opened asker.searched s)
    (known : s.tree.Known module) :
    Leads imports s (findTargets lookup asker module bare name namespaces) FindsAll := by
  induction namespaces generalizing s with
  | nil => exact .pure ready (List.forall_mem_nil _)
  | cons ns others ih =>
    -- whatever the first namespace gives, the others are searched after it
    have rest (found : Option (ModuleId × Binding)) (s₁ : ImportState n)
        (progress : Progress imports s s₁) (finds : FindsIn ns found s₁) :
        Leads imports s₁ (do
          let rest ← Lookup.findTargets lookup asker module bare name others
          return found.toList.map (ns, ·) ++ rest) FindsAll := by
      refine .bind (ih progress.ready (course.progress progress) (progress.known known))
        fun rest s₂ later all => .pure later.ready ?_
      intro p mem
      rcases List.mem_append.mp mem with mem | mem
      · obtain ⟨first, here, rfl⟩ := List.mem_map.mp mem
        obtain ⟨there, good⟩ := finds first (Option.mem_toList.mp here)
        exact ⟨later.known there, later.good good⟩
      · exact all p mem
    rw [Lookup.findTargets]
    split
    · exact .bind (answers.outward deep ns name ready course known) rest
    · refine .bind (answers ns name ready course deep known) ?_
      intro found s₁ progress good
      refine .bind (.pure progress.ready fun p eq => ?_) fun found' s₂ later =>
        rest found' s₂ (progress.trans later)
      obtain ⟨binding, here, rfl⟩ := Option.map_eq_some_iff.mp eq
      exact ⟨progress.known known, good binding here⟩

/-! ## Single imports -/

theorem bindTarget_progress {directive : Directive} {target : ImportTarget} (bare : Bool)
    {ns : Namespace} {source : ModuleId} {binding : Binding} (ready : Ready imports s)
    (home : s.tree.Known directive.module) (known : s.tree.Known source)
    (good : binding.Good s.defs ns) :
    Run False (bindTarget imports directive target bare ns source binding) s log fun _ s' _ =>
      Progress imports s s' := by
  simp only [bindTarget, Importing.lift, Run.bind_iff, Run.get_iff, Run.lift_iff]
  apply (ready.intact.validTree.isWithin home).mono
  intro inside _
  obtain ⟨pub, isPub, -⟩ := Yields.false_iff.mp (ready.intact.validDefs.isPub good)
  rw [isPub, Yields.ok_iff]
  -- only functions that are visible outside are asked for, and only if there are any
  have taken : (!inside && pub) = true → Importing.isPub s.defs binding = .ok true := by
    intro only
    rw [isPub, ((Bool.and_eq_true _ _).mp only).2]
  split
  · exact ready.run_bindImport home target.name good taken
  · rw [Run.bind_iff]
    apply (ready.run_checkPrivate home known good target.last.name).mono
    intro _ s₁ log₁ ended
    obtain ⟨checked, defs⟩ := ended
    rw [← defs] at taken
    exact (checked.ready.run_bindImport (checked.known home) target.name (checked.good good)
      taken).mono fun _ _ _ => checked.trans

theorem bindTargets_progress {directive : Directive} {target : ImportTarget} (bare : Bool)
    (found : List (Namespace × ModuleId × Binding)) {s : ImportState n} {log : Log}
    (ready : Ready imports s) (home : s.tree.Known directive.module) (all : FindsAll found s) :
    Run False (bindTargets imports directive target bare found) s log fun _ s' _ =>
      Progress imports s s' := by
  induction found generalizing s log with
  | nil => exact .refl ready
  | cons first others ih =>
    obtain ⟨ns, source, binding⟩ := first
    obtain ⟨known, good⟩ := all _ (List.mem_cons_self ..)
    rw [bindTargets, Run.bind_iff]
    apply (bindTarget_progress bare ready home known good).mono
    intro _ s₁ log₁ progress
    -- what has been found for the other namespaces is still there after the first is bound
    have others : FindsAll others s₁ :=
      FindsAll.progress (fun p mem => all p (List.mem_cons_of_mem _ mem)) progress
    exact (ih progress.ready (progress.known home) others).mono fun _ _ _ => progress.trans

theorem Answers.importSingle (answers : Answers imports lookup least) (deep : least ≤ depth asker)
    (ready : Ready imports s) (course : InCourse asker.opened asker.searched s) :
    Leads imports s (importSingle imports lookup asker) fun _ _ => True := by
  have home := ready.homes asker.index
  rw [Lookup.importSingle]
  split
  · exact .throw ready
  · next target _ =>
    refine .bind (answers.modulePath deep _ _ ready course home) ?_
    intro module s₁ progress reached
    refine .bind (answers.findTargets deep _ _ _ progress.ready (course.progress progress)
      reached) ?_
    intro found s₂ later all
    split
    · -- nothing has been found: the failure names the place that was searched
      exact .bind_get (.bind_lift (yields_placeText later.ready.intact (later.known reached))
        fun _ _ => .throw later.ready)
    · intro log
      rw [Tries.liftM_iff]
      have home₂ := later.known (progress.known home)
      exact (bindTargets_progress _ found later.ready home₂ all).mono
        fun _ s₃ log₃ bound => ⟨bound, fun _ _ => trivial⟩

/-! ## Opening and closing -/

theorem opening (ready : Ready imports s) {i : Fin n} (pending : s.statusOf i = .pending) :
    Progress imports s (s.withStatus i .inProgress) where
  ready := by
    refine ⟨ready.intact, ready.homes, fun {j source} done => ?_⟩
    rw [ImportState.statusOf_withStatus] at done
    split at done
    · cases done
    · exact ready.sources done
  defs := .refl _
  tree := .refl _
  statuses {j} notPending := by
    rw [ImportState.statusOf_withStatus, if_neg]
    rintro rfl
    exact notPending pending

/-- What a directive has come to by its path is there when it is closed. -/
theorem closing {i : Fin n} {status : ImportStatus} (pending : s.statusOf i = .pending)
    (progress : Progress imports (s.withStatus i .inProgress) s')
    (known : ∀ source, status = .done (some source) → s'.tree.Known source) :
    Progress imports s (s'.withStatus i status) where
  ready := by
    refine ⟨progress.ready.intact, progress.ready.homes, fun {j source} done => ?_⟩
    rw [ImportState.statusOf_withStatus] at done
    split at done
    · exact known source done
    · exact progress.ready.sources done
  defs := progress.defs
  tree := progress.tree
  statuses {j} notPending := by
    have ne : i ≠ j := by
      rintro rfl
      exact notPending pending
    have same := progress.statuses (i := j)
    rw [ImportState.statusOf_withStatus, if_neg ne] at same
    rw [ImportState.statusOf_withStatus, if_neg ne, same notPending]

/-- Somebody asks in the course of one more directive. -/
theorem course_opening {opened searched : List (Fin n)} {i : Fin n}
    (course : InCourse opened searched s) (pending : s.statusOf i = .pending) :
    InCourse (opened ++ [i]) searched
      (s.withStatus i .inProgress) where
  inProgress j mem := by
    rw [ImportState.statusOf_withStatus]
    split
    · rfl
    · next ne =>
      rcases List.mem_append.mp mem with mem | mem
      · exact course.inProgress j mem
      · exact absurd (List.mem_singleton.mp mem).symm ne
  opened_nodup := by
    have fresh : i ∉ opened := by
      intro mem
      rw [course.inProgress i mem] at pending
      cases pending
    exact course.opened_nodup.append (List.nodup_singleton i) (by simpa using fresh)
  searched_nodup := course.searched_nodup

theorem run_reportFailure (ready : Ready imports s) (directive : Directive)
    (failure : ImportFailure) :
    Run False (reportFailure directive failure) s log fun status s' _ =>
      Progress imports s s' ∧ ∀ source, status ≠ .done source := by
  rw [reportFailure]
  split
  · simp only [report, Run.bind_iff, Run.modify_iff, Run.pure_iff]
    exact ⟨.of_diagnostics ready _, by simp⟩
  · exact ⟨.refl ready, by simp⟩

/-- Opened and closed in the course of others, a single import leaves all in order. -/
theorem Answers.resolveSingle (answers : Answers imports lookup least)
    {opened searched : List (Fin n)} {i : Fin n}
    (deep : least ≤ opened.length + 1 + searched.length)
    (ready : Ready imports s) (course : InCourse opened searched s)
    (pending : s.statusOf i = .pending) :
    Run False (resolveSingle imports lookup i opened searched) s log fun _ s' _ =>
      Progress imports s s' := by
  simp only [Lookup.resolveSingle, run_setStatus_iff, Run.bind_iff, Tries.run_iff]
  -- the directive is in progress while it asks, so it asks from one level deeper
  have opens := opening ready pending
  have deep' : least ≤ depth ⟨i, opened ++ [i], searched⟩ := by
    simpa [depth] using deep
  apply (answers.importSingle deep' opens.ready (course_opening course pending) _).mono
  intro r s₁ log₁ ended
  obtain ⟨progress, _⟩ := ended
  cases r with
  | ok _ => exact closing pending progress (by simp)
  | error failure =>
    rw [Run.bind_iff]
    apply (run_reportFailure progress.ready _ failure).mono
    intro status s₂ log₂ ended
    obtain ⟨reported, notDone⟩ := ended
    exact closing pending (progress.trans reported) fun source eq => absurd eq (notDone _)

/-! ## Globs -/

theorem Answers.globPath (answers : Answers imports lookup least) (deep : least ≤ depth asker)
    (ready : Ready imports s) (course : InCourse asker.opened asker.searched s) :
    Leads imports s (globPath imports lookup asker) Reaches := by
  unfold Lookup.globPath
  dsimp only
  split
  · exact .throw ready
  · exact answers.modulePath deep _ _ ready course (ready.homes asker.index)

/-- A glob that has a source has one that is there. -/
theorem Answers.globSource (answers : Answers imports lookup least)
    {opened searched : List (Fin n)} {i : Fin n}
    (deep : least ≤ opened.length + 1 + searched.length)
    (ready : Ready imports s) (course : InCourse opened searched s) :
    Run False (globSource imports lookup i opened searched) s log fun source s' _ =>
      Progress imports s s' ∧ ∀ m, source = some m → s'.tree.Known m := by
  simp only [Lookup.globSource, run_note_iff, run_status_iff, Run.bind_iff]
  split
  · next source done =>
    refine ⟨.refl ready, ?_⟩
    rintro m rfl
    exact ready.sources done
  · exact ⟨.refl ready, by simp⟩
  · exact ⟨.refl ready, by simp⟩
  · exact ⟨.refl ready, by simp⟩
  · next pending =>
    simp only [run_setStatus_iff, Run.bind_iff, Tries.run_iff]
    have opens := opening ready pending
    have deep' : least ≤ depth ⟨i, opened ++ [i], searched⟩ := by
      simpa [depth] using deep
    apply (answers.globPath deep' opens.ready (course_opening course pending) _).mono
    intro r s₁ log₁ ended
    obtain ⟨progress, reached⟩ := ended
    cases r with
    | ok source =>
      have known : s₁.tree.Known source := reached source rfl
      rw [Run.bind_iff]
      refine ⟨closing pending progress ?_, ?_⟩
      · rintro _ ⟨⟩
        exact known
      · rintro _ ⟨⟩
        exact known
    | error failure =>
      simp only [Run.bind_iff]
      apply (run_reportFailure progress.ready _ failure).mono
      intro status s₂ log₂ ended
      obtain ⟨reported, notDone⟩ := ended
      refine ⟨closing pending (progress.trans reported) ?_, by simp⟩
      exact fun source eq => absurd eq (notDone _)

theorem globBind_progress {i : Fin n} {source : ModuleId} {ns : Namespace} (name : String)
    {binding : Binding} (ready : Ready imports s) (good : binding.Good s.defs ns) :
    Run False (globBind imports i source ns name binding) s log fun _ s' _ =>
      Progress imports s s' := by
  have home := ready.homes i
  simp only [globBind, Importing.lift, Run.bind_iff, Run.get_iff, Run.lift_iff]
  apply home.get.mono
  intro m found
  split
  · exact .refl ready
  · simp only [Run.bind_iff, Run.lift_iff]
    apply (ready.intact.validTree.isWithin home).mono
    intro inside _
    obtain ⟨pub, isPub, -⟩ := Yields.false_iff.mp (ready.intact.validDefs.isPub good)
    rw [isPub, Yields.ok_iff]
    split
    · next visible =>
      -- from outside, only a name that is visible gets here
      have taken : (!inside) = true → Importing.isPub s.defs binding = .ok true := by
        intro outside
        rw [isPub]
        cases inside
        · exact congrArg _ visible
        · cases outside
      simp only [Run.bind_iff, Run.pure_iff]
      exact ready.run_bindImport home ⟨name, (imports.get i).span⟩ good taken
    · exact .refl ready

/-- A glob is asked with one more search under way. -/
theorem course_searching {i : Fin n} (course : InCourse asker.opened asker.searched s)
    (fresh : i ∉ asker.searched) :
    InCourse asker.opened (asker.searched ++ [i]) s where
  inProgress := course.inProgress
  opened_nodup := course.opened_nodup
  searched_nodup :=
    course.searched_nodup.append (List.nodup_singleton i) (by simpa using fresh)

theorem Answers.askGlob (answers : Answers imports lookup least) (deep : least ≤ depth asker + 1)
    {module : ModuleId} (ns : Namespace) (name : String) (i : Fin n) (ready : Ready imports s)
    (course : InCourse asker.opened asker.searched s) (known : s.tree.Known module) :
    Run False (askGlob imports lookup asker module ns name i) s log fun _ s' _ =>
      Progress imports s s' := by
  simp only [Lookup.askGlob, Run.bind_iff]
  apply (run_bindingOf known ns name).mono
  intro found _ log₀ read
  obtain ⟨rfl, -⟩ := read
  split
  · next asked =>
    have fresh : i ∉ asker.searched := by
      intro mem
      simp [mem] at asked
    rw [Run.bind_iff]
    -- the glob may have to be opened, one level deeper than who asks
    have deep' : least ≤ asker.opened.length + 1 + asker.searched.length := by
      unfold depth at deep
      omega
    apply (answers.globSource deep' ready course).mono
    intro found s₁ log₁ ended
    obtain ⟨progress, there⟩ := ended
    cases found with
    | none => exact progress
    | some source =>
      dsimp only
      split
      · rw [Run.bind_iff, Tries.run_iff]
        -- the same name is asked for in the source of the glob, with one more search under way
        have deep'' : least ≤ depth ⟨i, asker.opened, asker.searched ++ [i]⟩ := by
          simpa [depth, Nat.add_assoc] using deep
        apply (answers ns name progress.ready
          (course_searching (course.progress progress) fresh) deep'' (there source rfl) log₁).mono
        intro r s₂ log₂ ended
        obtain ⟨later, finds⟩ := ended
        have soFar := progress.trans later
        split
        · next _ binding =>
          simp only [Run.bind_iff, Run.emit_iff, Run.pure_iff]
          exact (globBind_progress name later.ready (finds _ rfl binding rfl)).mono
            fun _ _ _ => soFar.trans
        · exact soFar
      · exact progress
  · exact .refl ready

/-! ## Names -/

theorem Answers.awaitImport (answers : Answers imports lookup least)
    (deep : least ≤ depth asker + 1) (i : Fin n) (ready : Ready imports s)
    (course : InCourse asker.opened asker.searched s) :
    Run False (awaitImport imports lookup asker i) s log fun _ s' _ => Progress imports s s' := by
  rw [Lookup.awaitImport]
  split
  · exact .refl ready
  · simp only [run_status_iff, Run.bind_iff]
    split
    · next pending =>
      have deep' : least ≤ asker.opened.length + 1 + asker.searched.length := by
        unfold depth at deep
        omega
      simp only [Run.bind_iff, Run.pure_iff]
      exact answers.resolveSingle deep' ready course pending
    · simp only [reportCycle, report, Run.bind_iff, run_note_iff, Run.emit_iff, Run.modify_iff,
        Run.pure_iff]
      exact .of_diagnostics ready _
    · exact .refl ready
    · exact .refl ready
    · exact .refl ready

theorem Answers.awaitImports (answers : Answers imports lookup least)
    (deep : least ≤ depth asker + 1) (directives : List (Fin n)) {s : ImportState n}
    {log : Log} (ready : Ready imports s)
    (course : InCourse asker.opened asker.searched s) :
    Run False (awaitImports imports lookup asker directives) s log fun _ s' _ =>
      Progress imports s s' := by
  induction directives generalizing s log with
  | nil => exact .refl ready
  | cons i others ih =>
    simp only [Lookup.awaitImports, Run.bind_iff, Run.pure_iff]
    apply (answers.awaitImport deep i ready course).mono
    intro _ s₁ log₁ progress
    exact (ih progress.ready (course.progress progress)).mono fun _ _ _ => progress.trans

theorem Answers.askGlobs (answers : Answers imports lookup least) (deep : least ≤ depth asker + 1)
    {module : ModuleId} (ns : Namespace) (name : String) (ready : Ready imports s)
    (course : InCourse asker.opened asker.searched s) (known : s.tree.Known module) :
    Run False (askGlobs imports lookup asker module ns name) s log fun _ s' _ =>
      Progress imports s s' := by
  apply Run.forM _ (.refl ready)
  intro i _ s₁ log₁ soFar
  exact (answers.askGlob deep ns name i soFar.ready (course.progress soFar)
    (soFar.known known)).mono fun _ _ _ => soFar.trans

/-- What is bound in the end is the answer. -/
theorem leads_answer (ready : Ready imports s) {module : ModuleId}
    (known : s.tree.Known module) (ns : Namespace) (name : String) (cycle : Bool) :
    Leads imports s (do
      match ← (bindingOf module ns name : Importing n (Option Binding)) with
      | some binding => return some binding
      | none => if cycle then throw .cycle else return none) (Finds ns) := by
  intro log
  simp only [Tries.bind_iff, Tries.liftM_iff]
  apply (run_bindingOf known ns name).mono
  intro found _ log₁ read
  obtain ⟨rfl, bound⟩ := read
  split
  · next binding =>
    refine ⟨.refl ready, ?_⟩
    rintro _ ⟨⟩ _ ⟨⟩
    exact ready.intact.bindings bound.symm
  · split
    · exact ⟨.refl ready, by simp⟩
    · refine ⟨.refl ready, ?_⟩
      rintro _ ⟨⟩ _ ⟨⟩

/-- One more level of nesting. -/
theorem Answers.step (answers : Answers imports lookup (least + 1)) :
    Answers imports (step imports lookup) least := by
  intro asker module ns name s ready course deep known log
  have deep' : least + 1 ≤ depth asker + 1 := Nat.succ_le_succ deep
  rw [Lookup.step]
  simp only [Tries.bind_iff, Tries.liftM_iff, run_note_iff]
  apply (run_bindingOf known ns name).mono
  intro found _ log₀ read
  obtain ⟨rfl, bound⟩ := read
  split
  · next binding =>
    refine ⟨.refl ready, ?_⟩
    rintro _ ⟨⟩ _ ⟨⟩
    exact ready.intact.bindings bound.symm
  · simp only [Tries.bind_iff, Tries.liftM_iff]
    apply (answers.awaitImports deep' _ ready course).mono
    intro cycle s₁ log₁ progress
    split
    · rw [Tries.bind_iff, Tries.liftM_iff]
      apply (answers.askGlobs deep' ns name progress.ready (course.progress progress)
        (progress.known known)).mono
      intro _ s₂ log₂ later
      have soFar := progress.trans later
      exact (leads_answer later.ready (soFar.known known) ns name cycle log₂).mono
        fun _ _ _ answer => ⟨soFar.trans answer.1, answer.2⟩
    · exact (leads_answer progress.ready (progress.known known) ns name cycle log₁).mono
        fun _ _ _ answer => ⟨progress.trans answer.1, answer.2⟩

end

theorem answers_upTo (levels : Nat) {least : Nat} (enough : 2 * n + 1 ≤ levels + least) :
    Answers imports (upTo imports levels) least := by
  induction levels generalizing least with
  | zero =>
    -- nobody asks from so deep: there are no more directives than `n` to open, or to search
    intro asker module ns name s ready course deep known
    have := course.depth_le
    omega
  | succ levels ih => exact Answers.step (ih (by omega))

theorem answers_full : Answers imports (full imports) 0 := answers_upTo _ (by omega)

end Lookup

/-! ## The whole phase -/

namespace Importing

open Lookup

theorem inCourse_nil (s : ImportState n) : InCourse [] [] s := ⟨by simp, .nil, .nil⟩

theorem Ready.run_resolvePending (ready : Ready imports s) (i : Fin n) :
    Run False (resolvePending imports i) s log fun _ s' _ => Progress imports s s' := by
  simp only [resolvePending, run_status_iff, Run.bind_iff]
  split
  · next open' =>
    have pending : s.statusOf i = .pending := by
      simp only [Bool.and_eq_true, beq_iff_eq] at open'
      exact open'.2
    exact answers_full.resolveSingle (Nat.zero_le _) ready (inCourse_nil s) pending
  · exact .refl ready

/-- The modules that globs have led to. -/
def Sources (globs : List (Fin n × ModuleId)) (s : ImportState n) : Prop :=
  ∀ glob ∈ globs, s.tree.Known glob.2

theorem Sources.progress {globs : List (Fin n × ModuleId)} (h : Sources globs s)
    (progress : Progress imports s s') : Sources globs s' :=
  fun glob mem => progress.known (h glob mem)

theorem Ready.run_globSources (directives : List (Fin n)) {s : ImportState n} {log : Log}
    (ready : Ready imports s) :
    Run False (globSources imports directives) s log fun globs s' _ =>
      Progress imports s s' ∧ Sources globs s' := by
  induction directives generalizing s log with
  | nil => exact ⟨.refl ready, List.forall_mem_nil _⟩
  | cons i others ih =>
    -- whatever this directive leads to, the others come after it
    have rest (source : Option ModuleId) (s₁ : ImportState n) (log₁ : Log)
        (progress : Progress imports s s₁) (there : ∀ m, source = some m → s₁.tree.Known m) :
        Run False (do
          let rest ← globSources imports others
          return source.toList.map (i, ·) ++ rest) s₁ log₁ fun globs s' _ =>
          Progress imports s s' ∧ Sources globs s' := by
      simp only [Run.bind_iff, Run.pure_iff]
      apply (ih progress.ready).mono
      intro rest s₂ log₂ ended
      obtain ⟨later, known⟩ := ended
      refine ⟨progress.trans later, fun glob mem => ?_⟩
      rcases List.mem_append.mp mem with mem | mem
      · obtain ⟨m, here, rfl⟩ := List.mem_map.mp mem
        exact later.known (there m (Option.mem_toList.mp here))
      · exact known glob mem
    rw [globSources]
    split
    · rw [Run.bind_iff]
      exact (answers_full.globSource (Nat.zero_le _) ready (inCourse_nil s)).mono
        fun source s₁ log₁ ended => rest source s₁ log₁ ended.1 ended.2
    · exact rest none s log (.refl ready) (by simp)

theorem Ready.run_importNames {i : Fin n} {source : ModuleId} {ns : Namespace}
    (names : List (String × Binding)) {s : ImportState n} {log : Log}
    (ready : Ready imports s) (good : ∀ name ∈ names, name.2.Good s.defs ns) :
    Run False (importNames imports i source ns names) s log fun _ s' _ =>
      Progress imports s s' := by
  induction names generalizing s log with
  | nil => exact .refl ready
  | cons first names ih =>
    obtain ⟨name, binding⟩ := first
    simp only [importNames, Run.bind_iff, Run.pure_iff]
    apply (globBind_progress name ready (good _ (List.mem_cons_self ..))).mono
    intro _ s₁ log₁ progress
    refine (ih progress.ready fun name mem =>
      progress.good (good name (List.mem_cons_of_mem _ mem))).mono fun _ _ _ => progress.trans

theorem Ready.run_importNamespaces {i : Fin n} {source : ModuleId} (namespaces : List Namespace)
    {s : ImportState n} {log : Log} (ready : Ready imports s)
    (known : s.tree.Known source) :
    Run False (importNamespaces imports i source namespaces) s log fun _ s' _ =>
      Progress imports s s' := by
  induction namespaces generalizing s log with
  | nil => exact .refl ready
  | cons ns others ih =>
    obtain ⟨m, found⟩ := known.find?
    simp only [importNamespaces, lift, Run.bind_iff, Run.get_iff, Run.lift_iff, Run.pure_iff,
      ModuleTree.get_of_find? found, Yields.ok_iff]
    -- the names are listed as the source has bound them, so what they stand for is there
    have good : ∀ name ∈ m.bindings ns, name.2.Good s.defs ns := by
      rintro ⟨name, binding⟩ mem
      have bound : m.find? ns name = some binding :=
        Std.TreeMap.mem_toList_iff_getElem?_eq_some.mp mem
      exact ready.intact.good found bound
    apply (run_importNames _ ready good).mono
    intro _ s₁ log₁ progress
    exact (ih progress.ready (progress.known known)).mono fun _ _ _ => progress.trans

theorem Ready.run_applyGlobs (globs : List (Fin n × ModuleId)) {s : ImportState n}
    {log : Log} (ready : Ready imports s) (known : Sources globs s) :
    Run False (applyGlobs imports globs) s log fun _ s' _ => Progress imports s s' := by
  induction globs generalizing s log with
  | nil => exact .refl ready
  | cons glob globs ih =>
    obtain ⟨i, source⟩ := glob
    have there : s.tree.Known source := known _ (List.mem_cons_self ..)
    have applied : Run False (applyGlob imports i source) s log fun _ s' _ =>
        Progress imports s s' := by
      unfold applyGlob
      split
      · exact .refl ready
      · exact run_importNamespaces _ ready there
    simp only [applyGlobs, Run.bind_iff, Run.pure_iff]
    apply applied.mono
    intro _ s₁ log₁ progress
    have known₁ : Sources globs s₁ :=
      Sources.progress (fun glob mem => known glob (List.mem_cons_of_mem _ mem)) progress
    exact (ih progress.ready known₁).mono fun _ _ _ => progress.trans

theorem Ready.run_saturate (globs : List (Fin n × ModuleId)) (rounds : Nat) {s : ImportState n}
    {log : Log} (ready : Ready imports s) (known : Sources globs s) :
    Run False (saturate imports globs rounds) s log fun _ s' _ => Progress imports s s' := by
  -- where the rounds end early there is nothing left to show, and else they go on from there
  induction rounds generalizing s log with
  | zero => exact .refl ready
  | succ rounds ih =>
    rw [saturate, Run.bind_iff]
    apply (ready.run_applyGlobs globs known).mono
    intro more s₁ log₁ progress
    split
    · exact (ih progress.ready (known.progress progress)).mono fun _ _ _ => progress.trans
    · exact progress

theorem Ready.run_resolveSingles (directives : List (Fin n)) (ready : Ready imports s) :
    Run False (directives.forM (resolvePending imports)) s log fun _ s' _ =>
      Progress imports s s' :=
  Run.forM _ (.refl ready) fun i _ _ _ soFar =>
    (soFar.ready.run_resolvePending i).mono fun _ _ _ => soFar.trans

theorem Ready.run_allDirectives (ready : Ready imports s) (log : Log) :
    Run False (allDirectives imports) s log fun _ s' _ => Progress imports s s' := by
  simp only [allDirectives, Run.bind_iff, Run.get_iff, Run.emit_iff]
  apply (ready.run_resolveSingles _).mono
  intro _ s₁ log₁ progress
  apply (progress.ready.run_globSources _).mono
  intro globs s₂ log₂ ended
  obtain ⟨found, known⟩ := ended
  apply (found.ready.run_saturate globs _ known).mono
  intro _ s₃ log₃ filled
  exact (progress.trans found).trans filled

/-- Before the first of them is opened, no glob has a source. -/
theorem ready_start {defs : Definitions} {tree : ModuleTree} (intact : Intact defs tree)
    (homes : ∀ i, tree.Known (imports.get i).module) : Ready imports (.start n defs tree) := by
  refine ⟨intact, homes, fun {i source} done => ?_⟩
  rw [ImportState.statusOf_start] at done
  cases done

end Importing

/-- Over tables in order the import phase goes through. It adds no declarations and no modules. -/
theorem resolveImports_completes {defs : Definitions} {tree : ModuleTree}
    (intact : Intact defs tree) (lint : Bool) {directives : List Directive}
    (homes : ∀ d ∈ directives, tree.Known d.module) (log : Log) :
    ∃ s log', resolveImports defs tree lint directives log = .ok s log' ∧
      Intact s.defs s.tree ∧ defs.Grows s.defs ∧ tree.Grows s.tree := by
  let imports : Imports directives.length := ⟨⟨directives.toArray, by simp⟩, lint⟩
  have ready : Importing.Ready imports (.start _ defs tree) :=
    Importing.ready_start intact fun i => homes _ (List.getElem_mem i.isLt)
  obtain ⟨_, s, log', result, progress⟩ := Run.false_iff.mp (ready.run_allDirectives log)
  refine ⟨s, log', ?_, progress.ready.intact, progress.defs, progress.tree⟩
  exact Logged.bind_eq_ok.mpr ⟨((), s), log', result, rfl⟩

end NameResolution
