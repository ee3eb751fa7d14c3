import NameResolution.Proofs.Import.State
import NameResolution.Proofs.Import.Paths

/-! # Putting the import phase together

    The import phase is made of a few parts that touch the state. What relates
    each of these to itself, and is kept when parts are put together, relates
    the whole phase to itself. The two sides may differ in whether private
    access is warned of, and look names up in ways of their own. -/

namespace NameResolution

variable {n : Nat}

/-- The same imports, with or without warnings. -/
def Imports.withLint (imports : Imports n) (lint : Bool) : Imports n :=
  { imports with lintPrivateAccess := lint }

@[simp] theorem Imports.get_withLint (imports : Imports n) (lint : Bool) (i : Fin n) :
    (imports.withLint lint).get i = imports.get i := rfl

@[simp] theorem Imports.binders_withLint (imports : Imports n) (lint : Bool) (module : ModuleId)
    (name : String) : (imports.withLint lint).binders module name = imports.binders module name :=
  rfl

/-- A relation between parts of the import phase that holds of those that touch the state, and of
    parts one after another. Who reads the state may not look at more than the tables. -/
structure Importing.Congruence (imports : Imports n) (lint : Bool)
    (rel : ∀ {α : Type}, Importing n α → Importing n α → Prop) : Prop where
  pure : ∀ {α : Type} (a : α), rel (Pure.pure a) (Pure.pure a)
  bind : ∀ {α β : Type} {m m' : Importing n α} {f f' : α → Importing n β}, rel m m' →
    (∀ a, rel (f a) (f' a)) → rel (m >>= f) (m' >>= f')
  lift : ∀ {α : Type} (result : Except Fault α), rel (Importing.lift result) (Importing.lift result)
  reads : ∀ {α : Type} {f f' : ImportState n → Importing n α}, (∀ s s', s'.defs = s.defs →
    s'.tree = s.tree → rel (f s) (f' s')) → rel (get >>= f) (get >>= f')
  status : ∀ i, rel (Importing.status i) (Importing.status i)
  note : ∀ opened searched task,
    rel (Importing.note opened searched task) (Importing.note opened searched task)
  setStatus : ∀ opened searched i status,
    rel (Importing.setStatus opened searched i status)
      (Importing.setStatus opened searched i status)
  report : ∀ diagnostic, rel (Importing.report diagnostic) (Importing.report diagnostic)
  emit : ∀ event, rel (liftM (Logged.emit event)) (liftM (Logged.emit event))
  /-- How much has been reported by the end is only logged -/
  ends : rel (do Logged.emit (.importsResolved n (← get).diagnostics.length))
    (do Logged.emit (.importsResolved n (← get).diagnostics.length))
  bindImport : ∀ directive ns name binding publicOnly,
    rel (Importing.bindImport directive ns name binding publicOnly)
      (Importing.bindImport directive ns name binding publicOnly)
  checkPrivate : ∀ directive source binding name,
    rel (Importing.checkPrivate imports directive source binding name)
      (Importing.checkPrivate (imports.withLint lint) directive source binding name)

namespace Importing.Congruence

open Lookup

variable {imports : Imports n} {lint : Bool}
  {rel : ∀ {α : Type}, Importing n α → Importing n α → Prop}

section

variable (congruence : Congruence imports lint rel)

include congruence

theorem forM {α : Type} {f f' : α → Importing n PUnit} (xs : List α) (h : ∀ x, rel (f x) (f' x)) :
    rel (xs.forM f) (xs.forM f') := by
  induction xs with
  | nil => exact congruence.pure _
  | cons x xs ih => exact congruence.bind (h x) fun _ => ih

theorem bindingOf (module : ModuleId) (ns : Namespace) (name : String) :
    rel (bindingOf module ns name) (bindingOf module ns name) := by
  refine congruence.reads fun s s' _ tree => ?_
  rw [tree]
  exact congruence.bind (congruence.lift _) fun _ => congruence.pure _

/-! ## Attempts -/

theorem attempt_pure {α : Type} (a : α) :
    rel (Pure.pure a : Attempt n α).run (Pure.pure a : Attempt n α).run :=
  congruence.pure _

theorem attempt_throw {α : Type} (failure : ImportFailure) :
    rel (throw failure : Attempt n α).run (throw failure : Attempt n α).run :=
  congruence.pure _

/-- What comes after a failure is left out on both sides. -/
theorem attempt_bind {α β : Type} {m m' : Attempt n α} {f f' : α → Attempt n β}
    (h : rel m.run m'.run) (h' : ∀ a, rel (f a).run (f' a).run) :
    rel (m >>= f).run (m' >>= f').run := by
  refine congruence.bind h fun r => ?_
  cases r with
  | ok a => exact h' a
  | error failure => exact congruence.pure _

/-- Parts that cannot give up. -/
theorem attempt_liftM {α : Type} {m m' : Importing n α} (h : rel m m') :
    rel (liftM m : Attempt n α).run (liftM m' : Attempt n α).run := by
  rw [Attempt.run_liftM, Attempt.run_liftM]
  exact congruence.bind h fun _ => congruence.pure _

theorem attempt_lift {α : Type} (result : Except Fault α) :
    rel (Attempt.lift result : Attempt n α).run (Attempt.lift result : Attempt n α).run :=
  congruence.attempt_liftM (congruence.lift result)

/-- Whole paths over related lookups are related. -/
theorem relates : Attempt.Relates fun m m' => rel m.run m'.run where
  pure := congruence.attempt_pure
  throw {_ failure} _ := congruence.attempt_throw failure
  lift := congruence.attempt_lift
  reads := congruence.reads
  bind := congruence.attempt_bind

end

/-- Two ways to look names up that are related whatever is asked. -/
def Lookups (rel : ∀ {α : Type}, Importing n α → Importing n α → Prop)
    (lookup lookup' : Lookup n) : Prop :=
  ∀ asker module ns name, rel (lookup asker module ns name).run (lookup' asker module ns name).run

variable {lookup lookup' : Lookup n} (congruence : Congruence imports lint rel)
  (lookups : Lookups rel lookup lookup')

include congruence lookups

/-! ## Single imports -/

omit lookups in
theorem bindTargets (directive : Directive) (target : ImportTarget) (bare : Bool)
    (found : List (Namespace × ModuleId × Binding)) :
    rel (bindTargets imports directive target bare found)
      (bindTargets (imports.withLint lint) directive target bare found) := by
  induction found with
  | nil => exact congruence.pure _
  | cons first others ih =>
    obtain ⟨ns, source, binding⟩ := first
    refine congruence.bind ?_ fun _ => ih
    refine congruence.reads fun s s' defs tree => ?_
    rw [defs, tree]
    refine congruence.bind (congruence.lift _) fun inside =>
      congruence.bind (congruence.lift _) fun isPub => ?_
    have binds := congruence.bindImport directive ns target.name binding (!inside && isPub)
    cases bare with
    | true => exact binds
    | false => exact congruence.bind (congruence.checkPrivate ..) fun _ => binds

theorem importSingle (asker : Asker n) :
    rel (importSingle imports lookup asker).run
      (importSingle (imports.withLint lint) lookup' asker).run := by
  cases hasTarget : (imports.get asker.index).target? with
  | none =>
    rw [Lookup.importSingle, Lookup.importSingle, Imports.get_withLint, hasTarget]
    exact congruence.attempt_throw _
  | some target =>
    have hasTarget' : ((imports.withLint lint).get asker.index).target? = some target := hasTarget
    rw [importSingle_eq hasTarget, importSingle_eq hasTarget']
    refine congruence.attempt_bind ?_ fun found =>
      congruence.attempt_liftM (congruence.bindTargets _ target _ found)
    exact congruence.relates.findSingle (lookups asker) imports target

omit lookups in
theorem reportFailure (directive : Directive) (failure : ImportFailure) :
    rel (reportFailure directive failure) (reportFailure directive failure) := by
  unfold Importing.reportFailure
  split
  · exact congruence.bind (congruence.report _) fun _ => congruence.pure _
  · exact congruence.pure _

theorem resolveSingle (i : Fin n) (opened searched : List (Fin n)) :
    rel (resolveSingle imports lookup i opened searched)
      (resolveSingle (imports.withLint lint) lookup' i opened searched) := by
  refine congruence.bind (congruence.setStatus ..) fun _ =>
    congruence.bind (congruence.importSingle lookups _) fun r => ?_
  cases r with
  | ok _ => exact congruence.setStatus ..
  | error failure =>
    exact congruence.bind (congruence.reportFailure _ failure) fun _ => congruence.setStatus ..

/-! ## Globs -/

theorem globSource (i : Fin n) (opened searched : List (Fin n)) :
    rel (globSource imports lookup i opened searched)
      (globSource (imports.withLint lint) lookup' i opened searched) := by
  refine congruence.bind (congruence.note ..) fun _ =>
    congruence.bind (congruence.status i) fun status => ?_
  cases status with
  | pending =>
    refine congruence.bind (congruence.setStatus ..) fun _ =>
      congruence.bind (congruence.relates.globPath (lookups _) imports) fun r => ?_
    cases r with
    | ok source => exact congruence.bind (congruence.setStatus ..) fun _ => congruence.pure _
    | error failure =>
      exact congruence.bind (congruence.reportFailure _ failure) fun _ =>
        congruence.bind (congruence.setStatus ..) fun _ => congruence.pure _
  | _ => exact congruence.pure _

omit lookups in
theorem globBind (i : Fin n) (source : ModuleId) (ns : Namespace) (name : String)
    (binding : Binding) :
    rel (globBind imports i source ns name binding)
      (globBind (imports.withLint lint) i source ns name binding) := by
  refine congruence.reads fun s s' defs tree => ?_
  rw [defs, tree]
  refine congruence.bind (congruence.lift _) fun home => ?_
  split
  · exact congruence.pure _
  · refine congruence.bind (congruence.lift _) fun inside =>
      congruence.bind (congruence.lift _) fun isPub => ?_
    split
    · exact congruence.bind (congruence.bindImport ..) fun _ => congruence.pure _
    · exact congruence.pure _

theorem askGlob (asker : Asker n) (module : ModuleId) (ns : Namespace) (name : String)
    (i : Fin n) :
    rel (askGlob imports lookup asker module ns name i)
      (askGlob (imports.withLint lint) lookup' asker module ns name i) := by
  refine congruence.bind (congruence.bindingOf module ns name) fun bound => ?_
  split
  · refine congruence.bind (congruence.globSource lookups i _ _) fun found => ?_
    cases found with
    | none => exact congruence.pure _
    | some source =>
      dsimp only
      split
      · refine congruence.bind (lookups _ source ns name) fun r => ?_
        split
        · exact congruence.bind (congruence.emit _) fun _ =>
            congruence.bind (congruence.globBind i source ns name _) fun _ => congruence.pure _
        · exact congruence.pure _
      · exact congruence.pure _
  · exact congruence.pure _

theorem askGlobs (asker : Asker n) (module : ModuleId) (ns : Namespace) (name : String) :
    rel (askGlobs imports lookup asker module ns name)
      (askGlobs (imports.withLint lint) lookup' asker module ns name) :=
  congruence.forM _ (congruence.askGlob lookups asker module ns name)

/-! ## Names -/

theorem awaitImport (asker : Asker n) (i : Fin n) :
    rel (awaitImport imports lookup asker i)
      (awaitImport (imports.withLint lint) lookup' asker i) := by
  unfold Lookup.awaitImport
  split
  · exact congruence.pure _
  · refine congruence.bind (congruence.status i) fun status => ?_
    cases status with
    | pending =>
      exact congruence.bind (congruence.resolveSingle lookups i _ _) fun _ =>
        congruence.bind (congruence.status i) fun _ => congruence.pure _
    | inProgress =>
      refine congruence.bind (congruence.note ..) fun _ =>
        congruence.bind ?_ fun _ => congruence.pure _
      exact congruence.bind (congruence.emit _) fun _ => congruence.report _
    | _ => exact congruence.pure _

theorem awaitImports (asker : Asker n) (directives : List (Fin n)) :
    rel (awaitImports imports lookup asker directives)
      (awaitImports (imports.withLint lint) lookup' asker directives) := by
  induction directives with
  | nil => exact congruence.pure _
  | cons i others ih =>
    exact congruence.bind (congruence.awaitImport lookups asker i) fun _ =>
      congruence.bind ih fun _ => congruence.pure _

/-- One more level of nesting. -/
theorem step : Lookups rel (step imports lookup) (step (imports.withLint lint) lookup') := by
  intro asker module ns name
  have bindingOf := congruence.attempt_liftM (congruence.bindingOf module ns name)
  -- what has been bound on the way is found by looking once more
  have last {next : Option Binding → Attempt n (Option Binding)}
      (bound : ∀ binding, next (some binding) = return some binding)
      (free : ∃ cycle : Bool, next none = if cycle then throw .cycle else return none) :
      rel (do next (← Importing.bindingOf (n := n) module ns name) : Attempt n _).run
        (do next (← Importing.bindingOf (n := n) module ns name) : Attempt n _).run := by
    refine congruence.attempt_bind bindingOf fun found => ?_
    cases found with
    | some binding =>
      rw [bound]
      exact congruence.attempt_pure _
    | none =>
      obtain ⟨cycle, same⟩ := free
      rw [same]
      split
      · exact congruence.attempt_throw _
      · exact congruence.attempt_pure _
  refine congruence.attempt_bind (congruence.attempt_liftM (congruence.note ..)) fun _ =>
    congruence.attempt_bind bindingOf fun bound => ?_
  cases bound with
  | some binding => exact congruence.attempt_pure _
  | none =>
    refine congruence.attempt_bind
      (congruence.attempt_liftM (congruence.awaitImports lookups asker _)) fun cycle => ?_
    dsimp only
    rw [Imports.binders_withLint]
    split
    · refine congruence.attempt_bind ?_ fun _ => last (fun _ => rfl) ⟨cycle, rfl⟩
      exact congruence.attempt_liftM (congruence.askGlobs lookups asker module ns name)
    · exact last (fun _ => rfl) ⟨cycle, rfl⟩

omit lookups

theorem upTo (depth : Nat) :
    Lookups rel (upTo imports depth) (upTo (imports.withLint lint) depth) := by
  induction depth with
  | zero => exact fun _ _ _ _ => congruence.attempt_lift _
  | succ depth ih => exact congruence.step ih

theorem full : Lookups rel (full imports) (full (imports.withLint lint)) := congruence.upTo _

/-! ## The whole phase -/

theorem resolvePending (i : Fin n) :
    rel (resolvePending imports i) (resolvePending (imports.withLint lint) i) := by
  refine congruence.bind (congruence.status i) fun status => ?_
  rw [Imports.get_withLint]
  split
  · exact congruence.resolveSingle congruence.full i [] []
  · exact congruence.pure _

theorem globSources (directives : List (Fin n)) :
    rel (globSources imports directives) (globSources (imports.withLint lint) directives) := by
  induction directives with
  | nil => exact congruence.pure _
  | cons i others ih =>
    rw [Importing.globSources, Importing.globSources, Imports.get_withLint]
    split
    · exact congruence.bind (congruence.globSource congruence.full i [] []) fun _ =>
        congruence.bind ih fun _ => congruence.pure _
    · exact congruence.bind (congruence.pure _) fun _ =>
        congruence.bind ih fun _ => congruence.pure _

theorem importNames (i : Fin n) (source : ModuleId) (ns : Namespace)
    (names : List (String × Binding)) :
    rel (importNames imports i source ns names)
      (importNames (imports.withLint lint) i source ns names) := by
  induction names with
  | nil => exact congruence.pure _
  | cons first names ih =>
    obtain ⟨name, binding⟩ := first
    exact congruence.bind (congruence.globBind i source ns name binding) fun _ =>
      congruence.bind ih fun _ => congruence.pure _

theorem importNamespaces (i : Fin n) (source : ModuleId) (namespaces : List Namespace) :
    rel (importNamespaces imports i source namespaces)
      (importNamespaces (imports.withLint lint) i source namespaces) := by
  induction namespaces with
  | nil => exact congruence.pure _
  | cons ns others ih =>
    refine congruence.reads fun s s' _ tree => ?_
    rw [tree]
    exact congruence.bind (congruence.lift _) fun m =>
      congruence.bind (congruence.importNames i source ns _) fun _ =>
        congruence.bind ih fun _ => congruence.pure _

theorem applyGlobs (globs : List (Fin n × ModuleId)) :
    rel (applyGlobs imports globs) (applyGlobs (imports.withLint lint) globs) := by
  induction globs with
  | nil => exact congruence.pure _
  | cons glob globs ih =>
    obtain ⟨i, source⟩ := glob
    refine congruence.bind ?_ fun _ => congruence.bind ih fun _ => congruence.pure _
    rw [applyGlob, applyGlob, Imports.get_withLint]
    split
    · exact congruence.pure _
    · exact congruence.importNamespaces i source _

theorem saturate (globs : List (Fin n × ModuleId)) (rounds : Nat) :
    rel (saturate imports globs rounds) (saturate (imports.withLint lint) globs rounds) := by
  induction rounds with
  | zero => exact congruence.pure _
  | succ rounds ih =>
    refine congruence.bind (congruence.applyGlobs globs) fun more => ?_
    split
    · exact ih
    · exact congruence.pure _

theorem allDirectives : rel (allDirectives imports) (allDirectives (imports.withLint lint)) := by
  refine congruence.bind (congruence.forM _ congruence.resolvePending) fun _ =>
    congruence.bind (congruence.globSources _) fun globs => congruence.reads fun s s' _ tree => ?_
  rw [tree]
  exact congruence.bind (congruence.saturate globs _) fun _ => congruence.ends

end Importing.Congruence

end NameResolution
