import NameResolution.Proofs.Import.Plain

/-! # The lint on imports

    A single import is checked when it binds what it has found: of each thing
    that it takes from a module, and of nothing that it meets on its way there.
    What is not `pub` in the end was not `pub` then, so whatever an import could
    be warned of in the end it has been warned of. -/

namespace NameResolution

/-- Whatever is visible outside stays so. -/
theorem Definitions.Keeps.not_hidden {defs defs' : Definitions} (h : defs.Keeps defs')
    {binding : Binding} (pub : Importing.isPub defs binding = .ok true) :
    Importing.isPub defs' binding ≠ .ok false := by
  intro hidden
  -- one definition that is `pub` makes the binding so, and it is there still
  have stays {id : DefId} (pub : defs.isPub id = .ok true) (hidden : defs'.isPub id = .ok false) :
      False := by
    rw [h.isPub pub] at hidden
    cases hidden
  cases binding with
  | definition id | imported id => exact stays pub hidden
  | overloads set =>
    obtain ⟨members, there, -⟩ := Except.bind_eq_ok.mp pub
    obtain ⟨members', there', none⟩ := Except.bind_eq_ok.mp hidden
    obtain ⟨⟨suffix, id⟩, mem, isPub⟩ :=
      Definitions.exists_isPub (Definitions.getElem?_of_overloadSet there) pub
    obtain ⟨members'', held, mem'⟩ := h.member (Definitions.getElem?_of_overloadSet there)
      (OverloadSet.mem_toList.mp mem)
    rw [Definitions.getElem?_of_overloadSet there'] at held
    cases held
    exact stays isPub (forall_of_anyM_ok none _ (OverloadSet.mem_toList.mpr mem'))

variable {n : Nat} {labels : NodeId → String → Prop} {imports : Imports n}
  {start s s' : ImportState n} {log : Log} {opened : List (Fin n)} {i : Fin n}
  {directive : Directive} {ns : Namespace} {source : ModuleId} {binding : Binding}
  {text : String} {d : Diagnostic}

namespace Importing

/-- What an import takes from a module is not `pub` there, and the import stands outside. That is
    what is said of it. -/
structure Flagged (imports : Imports n) (directive : Directive) (text : String)
    (source : ModuleId) (binding : Binding) (s : ImportState n) (d : Diagnostic) : Prop where
  linted : imports.lintPrivateAccess = true
  outside : s.tree.isWithin directive.module source = .ok false
  hidden : isPub s.defs binding = .ok false
  warning : ∃ m owner, s.tree.find? source = some m ∧ m.name s.defs = .ok owner ∧
    d = .privateAccess text owner directive.span

/-- Who is outside of something that is not `pub` has been so all the time. -/
theorem Flagged.of_later (h : Flagged imports directive text source binding s' d)
    (later : Later labels s s') (sound : Sound labels (s.defs, s.tree))
    (home : s.tree.Known directive.module) (good : binding.Good s.defs ns) :
    Flagged imports directive text source binding s d := by
  obtain ⟨linted, outside, hidden, m', owner, found', named', rfl⟩ := h
  refine ⟨linted, ?_, ?_, ?_⟩
  · have decided : Yields False (s.tree.isWithin directive.module source) fun _ => True :=
      sound.intact.validTree.isWithin home
    obtain ⟨inside, within, -⟩ := Yields.false_iff.mp decided
    rw [later.tree.isWithin within] at outside
    rw [within, outside]
  · obtain ⟨pub, isPub, -⟩ := Yields.false_iff.mp (sound.intact.validDefs.isPub good)
    cases pub with
    | false => exact isPub
    | true => exact absurd hidden (later.defs_keeps.not_hidden isPub)
  · obtain ⟨m, names, found, rfl⟩ := later.tree.module_of found'
    obtain ⟨name, named, -⟩ := Yields.false_iff.mp (sound.intact.name found)
    rw [later.defs_keeps.moduleName ⟨names, rfl⟩ named] at named'
    cases named'
    exact ⟨m, owner, found, named, rfl⟩

/-- A check adds what it has to say, and changes nothing else. -/
theorem run_checkPrivate_flags :
    Run True (checkPrivate imports directive source binding text) s log fun _ s' log' =>
      ∃ more, (∀ d, d ∈ more ↔ Flagged imports directive text source binding s d) ∧
        s' = { s with diagnostics := s.diagnostics ++ more } ∧ log' = log := by
  have nothing (fine : ∀ d, ¬ Flagged imports directive text source binding s d) :
      ∃ more, (∀ d, d ∈ more ↔ Flagged imports directive text source binding s d) ∧
        s = { s with diagnostics := s.diagnostics ++ more } ∧ log = log :=
    ⟨[], fun d => iff_of_false List.not_mem_nil (fine d), by simp, rfl⟩
  rw [checkPrivate]
  split
  · next linted =>
    simp only [lift, Run.bind_iff, Run.get_iff, Run.lift_iff]
    refine Yields.true_iff.mpr fun inside within => ?_
    split
    · next isInside =>
      refine nothing fun d flagged => ?_
      have outside := flagged.outside
      rw [within, isInside] at outside
      cases outside
    · next isOutside =>
      simp only [Run.bind_iff, Run.lift_iff]
      refine Yields.true_iff.mpr fun pub isPub => ?_
      split
      · next visible =>
        refine nothing fun d flagged => ?_
        have hidden := flagged.hidden
        rw [isPub, visible] at hidden
        cases hidden
      · next isHidden =>
        simp only [Bool.not_eq_true] at isOutside isHidden
        subst isOutside isHidden
        simp only [report, Run.bind_iff, Run.lift_iff, Run.modify_iff]
        refine Yields.true_iff.mpr fun m got => Yields.true_iff.mpr fun owner named => ?_
        refine ⟨[.privateAccess text owner directive.span], fun d => ?_, rfl, trivial⟩
        have found := ModuleTree.find?_of_get got
        rw [List.mem_singleton]
        constructor
        · rintro rfl
          exact ⟨linted, within, isPub, m, owner, found, named, rfl⟩
        · rintro ⟨-, -, -, m', owner', found', named', rfl⟩
          rw [found] at found'
          cases found'
          rw [named] at named'
          cases named'
          rfl
  · next unlinted => exact nothing fun d flagged => absurd flagged.linted unlinted

/-- Nothing that is said then is about a name that is taken. -/
theorem Flagged.not_redefinition (h : Flagged imports directive text source binding s d) :
    d.isRedefinition = false := by
  obtain ⟨-, -, -, _, _, -, -, rfl⟩ := h
  rfl

/-- Whatever an import has found in a module it has been warned of, if there is something to warn
    of. -/
def Warned (imports : Imports n) (directive : Directive) (text : String)
    (found : List (Namespace × ModuleId × Binding)) (s : ImportState n) : Prop :=
  ∀ p ∈ found, ∀ d, Flagged imports directive text p.2.1 p.2.2 s d → d ∈ s.diagnostics

theorem Warned.withStatus {found : List (Namespace × ModuleId × Binding)}
    (h : Warned imports directive text found s) (j : Fin n) (status : ImportStatus) :
    Warned imports directive text found (s.withStatus j status) :=
  fun p mem d ⟨linted, outside, hidden, warning⟩ =>
    h p mem d ⟨linted, outside, hidden, warning⟩

end Importing

namespace Lookup

open Importing

variable {target : ImportTarget} {bare : Bool}

theorem run_bindTarget_brings :
    Run True (bindTarget imports directive target bare ns source binding) s log fun _ s' log' =>
      Brings directive target.name ns source binding s s' ∧
        (bare = false → ∀ d, Flagged imports directive target.last.name source binding s d →
          d ∈ s'.diagnostics) ∧ log.Notes (BindsNoted s s') log' := by
  simp only [bindTarget, lift, Run.bind_iff, Run.get_iff, Run.lift_iff]
  refine Yields.true_iff.mpr fun inside within => Yields.true_iff.mpr fun pub isPub => ?_
  split
  · next isBare =>
    apply run_bindImport_noted.mono
    rintro _ _ _ ⟨outcome, notes⟩
    exact ⟨.of_outcome within isPub outcome, by simp [isBare], notes⟩
  · rw [Run.bind_iff]
    apply run_checkPrivate_flags.mono
    rintro _ _ _ ⟨more, flags, rfl, rfl⟩
    apply run_bindImport_noted.mono
    rintro _ s₁ _ ⟨outcome, notes⟩
    obtain ⟨later, eq⟩ := outcome.diagnostics
    refine ⟨.intro within isPub (fun d mem => ((flags d).mp mem).not_redefinition) outcome,
      fun _ d flagged => ?_, notes⟩
    rw [eq]
    exact List.mem_append_left _ (List.mem_append_right _ ((flags d).mpr flagged))

/-- All is brought in, and checked unless it is a bare name. The tables are in order all the
    while. -/
theorem run_bindTargets_brings (found : List (Namespace × ModuleId × Binding))
    {s : ImportState n} {log : Log} (prepared : Prepared labels directive found s) :
    Run True (bindTargets imports directive target bare found) s log fun _ s' log' =>
      BringsAll directive target.name found s s' ∧
        (bare = false → Warned imports directive target.last.name found s') ∧
        log.NotesSound labels log' := by
  induction found generalizing s log with
  | nil => exact ⟨.nil, fun _ => List.forall_mem_nil _, .refl log⟩
  | cons first others ih =>
    obtain ⟨ns, source, binding⟩ := first
    rw [bindTargets, Run.bind_iff]
    apply run_bindTarget_brings.mono
    rintro _ s₁ log₁ ⟨brings, warned, notes⟩
    obtain ⟨later₁, prepared₁⟩ := prepared.first brings
    apply (ih prepared₁).mono
    rintro _ s₂ log₂ ⟨bringsAll, warnedAll, notesAll⟩
    refine ⟨.cons brings bringsAll, fun notBare => List.forall_mem_cons.mpr
      ⟨fun d flagged => ?_, warnedAll notBare⟩, (later₁.notes prepared.sound notes).trans notesAll⟩
    have later := later₁.trans (bringsAll.later prepared₁)
    have good := (prepared.sorted _ (List.mem_cons_self ..)).good
    have before := flagged.of_later later prepared.sound prepared.home good
    obtain ⟨more, eq⟩ := bringsAll.diagnostics
    rw [eq]
    exact List.mem_append_left _ (warned notBare d before)

end Lookup

namespace Importing

/-- A single import has come to its end in the course of the phase, with what it has found. Unless
    that was by a bare name, it has been warned of it. -/
inductive Linted (imports : Imports n) (start : ImportState n) (i : Fin n) (s : ImportState n) :
    Prop where
  | intro {target : ImportTarget} {module : ModuleId}
      {found : List (Namespace × ModuleId × Binding)} {before after : ImportState n}
      (hasTarget : (imports.get i).target? = some target)
      (reached : Steps imports [] start before) (inProgress : before.statusOf i = .inProgress)
      (finds : SingleFound imports i before target module found) (notEmpty : found ≠ [])
      (brings : BringsAll (imports.get i) target.name found before after)
      (warned : (target.lead.isEmpty && !(imports.get i).path.global) = false →
        Warned imports (imports.get i) target.last.name found after)
      (since : Steps imports [] (after.withStatus i (.done none)) s)

theorem Linted.step (h : Linted imports start i s) (step : Step imports opened s s') :
    Linted imports start i s' := by
  have later : Steps imports [] s s' := (Steps.single step).mono (List.nil_subset _)
  obtain ⟨hasTarget, reached, inProgress, finds, notEmpty, brings, warned, since⟩ := h
  exact ⟨hasTarget, reached, inProgress, finds, notEmpty, brings, warned, since.trans later⟩

end Importing

end NameResolution
