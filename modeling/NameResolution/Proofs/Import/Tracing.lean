import NameResolution.Proofs.Import.Lint

/-! # Following paths while imports are resolved

    What is found on the way of a path is still there when the tables are
    finished, and it is found there by a plain lookup. What is missed may turn
    up later only where a glob brings it in: the single imports that could bind
    it have come to their end. So a path that leads nowhere, and not for a
    cycle, leads nowhere in the end, unless it comes upon such a name. -/

namespace NameResolution

variable {n : Nat} {labels : NodeId → String → Prop} {imports : Imports n}
  {start s s' e : ImportState n} {log : Log} {opened : List (Fin n)}

namespace Importing

open Lookup

/-! ## In the course of some directives -/

/-- The path of a directive leads nowhere, now and in whatever comes about beside it, as far as it
    comes upon no name that a glob has brought in. -/
def Lost (imports : Imports n) (i : Fin n) (s : ImportState n) : Prop :=
  ∀ e, Beside imports i s e → (followPath imports (explicit imports) i).Fails e

/-- From where it has started the import phase has come in order into the course of some
    directives, those in progress. Whoever has failed has been reported and, unless it is for a
    cycle, is lost. Single imports that are done have been checked. -/
structure Course (labels : NodeId → String → Prop) (imports : Imports n) (start : ImportState n)
    (opened : List (Fin n)) (s : ImportState n) : Prop where
  inOrder : InOrder labels imports s
  reached : Steps imports [] start s
  inProgress : ∀ i, i ∈ opened ↔ s.statusOf i = .inProgress
  lost : ∀ i, s.statusOf i = .failed → Lost imports i s
  reported : ∀ i, s.statusOf i = .failed ∨ s.statusOf i = .cycleFailed →
    hasErrors s.diagnostics = true
  linted : ∀ i source, (imports.get i).isGlob = false → s.statusOf i = .done source →
    Linted imports start i s

theorem Lost.beside {i : Fin n} (h : Lost imports i s) (beside : Beside imports i s s') :
    Lost imports i s' := fun e later => h e (beside.trans later)

/-- Whoever has failed takes no part in what comes next. -/
theorem Step.beside {i : Fin n} (step : Step imports opened s s')
    (failed : s.statusOf i = .failed) : Beside imports i s s' := by
  refine Relation.ReflTransGen.single (.inl ?_)
  cases step with
  | @moves j _ _ move =>
    refine .moves ?_ move
    rw [List.mem_singleton]
    rintro rfl
    exact move.not_failed failed
  | reports others => exact .reports others

namespace Course

/-- A step that leaves all statuses as they are. -/
theorem step (h : Course labels imports start opened s) (step : Step imports opened s s')
    (same : s'.statusOf = s.statusOf) : Course labels imports start opened s' where
  inOrder := (h.inOrder.step step).inOrder h.inOrder
  reached := h.reached.trans ((Steps.single step).mono (List.nil_subset _))
  inProgress i := by
    rw [same]
    exact h.inProgress i
  lost i failed := by
    rw [same] at failed
    exact (h.lost i failed).beside (step.beside failed)
  reported i failed := by
    rw [same] at failed
    exact Steps.hasErrors (.single step) (h.reported i failed)
  linted i source single done := by
    rw [same] at done
    exact (h.linted i source single done).step step

theorem reports (h : Course labels imports start opened s) {more : List Diagnostic}
    (others : ∀ d ∈ more, d.isRedefinition = false) :
    Course labels imports start opened { s with diagnostics := s.diagnostics ++ more } :=
  h.step (.reports others) rfl

end Course

/-! ## Attempts -/

/-- What an attempt has come to, unless for a cycle, comes of another one that only reads or
    stops. -/
def Mirrors {α : Type} (m : Attempt n α) (s : ImportState n) : Except ImportFailure α → Prop
  | .ok a => m.Stops s ∨ m.Reads s (.ok a)
  | .error failure => failure ≠ .cycle → m.Fails s

section

variable {α β : Type} {m : Attempt n α} {f : α → Attempt n β} {r : Except ImportFailure β}

theorem Mirrors.of_stops {r : Except ImportFailure α} (h : m.Stops s) : Mirrors m s r := by
  cases r with
  | ok a => exact .inl h
  | error failure => exact fun _ => .inl h

/-- Behind what is read. -/
theorem Mirrors.after {a : α} (reads : m.Reads s (.ok a)) (h : Mirrors (f a) s r) :
    Mirrors (m >>= f) s r := by
  cases r with
  | ok b => exact h.imp reads.stops reads.bind
  | error failure =>
    intro notCycle
    rcases h notCycle with stops | ⟨failure', later⟩
    · exact .inl (reads.stops stops)
    · exact .inr ⟨failure', reads.bind later⟩

theorem Mirrors.bind {a : α} (first : Mirrors m s (.ok a)) (h : Mirrors (f a) s r) :
    Mirrors (m >>= f) s r := by
  rcases first with stops | reads
  · exact .of_stops stops.bind
  · exact h.after reads

end

/-- How an attempt ends that one directive makes in the course of some, by the side of one that
    only reads the tables as they will be. Whenever a moment is noted on its way, the tables are in
    order. -/
structure Ends {α : Type} (labels : NodeId → String → Prop) (imports : Imports n)
    (start : ImportState n) (i : Fin n) (opened : List (Fin n)) (m : Attempt n α)
    (found : α → ImportState n → Prop) (s : ImportState n) (log : Log)
    (r : Except ImportFailure α) (s' : ImportState n) (log' : Log) : Prop where
  path : Steps imports opened s s'
  notes : log.NotesSound labels log'
  course : Course labels imports start opened s'
  mirrors : ∀ e, Beside imports i s' e → Mirrors m e r
  cycle : r = .error .cycle → hasErrors s'.diagnostics = true
  found : ∀ a, r = .ok a → found a s'

/-- From this state the first attempt ends by the side of the second. -/
def Traces {α : Type} (labels : NodeId → String → Prop) (imports : Imports n)
    (start : ImportState n) (i : Fin n) (opened : List (Fin n)) (m m' : Attempt n α)
    (found : α → ImportState n → Prop) (s : ImportState n) : Prop :=
  ∀ log, Tries True m s log fun r s' log' =>
    Ends labels imports start i opened m' found s log r s' log'

section

variable {α β : Type} {i : Fin n} {m m' : Attempt n α}
  {found : α → ImportState n → Prop} {found' : β → ImportState n → Prop}

/-- An attempt that reads what stays as it is. -/
theorem Course.traces (course : Course labels imports start opened s)
    (h : ∀ log, Tries True m s log fun r s' log' => (s' = s ∧ log' = log) ∧
      (∀ e, Later labels s e → Mirrors m' e r) ∧ r ≠ .error .cycle ∧ ∀ a, r = .ok a → found a s) :
    Traces labels imports start i opened m m' found s := by
  intro log
  apply (h log).mono
  rintro r _ _ ⟨⟨rfl, rfl⟩, mirrors, notCycle, holds⟩
  exact ⟨.refl _, .refl _, course, fun e beside => mirrors e (course.inOrder.beside beside),
    fun cycle => absurd cycle notCycle, holds⟩

namespace Traces

theorem pure {a : α} (course : Course labels imports start opened s) (holds : found a s) :
    Traces labels imports start i opened (Pure.pure a) (Pure.pure a) found s := by
  intro log
  exact ⟨.refl s, .refl log, course, fun e _ => .inr (.pure a), by simp,
    fun b eq => Except.ok.inj eq ▸ holds⟩

theorem throw {failure : ImportFailure} (course : Course labels imports start opened s)
    (notCycle : failure ≠ .cycle) :
    Traces labels imports start i opened (MonadExcept.throw failure) (MonadExcept.throw failure)
      found s := by
  intro log
  exact ⟨.refl s, .refl log, course, fun e _ _ => .inr ⟨failure, .throw failure⟩,
    fun cycle => absurd (Except.error.inj cycle) notCycle, by simp⟩

/-- What has come of the first part comes of it still while the second goes on. -/
theorem bind {f f' : α → Attempt n β} (mem : i ∈ opened)
    (h : Traces labels imports start i opened m m' found s)
    (h' : ∀ a s', Steps imports opened s s' → Course labels imports start opened s' → found a s' →
      Traces labels imports start i opened (f a) (f' a) found' s') :
    Traces labels imports start i opened (m >>= f) (m' >>= f') found' s := by
  intro log
  rw [Tries.bind_iff]
  apply (h log).mono
  intro r s₁ log₁ ended
  cases r with
  | error failure =>
    refine ⟨ended.path, ended.notes, ended.course, fun e beside notCycle => ?_, fun cycle => ?_,
      by simp⟩
    · exact (ended.mirrors e beside notCycle).bind
    · cases cycle
      exact ended.cycle rfl
  | ok a =>
    apply (h' a s₁ ended.path ended.course (ended.found a rfl) log₁).mono
    intro r s₂ log₂ ended'
    refine ⟨ended.path.trans ended'.path, ended.notes.trans ended'.notes, ended'.course,
      fun e beside => ?_, ended'.cycle, ended'.found⟩
    have first := ended.mirrors e ((ended'.path.beside mem).trans beside)
    exact .bind first (ended'.mirrors e beside)

/-- The same attempt, with less to say of what it finds. -/
theorem mono {found₁ : α → ImportState n → Prop}
    (h : Traces labels imports start i opened m m' found s)
    (imp : ∀ a s', Steps imports opened s s' → found a s' → found₁ a s') :
    Traces labels imports start i opened m m' found₁ s := by
  intro log
  apply (h log).mono
  intro r s' log' ended
  exact ⟨ended.path, ended.notes, ended.course, ended.mirrors, ended.cycle,
    fun a eq => imp a s' ended.path (ended.found a eq)⟩

end Traces

end

end Importing

namespace Lookup

open Importing

variable {i : Fin n}

/-! ## Reading the tables -/

theorem traces_enclosingMod (course : Course labels imports start opened s) (module : ModuleId) :
    Traces labels imports start i opened (enclosingMod module) (enclosingMod module)
      (fun next s' => s'.tree.enclosingMod s'.defs module = .ok next) s := by
  refine course.traces fun log => ?_
  simp only [enclosingMod, Tries.bind_iff, Tries.get_iff, Attempt.tries_lift_iff]
  refine Yields.true_iff.mpr fun next got => ⟨⟨trivial, trivial⟩, fun e later => ?_, by simp, ?_⟩
  · exact .inr (.bind .get (.lift (later.tree.enclosingMod later.defs_keeps got)))
  · rintro _ ⟨⟩
    exact got

theorem traces_outerMod (course : Course labels imports start opened s) (module : ModuleId) :
    Traces labels imports start i opened (outerMod module) (outerMod module)
      (fun next s' => OuterMod s' module next) s := by
  refine course.traces fun log => ?_
  simp only [outerMod, enclosingMod, Tries.bind_iff, Tries.get_iff, Attempt.tries_lift_iff]
  refine Yields.true_iff.mpr fun current got => Yields.true_iff.mpr fun m gotModule => ?_
  -- the enclosing module is found again later, with the same parent
  have again {e : ImportState n} (later : Later labels s e) :
      (enclosingMod module).Reads e (.ok current) ∧
        ∃ m', e.tree.get current = .ok m' ∧ m'.parent = m.parent := by
    obtain ⟨names, found⟩ := later.tree.module (ModuleTree.find?_of_get gotModule)
    exact ⟨.bind .get (.lift (later.tree.enclosingMod later.defs_keeps got)), _,
      ModuleTree.get_of_find? found, rfl⟩
  split
  · next parent inside =>
    simp only [Tries.bind_iff, Tries.get_iff, Attempt.tries_lift_iff]
    refine Yields.true_iff.mpr fun next gotOuter =>
      ⟨⟨trivial, trivial⟩, fun e later => ?_, by simp, ?_⟩
    · obtain ⟨first, m', gotAgain, same⟩ := again later
      refine .after first (.after .get (.after (.lift gotAgain) ?_))
      rw [same, inside]
      exact .inr (.bind .get (.lift (later.tree.enclosingMod later.defs_keeps gotOuter)))
    · rintro _ ⟨⟩
      exact ⟨current, m, parent, got, gotModule, inside, gotOuter⟩
  · next inside =>
    refine ⟨⟨rfl, rfl⟩, fun e later => ?_, by rintro ⟨⟩, by rintro _ ⟨⟩⟩
    obtain ⟨first, m', gotAgain, same⟩ := again later
    refine .after first (.after .get (.after (.lift gotAgain) ?_))
    rw [same, inside]
    exact fun _ => .inr ⟨_, .throw _⟩

/-- A place that has been named can be named later. -/
theorem reads_placeText {module : ModuleId} (known : e.tree.Known module)
    (intact : Intact e.defs e.tree) :
    ∃ place, placeText e.tree e.defs module = .ok place := by
  obtain ⟨place, named, -⟩ := Yields.false_iff.mp (yields_placeText intact known)
  exact ⟨place, named⟩

theorem known_of_placeText {module : ModuleId} {place : String}
    (named : placeText s.tree s.defs module = .ok place) : s.tree.Known module := by
  obtain ⟨m, got, -⟩ := Except.bind_eq_ok.mp named
  exact ModuleTree.known_of_find? (ModuleTree.find?_of_get got)

/-- Where an attempt fails with the name of a module, it does so later, be the module called
    something else by then or not. -/
theorem traces_throw_place {α : Type} {found : α → ImportState n → Prop}
    (course : Course labels imports start opened s) (module : ModuleId)
    {failure : String → ImportFailure} (notCycle : ∀ place, failure place ≠ .cycle) :
    let fails : Attempt n α := do
      let s ← get
      let place ← Attempt.lift (placeText s.tree s.defs module)
      throw (failure place)
    Traces labels imports start i opened fails fails found s := by
  refine course.traces fun log => ?_
  simp only [Tries.bind_iff, Tries.get_iff, Attempt.tries_lift_iff, Tries.throw_iff]
  refine Yields.true_iff.mpr fun place named =>
    ⟨⟨trivial, trivial⟩, fun e later _ => ?_, ?_, by simp⟩
  · have known := later.tree.known_iff.mpr (known_of_placeText named)
    obtain ⟨place', named'⟩ := reads_placeText known later.sound.intact
    exact .inr ⟨_, .bind .get (.bind (.lift named') (.throw _))⟩
  · exact fun eq => notCycle place (Except.error.inj eq)

theorem traces_moduleOf (course : Course labels imports start opened s) (module : ModuleId)
    (name : String) {found : Option Binding} (good : ∀ b, found = some b → b.Good s.defs .type) :
    Traces labels imports start i opened (moduleOf module name found) (moduleOf module name found)
      (fun next s' => ∃ binding, found = some binding ∧ LeadsTo s' binding next) s := by
  have sound := course.inOrder.sound
  cases found with
  | none => exact traces_throw_place course module fun _ => by simp
  | some binding =>
    refine course.traces fun log => ?_
    simp only [moduleOf, Tries.bind_iff, Tries.get_iff, Attempt.tries_lift_iff]
    refine Yields.true_iff.mpr fun id got => ?_
    have reads {e : ImportState n} (later : Later labels s e) :
        (Attempt.lift (definitionOf e.defs binding) : Attempt n DefId).Reads e (.ok id) :=
      .lift (later_definitionOf sound later (good binding rfl) got)
    split
    · next next held =>
      refine ⟨⟨rfl, rfl⟩, fun e later => ?_, by simp, ?_⟩
      · refine .inr (.bind .get (.bind (reads later) ?_))
        rw [later.defs.module?, held]
        exact .pure next
      · rintro _ ⟨⟩
        exact ⟨binding, rfl, id, got, held⟩
    · next none =>
      simp only [Tries.bind_iff, Attempt.tries_lift_iff, Tries.throw_iff]
      refine Yields.true_iff.mpr fun d gotDef =>
        ⟨⟨trivial, trivial⟩, fun e later _ => ?_, by simp, by simp⟩
      refine .inr ⟨.notModule name d.kind, .bind .get (.bind (reads later) ?_)⟩
      rw [later.defs.module?, none]
      exact .bind (.lift (later.defs_keeps.get gotDef)) (.throw _)

/-! ## Over lookups -/

/-- What a lookup has found. If it is nothing, nobody but the asker may still bind the name. -/
structure Answered (imports : Imports n) (i : Fin n) (module : ModuleId) (ns : Namespace)
    (name : String) (found : Option Binding) (s : ImportState n) : Prop where
  bound : s.tree.bindingAt? module ns name = found
  settled : found = none → Settled imports s i module name

theorem Answered.missing {i : Fin n} {module : ModuleId} {ns : Namespace} {name : String}
    (h : Answered imports i module ns name none s) : Missing imports i s module ns name := by
  refine ⟨h.settled rfl, fun binding bound => ?_⟩
  rw [h.bound] at bound
  cases bound

/-- A way to look names up by whose side one that reads the tables finds the same. -/
def Traced (labels : NodeId → String → Prop) (imports : Imports n) (start : ImportState n)
    (lookup : Lookup n) : Prop :=
  ∀ {asker asker' : Asker n} {module : ModuleId} (ns : Namespace) {name : String}
    {s : ImportState n}, Course labels imports start asker.opened s →
    Traces labels imports start asker.index asker.opened (lookup asker module ns name)
      (explicit imports asker' module ns name) (Answered imports asker.index module ns name) s

namespace Traced

variable {lookup : Lookup n} {asker : Asker n} (asker' : Asker n) {name : String}

theorem inAnyOf (traced : Traced labels imports start lookup) (mem : asker.index ∈ asker.opened)
    (ns : Namespace) (modules : List ModuleId) {s : ImportState n}
    (course : Course labels imports start asker.opened s) :
    Traces labels imports start asker.index asker.opened (inAnyOf lookup asker ns name modules)
      (inAnyOf (explicit imports) asker' ns name modules)
      (fun found s' => FoundAmong imports asker.index s' ns name modules found) s := by
  induction modules generalizing s with
  | nil => exact .pure course .nowhere
  | cons module modules ih =>
    refine .bind mem (traced ns course) ?_
    intro found s₁ path course₁ answered
    cases found with
    | some binding => exact .pure course₁ (.here answered.bound)
    | none =>
      refine (ih course₁).mono fun found s₂ path₂ among => ?_
      exact .further (answered.missing.beside course₁.inOrder (path₂.beside mem)) among

theorem outward (traced : Traced labels imports start lookup) (mem : asker.index ∈ asker.opened)
    (ns : Namespace) (module : ModuleId) (course : Course labels imports start asker.opened s) :
    Traces labels imports start asker.index asker.opened (outward lookup asker module ns name)
      (outward (explicit imports) asker' module ns name)
      (fun found s' =>
        FoundAmong imports asker.index s' ns name (s'.tree.around module) found) s := by
  intro log
  simp only [Lookup.outward, Tries.bind_iff, Tries.get_iff, Attempt.tries_lift_iff]
  refine Yields.true_iff.mpr fun ms around => ?_
  have eq : s.tree.around module = ms.map (·.id) := by rw [ModuleTree.around, around]
  apply (traced.inAnyOf asker' mem ns (ms.map (·.id)) course log).mono
  intro r s₁ log₁ ended
  refine ⟨ended.path, ended.notes, ended.course, fun e beside => ?_, ended.cycle,
    fun found isFound => ?_⟩
  · -- later the modules around are the same ones, whatever names they have
    have later := (course.inOrder.path ended.path).trans (ended.course.inOrder.beside beside)
    obtain ⟨ms', around', same⟩ := later.tree.ancestors around
    refine .after .get (.after (.lift around') ?_)
    rw [map_id_of_samePlace same]
    exact ended.mirrors e beside
  · rw [(course.inOrder.path ended.path).tree.around, eq]
    exact ended.found found isFound

theorem followModules (traced : Traced labels imports start lookup)
    (mem : asker.index ∈ asker.opened) (segments : List Segment) (position : PathPosition)
    (module : ModuleId) {s : ImportState n}
    (course : Course labels imports start asker.opened s) :
    Traces labels imports start asker.index asker.opened
      (followModules lookup asker position module segments)
      (followModules (explicit imports) asker' position module segments)
      (fun final s' => Arrives imports asker.index s' position module segments final) s := by
  -- each segment leads both to the same module, and they go on from there
  induction segments generalizing position module s with
  | nil =>
    unfold Lookup.followModules
    exact .pure course .here
  | cons segment segments ih =>
    have goOn {position : PathPosition} {next : ModuleId} {s₁ : ImportState n}
        (course₁ : Course labels imports start asker.opened s₁)
        {whole : ModuleId → ImportState n → Prop} (imp : ∀ final s₂, Later labels s₁ s₂ →
          Beside imports asker.index s₁ s₂ →
          Arrives imports asker.index s₂ position next segments final → whole final s₂) :
        Traces labels imports start asker.index asker.opened
          (Lookup.followModules lookup asker position next segments)
          (Lookup.followModules (explicit imports) asker' position next segments) whole s₁ :=
      (ih position next course₁).mono fun final s₂ path =>
        imp final s₂ (course₁.inOrder.path path) (path.beside mem)
    unfold Lookup.followModules
    split
    · next isSelf =>
      refine .bind mem (traces_enclosingMod course module) fun next s₁ _ course₁ enclosing => ?_
      exact goOn course₁ fun final s₂ later _ others =>
        .selfModule isSelf (later.tree.enclosingMod later.defs_keeps enclosing) others
    · next isSuper =>
      refine .bind mem (traces_outerMod course module) fun next s₁ _ course₁ outer => ?_
      exact goOn course₁ fun final s₂ later _ others =>
        .super isSuper (by simp) (outer.later later) others
    · next isSuper =>
      refine .bind mem (traces_outerMod course module) fun next s₁ _ course₁ outer => ?_
      exact goOn course₁ fun final s₂ later _ others =>
        .super isSuper (by simp) (outer.later later) others
    · next name isName =>
      refine .bind mem (traced.outward asker' mem .type module course) ?_
      intro found s₁ _ course₁ among
      have good : ∀ b, found.map (·.2) = some b → b.Good s₁.defs .type := by
        intro b eq
        obtain ⟨p, isFound, rfl⟩ := Option.map_eq_some_iff.mp eq
        exact course₁.inOrder.sound.intact.bindings (among.bound isFound).2
      refine .bind mem (traces_moduleOf course₁ module name good) ?_
      intro next s₂ path₂ course₂ held
      obtain ⟨b, eq, leadsTo⟩ := held
      obtain ⟨p, rfl, rfl⟩ := Option.map_eq_some_iff.mp eq
      have among₂ := among.beside course₁.inOrder (path₂.beside mem)
      rw [← (course₁.inOrder.path path₂).tree.around] at among₂
      have good₂ := course₂.inOrder.sound.intact.bindings (among₂.bound rfl).2
      refine goOn course₂ fun final s₃ later beside others => ?_
      have among₃ := among₂.beside course₂.inOrder beside
      rw [← later.tree.around] at among₃
      exact .outward isName among₃ (leadsTo.later course₂.inOrder.sound later good₂) others
    · next name isName behind =>
      refine .bind mem (traced .type course) ?_
      intro found s₁ _ course₁ answered
      have good : ∀ b, found = some b → b.Good s₁.defs .type := by
        rintro b rfl
        exact course₁.inOrder.sound.intact.bindings answered.bound
      refine .bind mem (traces_moduleOf course₁ module name good) ?_
      intro next s₂ path₂ course₂ held
      obtain ⟨binding, rfl, leadsTo⟩ := held
      have bound := (course₁.inOrder.path path₂).tree_keeps.bound answered.bound
      have good₂ := course₂.inOrder.sound.intact.bindings bound
      exact goOn course₂ fun final s₃ later _ others =>
        .member isName behind (later.tree_keeps.bound bound)
          (leadsTo.later course₂.inOrder.sound later good₂) others
    · exact .throw course (by simp)

theorem modulePath (traced : Traced labels imports start lookup) (mem : asker.index ∈ asker.opened)
    (directive : Directive) (segments : List Segment)
    (course : Course labels imports start asker.opened s) :
    Traces labels imports start asker.index asker.opened
      (modulePath lookup asker directive.module directive.path.global segments)
      (modulePath (explicit imports) asker' directive.module directive.path.global segments)
      (fun final s' => Arrives imports asker.index s' (firstPosition directive)
        (firstModule directive) segments final) s := by
  unfold Lookup.modulePath firstPosition firstModule
  split
  · exact traced.followModules asker' mem segments _ _ course
  · exact traced.followModules asker' mem segments _ _ course

/-! ## Single imports -/

theorem findTargets (traced : Traced labels imports start lookup) (mem : asker.index ∈ asker.opened)
    (module : ModuleId) (bare : Bool) {places : List ModuleId} (namespaces : List Namespace)
    {s : ImportState n}
    (course : Course labels imports start asker.opened s)
    (isPlaces : places = if bare then s.tree.around module else [module]) :
    Traces labels imports start asker.index asker.opened
      (findTargets lookup asker module bare name namespaces)
      (findTargets (explicit imports) asker' module bare name namespaces)
      (fun found s' => TargetsAmong imports asker.index s' name places namespaces found) s := by
  induction namespaces generalizing s with
  | nil => exact .pure course ⟨List.forall_mem_nil _, List.forall_mem_nil _⟩
  | cons ns others ih =>
    -- whatever the first namespace gives, the others are searched after it
    have rest (found : Option (ModuleId × Binding)) (s₁ : ImportState n)
        (path : Steps imports asker.opened s s₁)
        (course₁ : Course labels imports start asker.opened s₁)
        (among : FoundAmong imports asker.index s₁ ns name places found) :
        Traces labels imports start asker.index asker.opened
          (do
            let rest ← Lookup.findTargets lookup asker module bare name others
            return found.toList.map (ns, ·) ++ rest)
          (do
            let rest ← Lookup.findTargets (explicit imports) asker' module bare name others
            return found.toList.map (ns, ·) ++ rest)
          (fun found s' =>
            TargetsAmong imports asker.index s' name places (ns :: others) found) s₁ := by
      have isPlaces₁ : places = if bare then s₁.tree.around module else [module] := by
        rw [(course.inOrder.path path).tree.around]
        exact isPlaces
      refine .bind mem (ih course₁ isPlaces₁) fun rest s₂ path₂ course₂ targets => ?_
      exact .pure course₂ (.cons (among.beside course₁.inOrder (path₂.beside mem)) targets)
    rw [Lookup.findTargets, Lookup.findTargets]
    cases bare with
    | true =>
      rw [if_pos rfl, if_pos rfl]
      refine .bind mem (traced.outward asker' mem ns module course) ?_
      intro found s₁ path course₁ among
      have same : places = s₁.tree.around module := by
        rw [(course.inOrder.path path).tree.around]
        exact isPlaces
      rw [← same] at among
      exact rest found s₁ path course₁ among
    | false =>
      rw [if_neg Bool.false_ne_true, if_neg Bool.false_ne_true]
      have isPlaces : places = [module] := isPlaces
      subst isPlaces
      refine .bind mem (traced ns course) fun found s₁ path course₁ answered => ?_
      have among : FoundAmong imports asker.index s₁ ns name [module]
          (found.map (module, ·)) := by
        cases found with
        | some binding => exact .here answered.bound
        | none => exact .further answered.missing .nowhere
      exact rest (found.map (module, ·)) s₁ path course₁ among

theorem findSingle (traced : Traced labels imports start lookup) (mem : asker.index ∈ asker.opened)
    (same : asker'.index = asker.index) (target : ImportTarget)
    (course : Course labels imports start asker.opened s) :
    Traces labels imports start asker.index asker.opened (findSingle imports lookup asker target)
      (findSingle imports (explicit imports) asker' target)
      (fun found s' => found ≠ [] ∧
        ∃ module, SingleFound imports asker.index s' target module found) s := by
  unfold Lookup.findSingle
  rw [same]
  refine .bind mem (traced.modulePath asker' mem (imports.get asker.index) target.lead course) ?_
  intro module s₁ _ course₁ arrives
  refine .bind mem (traced.findTargets asker' mem module _ _ course₁ rfl) ?_
  intro found s₂ path₂ course₂ targets
  split
  · exact traces_throw_place course₂ module fun _ => by simp
  · next some =>
    refine .pure course₂ ⟨by simpa using some, module,
      arrives.beside course₁.inOrder (path₂.beside mem), ?_⟩
    unfold Importing.places
    split
    · next bare =>
      -- a bare name has no path that could lead away from the directive
      have isHome : module = (imports.get asker.index).module := by
        obtain ⟨noLead, notGlobal⟩ := (Bool.and_eq_true _ _).mp bare
        rw [List.isEmpty_iff.mp noLead] at arrives
        rw [arrives.eq_of_nil, firstModule, if_neg (by simpa using notGlobal)]
      rw [if_pos bare, isHome, ← (course₁.inOrder.path path₂).tree.around] at targets
      exact targets
    · next notBare =>
      rw [if_neg notBare] at targets
      exact targets

/-! ## Globs -/

theorem globPath (traced : Traced labels imports start lookup) (asker asker' : Asker n)
    (mem : asker.index ∈ asker.opened) (same : asker'.index = asker.index)
    (course : Course labels imports start asker.opened s) :
    Traces labels imports start asker.index asker.opened (globPath imports lookup asker)
      (globPath imports (explicit imports) asker') (fun _ _ => True) s := by
  unfold Lookup.globPath
  rw [same]
  dsimp only
  split
  · exact .throw course (by simp)
  · exact (traced.modulePath asker' mem (imports.get asker.index) _ course).mono
      fun _ _ _ _ => trivial

end Traced

end Lookup

end NameResolution
