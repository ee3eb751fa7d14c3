import NameResolution.Session
import NameResolution.Proofs.Import.Writes
import NameResolution.Proofs.Resolution.Run

/-! # Both passes over one program

    The passes rely on what the parser hands over: no two nodes share a number,
    and every path has a segment. Such a program is built and resolved without a
    fault, whatever mistakes there are in it, and each of its nodes comes to
    what the text says. -/

namespace NameResolution

/-- What the passes rely on. The paths of `use` declarations may be empty. -/
structure Program.WellFormed (program : Program) : Prop where
  distinct : program.nodes.Nodup
  spelled : ∀ occ ∈ program.occurrences, ∀ path ∈ occ.role.path?, path.segments ≠ []

namespace Session

/-- The tables that the second pass reads. -/
def tables (session : Session) : Tables := ⟨session.defs, session.tree, session.config⟩

/-- A session over the program between the passes. -/
structure Built (session : Session) (program : Program) : Prop where
  treeBuilt : session.treeBuilt = true
  namesResolved : session.namesResolved = false
  covers : Covers session.defs session.tree program

/-- The first pass goes through in a session over empty tables. -/
theorem build_completes_of_empty {session : Session} (defs : session.defs = .empty)
    (tree : session.tree = .new) (treeBuilt : session.treeBuilt = false)
    (namesResolved : session.namesResolved = false) {program : Program}
    (distinct : program.nodes.Nodup) (log : Log) : ∃ reported built log',
      session.build program log = .ok (reported, built) log' ∧ built.Built program := by
  obtain ⟨_, s₁, log₁, declared, covers, homes⟩ := Run.false_iff.mp
    (Declaring.run_wholeProgram distinct (log.push .buildStarted))
  obtain ⟨s₂, log₂, imported, intact, grows, grows'⟩ :=
    resolveImports_completes covers.intact session.config.lintPrivateAccess homes log₁
  obtain ⟨text, printed, -⟩ := Yields.false_iff.mp intact.print
  -- the three parts of the build, with the log that each of them leaves
  have declaration : declareProgram .empty .new program (log.push .buildStarted) = .ok s₁ log₁ :=
    Logged.bind_eq_ok.mpr ⟨_, log₁, declared, rfl⟩
  let built : Session := { session with defs := s₂.defs, tree := s₂.tree, treeBuilt := true }
  refine ⟨s₁.diagnostics ++ s₂.diagnostics, built,
    if session.config.printModuleTree then log₂.push (.moduleTree text) else log₂, ?_,
    rfl, namesResolved, covers.grow intact grows grows'⟩
  simp only [build, defs, tree, treeBuilt, Bool.false_eq_true, if_false]
  refine Logged.bind_eq_ok.mpr ⟨(), log.push .buildStarted, rfl, ?_⟩
  refine Logged.bind_eq_ok.mpr ⟨s₁, log₁, declaration, ?_⟩
  refine Logged.bind_eq_ok.mpr ⟨s₂, log₂, imported, ?_⟩
  by_cases print : session.config.printModuleTree = true
  · rw [if_pos print, if_pos print, printed]
    rfl
  · rw [if_neg print, if_neg print]
    rfl

theorem build_completes (config : Config) {program : Program} (distinct : program.nodes.Nodup)
    (log : Log) : ∃ reported built log',
      (new config).build program log = .ok (reported, built) log' ∧ built.Built program :=
  build_completes_of_empty rfl rfl rfl rfl distinct log

/-- What the second pass comes to is what it comes to in a session between the passes. -/
theorem resolve_of_resolveNames {session : Session} {program : Program}
    (built : session.Built program) {s : ResolveState} {log log' : Log}
    (run : resolveNames session.tables program (log.push .resolveStarted) = .ok s log') :
    session.resolve program log = .ok (s.diagnostics,
      { session with resolutions := s.resolutions, namesResolved := true }) log' := by
  simp only [resolve, built.treeBuilt, built.namesResolved, Bool.not_true, Bool.false_eq_true,
    if_false]
  refine Logged.bind_eq_ok.mpr ⟨(), log.push .resolveStarted, rfl, ?_⟩
  exact Logged.bind_eq_ok.mpr ⟨s, log', run, rfl⟩

/-- What the second pass does in a session between the passes. -/
theorem resolve_completes {session : Session} {program : Program} (built : session.Built program)
    (wellFormed : program.WellFormed) (log : Log) : ∃ s log',
      session.resolve program log = .ok (s.diagnostics,
        { session with resolutions := s.resolutions, namesResolved := true }) log' ∧
      Resolves session.tables program.occurrences .start s := by
  have covers : Covers session.tables.defs session.tables.tree program := built.covers
  obtain ⟨s, log', resolved, resolves⟩ := resolveNames_completes covers wellFormed.distinct
    wellFormed.spelled (log.push .resolveStarted)
  exact ⟨s, log', resolve_of_resolveNames built resolved, resolves⟩

/-- A run of the first pass has one result, so what holds of one holds of it. -/
theorem built_of_build {config : Config} {program : Program} (wellFormed : program.WellFormed)
    {log log' : Log} {reported : List Diagnostic} {built : Session}
    (run : (new config).build program log = .ok (reported, built) log') : built.Built program := by
  obtain ⟨_, _, _, run', isBuilt⟩ := build_completes config wellFormed.distinct log
  rw [run] at run'
  cases run'
  exact isBuilt

/-! ## The tables at any time -/

/-- What a build over empty tables has made of a program, and what it has reported, has come from
    its two parts. -/
theorem parts_of_build {session built : Session} (defs : session.defs = .empty)
    (tree : session.tree = .new) (treeBuilt : session.treeBuilt = false) {program : Program}
    {log log' : Log} {reported : List Diagnostic}
    (run : session.build program log = .ok (reported, built) log') :
    ∃ declared log₁, declareProgram .empty .new program (log.push .buildStarted) =
        .ok declared log₁ ∧
      ∃ imported log₂, resolveImports declared.defs declared.tree
          session.config.lintPrivateAccess declared.directives log₁ = .ok imported log₂ ∧
        built.defs = imported.defs ∧ built.tree = imported.tree ∧
        reported = declared.diagnostics ++ imported.diagnostics ∧
        built.config = session.config := by
  simp only [build, defs, tree, treeBuilt, Bool.false_eq_true, if_false] at run
  obtain ⟨_, _, started, run⟩ := Logged.bind_eq_ok.mp run
  cases started
  obtain ⟨declared, log₁, first, run⟩ := Logged.bind_eq_ok.mp run
  obtain ⟨imported, log₂, second, run⟩ := Logged.bind_eq_ok.mp run
  refine ⟨declared, log₁, first, imported, log₂, second, ?_⟩
  -- to print the tree or not makes no difference to the tables
  by_cases print : session.config.printModuleTree = true
  · rw [if_pos print] at run
    obtain ⟨_, _, -, run⟩ := Logged.bind_eq_ok.mp run
    obtain ⟨_, _, -, last⟩ := Logged.bind_eq_ok.mp run
    cases last
    exact ⟨rfl, rfl, rfl, rfl⟩
  · rw [if_neg print] at run
    cases run
    exact ⟨rfl, rfl, rfl, rfl⟩

/-- The import phase of a build starts from what the first pass has declared and goes on in steps
    to the tables of the build. -/
theorem steps_of_build {config : Config} {program : Program} {log log' : Log}
    {reported : List Diagnostic} {built : Session}
    (run : (new config).build program log = .ok (reported, built) log') :
    ∃ declared log₁, declareProgram .empty .new program (log.push .buildStarted) =
        .ok declared log₁ ∧
      let imports := Imports.ofList declared.directives config.lintPrivateAccess
      let start := ImportState.start declared.directives.length declared.defs declared.tree
      Importing.InOrder program.DeclaresFunc imports start ∧
      ∃ imported, Importing.Steps imports [] start imported ∧
        built.defs = imported.defs ∧ built.tree = imported.tree := by
  obtain ⟨declared, log₁, first, imported, log₂, second, defs, tree, -⟩ :=
    parts_of_build rfl rfl rfl run
  obtain ⟨start, goes⟩ := resolveImports_goes first (List.Perm.refl _) second
  exact ⟨declared, log₁, first, start, imported, goes.steps, defs, tree⟩

/-- To print the tree or not notes nothing. -/
theorem exists_recounts_of_print {α : Type} (print : Bool) (defs : Definitions) (tree : ModuleTree)
    (a : α) (events : Array Event) :
    ∃ outcome events', (do
      if print then Logged.emit (.moduleTree (← Logged.lift (tree.print defs)))
      return a : Logged α).Recounts events outcome events' [] := by
  cases print with
  | false => exact ⟨_, _, .pure a events⟩
  | true =>
    cases tree.print defs with
    | ok text => exact ⟨_, _, (Logged.Recounts.lift _ _).bind_ok (.bind_ok (.emit _ _) (.pure a _))⟩
    | error fault => exact ⟨_, _, (Logged.Recounts.lift _ _).bind_error⟩

/-- A build notes what its parts note, and at each of these moments the tables are in order. -/
theorem build_recounts (config : Config) {program : Program} (distinct : program.nodes.Nodup)
    (events : Array Event) :
    ∃ reported session events' noted, ((new config).build program).Recounts events
        (.ok (reported, session)) events' noted ∧
      Leads (.empty, .new) noted (session.defs, session.tree) ∧
      ∀ moment ∈ noted, Sound program.DeclaresFunc moment.tables := by
  obtain ⟨reported, session, log', run, -⟩ := build_completes config distinct ⟨events, none⟩
  obtain ⟨declared, log₁, first, imported, log₂, second, defs, tree, -⟩ :=
    parts_of_build rfl rfl rfl run
  -- each part goes through, as it does without a journal
  obtain ⟨_, events₁, noted, _, recounts, leads, ends⟩ :=
    declareProgram_recounts .empty .new program (events.push .buildStarted)
  obtain ⟨rfl, rfl⟩ := recounts.of_run first
  obtain ⟨_, events₂, noted', _, recounts', leads', ends'⟩ := resolveImports_recounts declared.defs
    declared.tree config.lintPrivateAccess declared.directives events₁
  obtain ⟨rfl, rfl⟩ := recounts'.of_run second
  have sound := recounts.forall_noted fun _ _ run => (declareProgram_noted run).2
  have sound' := recounts'.forall_noted fun _ _ run =>
    (resolveImports_goes first (.refl _) run).2.notes
  obtain ⟨_, events₃, rest⟩ := exists_recounts_of_print config.printModuleTree imported.defs
    imported.tree (declared.diagnostics ++ imported.diagnostics,
      { (new config) with defs := imported.defs, tree := imported.tree, treeBuilt := true }) events₂
  have whole : ((new config).build program).Recounts events _ events₃ _ :=
    .bind_ok (.emit .buildStarted events) (recounts.bind_ok (recounts'.bind_ok rest))
  rw [List.append_nil, List.nil_append] at whole
  -- there is one result, so it is the one that the parts come to
  obtain ⟨rfl, -⟩ := whole.of_run run
  refine ⟨reported, session, events₃, _, whole, ?_, List.forall_mem_append.mpr ⟨sound, sound'⟩⟩
  rw [← ends declared rfl] at leads
  rw [← ends' imported rfl] at leads'
  rw [defs, tree]
  exact leads.trans leads'

/-- Whenever a build notes a moment, every name is bound to what may stand in its namespace, and
    each set of functions is in order. So it is in the beginning, and from each moment to the next
    the tables come about by one operation at most, to those of the session. -/
theorem build_stays_sorted (config : Config) {program : Program} (distinct : program.nodes.Nodup)
    (events : Array Event) :
    ∃ reported session events' noted, ((new config).build program).Recounts events
        (.ok (reported, session)) events' noted ∧
      Leads (.empty, .new) noted (session.defs, session.tree) ∧
      ∀ tables ∈ (.empty, .new) :: noted.map Moment.tables,
        WellSorted program.DeclaresFunc tables.1 tables.2 := by
  obtain ⟨reported, session, events', noted, recounts, leads, sound⟩ :=
    build_recounts config distinct events
  refine ⟨reported, session, events', noted, recounts, leads, ?_⟩
  refine List.forall_mem_cons.mpr ⟨.empty _, List.forall_mem_map.mpr fun moment mem => ?_⟩
  exact (sound moment mem).sorted

/-- A set that an import feeds, and a glob that brings it in:

        mod a { pub func f(); pub use ::b::f; }
        mod b { pub func f(x); }
        pub use ::a::*; -/
def fed : Program :=
  ⟨⟨0⟩, ⟨0, 12⟩,
    [.mod ⟨⟨1⟩, true, ⟨1, 1⟩⟩ ⟨"a", ⟨1, 1⟩⟩
      [.func ⟨⟨2⟩, true, ⟨2, 1⟩⟩ .func ⟨"f", ⟨2, 1⟩⟩ [] [] none none,
      .useDecl ⟨⟨3⟩, true, ⟨3, 1⟩⟩
        (.path ⟨4⟩ ⟨4, 1⟩ ⟨true, [⟨.name "b", ⟨4, 1⟩⟩, ⟨.name "f", ⟨4, 1⟩⟩]⟩ none)],
    .mod ⟨⟨5⟩, true, ⟨5, 1⟩⟩ ⟨"b", ⟨5, 1⟩⟩
      [.func ⟨⟨6⟩, true, ⟨6, 1⟩⟩ .func ⟨"f", ⟨6, 1⟩⟩ []
        [.mk none (.ident ⟨7⟩ ⟨"x", ⟨7, 1⟩⟩ none) none none] none none],
    .useDecl ⟨⟨8⟩, true, ⟨8, 1⟩⟩ (.glob ⟨9⟩ ⟨9, 1⟩ (some ⟨true, [⟨.name "a", ⟨9, 1⟩⟩]⟩))]⟩

/-- One moment is that at which the glob has brought in all that the import has fed. -/
theorem build_stays_sorted_of_fed :
    ∃ reported session events' noted, ((new {}).build fed).Recounts #[]
        (.ok (reported, session)) events' noted ∧
      (∃ moment ∈ noted, moment.tables.2.bindingAt? .root .value "f" = some (.overloads ⟨2⟩) ∧
        moment.tables.1.member? ⟨2⟩ "(x:)" = some ⟨7⟩) ∧
      Leads (.empty, .new) noted (session.defs, session.tree) ∧
      ∀ tables ∈ (.empty, .new) :: noted.map Moment.tables,
        WellSorted fed.DeclaresFunc tables.1 tables.2 := by
  have distinct : fed.nodes.Nodup := by decide +kernel
  obtain ⟨reported, session, events', noted, recounts, leads, sorted⟩ :=
    build_stays_sorted {} distinct #[]
  obtain ⟨_, -, checked⟩ := recounts.of_check (fun _ noted => noted.any fun moment =>
    moment.tables.2.bindingAt? .root .value "f" == some (.overloads ⟨2⟩) &&
      moment.tables.1.member? ⟨2⟩ "(x:)" == some ⟨7⟩) (by decide +kernel)
  simp only [List.any_eq_true, Bool.and_eq_true, beq_iff_eq] at checked
  exact ⟨reported, session, events', noted, recounts, checked, leads, sorted⟩

/-! ## No faults -/

/-- A program without a node that comes up twice and without an empty path is built and resolved,
    under any configuration. -/
theorem build_and_resolve_complete (config : Config) {program : Program}
    (wellFormed : program.WellFormed) (log : Log) :
    ∃ reported built log', (new config).build program log = .ok (reported, built) log' ∧
      ∃ reported' resolved log'', built.resolve program log' = .ok (reported', resolved) log'' := by
  obtain ⟨reported, built, log', run, isBuilt⟩ := build_completes config wellFormed.distinct log
  obtain ⟨s, log'', run', -⟩ := resolve_completes isBuilt wellFormed log'
  exact ⟨reported, built, log', run, _, _, log'', run'⟩

/-- A variable that is bound anew from itself, and a name that nothing has:

        func f(x) { let x = x; x; z } -/
def shadowing : Program :=
  ⟨⟨0⟩, ⟨0, 30⟩,
    [.func ⟨⟨1⟩, true, ⟨5, 1⟩⟩ .func ⟨"f", ⟨5, 1⟩⟩ []
      [.mk none (.ident ⟨2⟩ ⟨"x", ⟨7, 1⟩⟩ none) none none] none
      (some (.block .plain (.mk ⟨3⟩
        [.letBind (.ident ⟨4⟩ ⟨"x", ⟨16, 1⟩⟩ none) none
          (some (.path ⟨⟨5⟩, false, [⟨.name "x", ⟨20, 1⟩⟩], false⟩ [])),
        .expr (.path ⟨⟨6⟩, false, [⟨.name "x", ⟨23, 1⟩⟩], false⟩ []),
        .expr (.path ⟨⟨7⟩, false, [⟨.name "z", ⟨26, 1⟩⟩], false⟩ [])])))]⟩

theorem wellFormed_shadowing : shadowing.WellFormed := ⟨by decide +kernel, by decide +kernel⟩

theorem build_and_resolve_complete_of_shadowing :
    ∃ reported built log', (new {}).build shadowing .empty = .ok (reported, built) log' ∧
      ∃ reported' resolved log'',
        built.resolve shadowing log' = .ok (reported', resolved) log'' :=
  build_and_resolve_complete {} wellFormed_shadowing .empty

/-! ## Lexical scoping -/

/-- A lone name in an expression, be it a callee or a field of a struct expression, refers to the
    variable that the text picks, and to a variable only then. -/
theorem localVar_iff_visibleVariable {config : Config} {program : Program}
    (wellFormed : program.WellFormed) {log log' : Log} {reported : List Diagnostic}
    {built : Session} (run : (new config).build program log = .ok (reported, built) log') :
    ∃ reported' resolved log'', built.resolve program log' = .ok (reported', resolved) log'' ∧
      ∀ occ ∈ program.occurrences, ∀ name, occ.role.variable? = some name → ∀ node,
        resolved.resolutions[occ.node]? = some (.localVar node) ↔
          built.tables.visibleVariable name occ.around = some node := by
  obtain ⟨s, log'', resolved, resolves⟩ :=
    resolve_completes (built_of_build wellFormed run) wellFormed log'
  refine ⟨_, _, log'', resolved, fun occ mem name isName => ?_⟩
  exact (resolves.settled occ mem).variable_iff name isName

/-- In its own initializer a variable is not seen yet, and behind it the other one no more. -/
theorem localVar_iff_visibleVariable_of_shadowing :
    ∃ reported built log', (new {}).build shadowing .empty = .ok (reported, built) log' ∧
      ∃ reported' resolved log'', built.resolve shadowing log' = .ok (reported', resolved) log'' ∧
        resolved.resolutions[NodeId.mk 5]? = some (.localVar ⟨2⟩) ∧
        resolved.resolutions[NodeId.mk 6]? = some (.localVar ⟨4⟩) := by
  have checked : ∃ r log', (new {}).build shadowing .empty = .ok r log' ∧
      ([(⟨5⟩, ⟨2⟩), (⟨6⟩, ⟨4⟩)].all fun read => shadowing.occurrences.any fun occ =>
        occ.node == read.1 && occ.role.variable? == some "x"
          && r.2.tables.visibleVariable "x" occ.around == some read.2) = true :=
    Logged.exists_of_check (by decide +kernel)
  obtain ⟨⟨reported, built⟩, log', run, picks⟩ := checked
  obtain ⟨reported', resolved, log'', run', localVar_iff⟩ :=
    localVar_iff_visibleVariable wellFormed_shadowing run
  simp only [List.all_cons, List.all_nil, List.any_eq_true, Bool.and_eq_true, beq_iff_eq,
    Bool.and_true] at picks
  obtain ⟨⟨first, mem, ⟨node, reads⟩, picked⟩, second, mem', ⟨node', reads'⟩, picked'⟩ := picks
  refine ⟨reported, built, log', run, reported', resolved, log'', run', ?_, ?_⟩
  · exact node ▸ (localVar_iff first mem "x" reads ⟨2⟩).mpr picked
  · exact node' ▸ (localVar_iff second mem' "x" reads' ⟨4⟩).mpr picked'

/-! ## Outcomes -/

/-- In the end exactly the nodes are recorded that are there to refer to something, and the errors
    are about those of them, in order, that refer to nothing. -/
theorem recorded_iff_isReference {config : Config} {program : Program}
    (wellFormed : program.WellFormed) {log log' : Log} {reported : List Diagnostic}
    {built : Session} (run : (new config).build program log = .ok (reported, built) log') :
    ∃ reported' resolved log'', built.resolve program log' = .ok (reported', resolved) log'' ∧
      (∀ node, node ∈ resolved.resolutions ↔
        ∃ occ ∈ program.occurrences, occ.node = node ∧ occ.IsReference built.tables) ∧
      List.Forall₂ Diagnostic.Blames (reported'.filter (·.isError))
        (program.occurrences.filter fun occ =>
          resolved.resolutions[occ.node]? = some .error) := by
  obtain ⟨s, log'', resolved, resolves⟩ :=
    resolve_completes (built_of_build wellFormed run) wellFormed log'
  refine ⟨_, _, log'', resolved, fun node => ?_, ?_⟩
  · rw [Std.TreeMap.mem_iff_isSome_getElem?]
    constructor
    · -- nothing is recorded in the beginning, so a record is that of some occurrence
      intro recorded
      by_cases known : node ∈ program.occurrences.map (·.node)
      · obtain ⟨occ, mem, rfl⟩ := List.mem_map.mp known
        exact ⟨occ, mem, rfl, (resolves.settled occ mem).isSome_iff.mp recorded⟩
      · rw [resolves.others node known] at recorded
        simp [ResolveState.start] at recorded
    · rintro ⟨occ, mem, rfl, reference⟩
      exact (resolves.settled occ mem).isSome_iff.mpr reference
  · obtain ⟨more, eq, blames⟩ := resolves.reported
    rw [eq]
    exact blames

/-- The name that nothing has is recorded as well, and reported. -/
theorem recorded_iff_isReference_of_shadowing :
    ∃ reported built log', (new {}).build shadowing .empty = .ok (reported, built) log' ∧
      ∃ reported' resolved log'', built.resolve shadowing log' = .ok (reported', resolved) log'' ∧
        resolved.resolutions.keys = [⟨5⟩, ⟨6⟩, ⟨7⟩] ∧
        reported' = [.unresolvedName "z" .value ⟨26, 1⟩ [] none] ∧
        (∀ node, node ∈ resolved.resolutions ↔
          ∃ occ ∈ shadowing.occurrences, occ.node = node ∧ occ.IsReference built.tables) ∧
        List.Forall₂ Diagnostic.Blames (reported'.filter (·.isError))
          (shadowing.occurrences.filter fun occ =>
            resolved.resolutions[occ.node]? = some .error) := by
  have checked : ∃ r log', ((new {}).build shadowing >>= fun p => p.2.resolve shadowing) .empty =
      .ok r log' ∧ (r.2.resolutions.keys == [⟨5⟩, ⟨6⟩, ⟨7⟩] &&
        r.1 == [.unresolvedName "z" .value ⟨26, 1⟩ [] none]) = true :=
    Logged.exists_of_check (by decide +kernel)
  obtain ⟨⟨reported', resolved⟩, log'', both, same⟩ := checked
  obtain ⟨⟨reported, built⟩, log', run, run'⟩ := Logged.bind_eq_ok.mp both
  obtain ⟨_, _, _, result, keys, blames⟩ := recorded_iff_isReference wellFormed_shadowing run
  rw [run'] at result
  cases result
  simp only [Bool.and_eq_true, beq_iff_eq] at same
  exact ⟨reported, built, log', run, reported', resolved, log'', run', same.1, same.2, keys, blames⟩

end Session

end NameResolution
