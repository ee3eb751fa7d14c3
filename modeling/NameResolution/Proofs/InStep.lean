import NameResolution.Proofs.Declaration.Standing
import NameResolution.Proofs.Resolution.Lookups
import NameResolution.Proofs.Resolution.Points
import NameResolution.Proofs.Session

/-! # The two passes in step

    The first pass binds names in its current module, and the second one looks
    them up through its scopes. Whenever they come by the same node, the module
    that is current in the first pass is the nearest one in the second, and the
    scopes hold its ancestors and no other module. -/

namespace NameResolution

variable {tables : Tables}

/-- The module around an occurrence is the nearest one of the scopes there. -/
theorem Stands.moduleOf_home {stack : ScopeStack} {around : Regions}
    (stands : Stands tables stack around) :
    tables.defs.moduleOf around.home = some stack.nearestModule := by
  obtain ⟨outer, -, listed⟩ := stands.exists_nearest
  rw [stands.rooted.home, ← stands.matching.modules, listed, List.head?_cons]

/-- Where the tour of a program goes by a node, the innermost open module is that around an
    occurrence of the node. -/
theorem Program.exists_passed (program : Program) {front back : Tour} {node : NodeId}
    (split : Tour.ofProgram program = front ++ .pass node :: back) :
    ∃ occ ∈ program.occurrences, occ.node = node ∧
      (front.outline.homes [.item program.id]).headD .none = occ.around.home := by
  have mem := Tour.mem_passed [.item program.id] front back node
  rw [← split] at mem
  have mem := (program.charts_tour.passed []).subset mem
  obtain ⟨occ, memOccs, eq⟩ := List.mem_map.mp mem
  obtain ⟨isNode, home⟩ := Prod.mk.inj eq
  exact ⟨occ, (List.mem_filter.mp memOccs).1, isNode, home.symm⟩

/-- Where the tour of a program goes by a node, its outline is cut. -/
theorem Program.outline_cut (program : Program) {front back : Tour} {node : NodeId}
    (split : Tour.ofProgram program = front ++ .pass node :: back) :
    Outline.ofProgram program = front.outline ++ back.outline := by
  rw [← program.charts_tour.outline_eq, split, Tour.outline_append]
  rfl

/-- An occurrence for which nothing is declared is gone by. -/
theorem Program.exists_pass (program : Program) {occ : Occurrence}
    (mem : occ ∈ program.occurrences) (silent : occ.role.declaresNothing) :
    ∃ front back, Tour.ofProgram program = front ++ .pass occ.node :: back := by
  have listed : (occ.node, occ.around.home) ∈ Occurrence.passed program.occurrences :=
    List.mem_map.mpr ⟨occ, List.mem_filter.mpr ⟨mem, silent⟩, rfl⟩
  exact Tour.exists_pass ((program.charts_tour.passed []).symm.subset listed)

/-- Where the first pass goes by a node, the current module is that around an occurrence of it. -/
theorem Declaring.GoesThrough.moduleOf_home {program : Program} {front back : Tour}
    {node : NodeId} {s declared : DeclareState}
    (through : GoesThrough program front.outline back.outline s declared)
    (split : Tour.ofProgram program = front ++ .pass node :: back) :
    ∃ occ ∈ program.occurrences, occ.node = node ∧
      declared.defs.moduleOf occ.around.home = some s.current := by
  obtain ⟨standing, enlarges⟩ := through.moves (program.outline_cut split)
  obtain ⟨occ, mem, isNode, home⟩ := program.exists_passed split
  refine ⟨occ, mem, isNode, enlarges.defs.moduleOf ?_⟩
  obtain ⟨first, others, homes, held⟩ := standing.head
  rw [homes] at home
  exact home ▸ held

namespace Session

/-- What the imports of a build add takes nothing away. -/
theorem extends_of_build {config : Config} {program : Program} {log log' : Log}
    {reported : List Diagnostic} {built : Session}
    (run : (new config).build program log = .ok (reported, built) log') :
    ∃ declared log₁, declareProgram .empty .new program (log.push .buildStarted) =
      .ok declared log₁ ∧ declared.defs.Extends built.defs := by
  obtain ⟨declared, log₁, first, start, imported, steps, defs, -⟩ := steps_of_build run
  refine ⟨declared, log₁, first, ?_⟩
  rw [defs]
  exact (start.path steps).defs.toExtends

/-- At a point of the second pass, the modules of the scopes are the ancestors of the nearest one.
    If the next step comes upon a node, the first pass has gone by it as well, and the nearest
    module is the one that was current then. -/
structure InStep (tables : Tables) (program : Program) (declared : DeclareState) (rest : Walk)
    (s : ResolveState) : Prop where
  ancestors : ∃ ms, tables.SeesAncestors s.scopes ms
  passed : ∀ step node, rest.head? = some step → step.visited? = some node →
    ∃ front back : Tour, Tour.ofProgram program = front ++ .pass node :: back
  current : ∀ step node, rest.head? = some step → step.visited? = some node →
    ∀ front back : Tour, Tour.ofProgram program = front ++ .pass node :: back →
      (∃ s', Declaring.GoesThrough program front.outline back.outline s' declared) ∧
      ∀ s', Declaring.GoesThrough program front.outline back.outline s' declared →
        s'.current = s.scopes.nearestModule

/-- The two passes see the same modules. -/
theorem passes_in_step {config : Config} {program : Program} (wellFormed : program.WellFormed)
    {log log' : Log} {reported : List Diagnostic} {built : Session}
    (run : (new config).build program log = .ok (reported, built) log') :
    (Tour.ofProgram program).outline = Outline.ofProgram program ∧
    ∃ declared log₁ resolved log₂,
      declareProgram .empty .new program (log.push .buildStarted) = .ok declared log₁ ∧
      resolveNames built.tables program (log'.push .resolveStarted) = .ok resolved log₂ ∧
      ∀ before rest, Walk.ofProgram program = before ++ rest →
        (∃ s, Resolving.GoesThrough built.tables before rest s resolved) ∧
        ∀ s, Resolving.GoesThrough built.tables before rest s resolved →
          InStep built.tables program declared rest s := by
  have isBuilt := built_of_build wellFormed run
  have covers : Covers built.tables.defs built.tables.tree program := isBuilt.covers
  obtain ⟨declared, log₁, first, ext⟩ := extends_of_build run
  obtain ⟨resolved, log₂, second, -⟩ := resolveNames_completes covers wellFormed.distinct
    wellFormed.spelled (log'.push .resolveStarted)
  refine ⟨program.charts_tour.outline_eq, declared, log₁, resolved, log₂, first, second,
    fun before rest split => ⟨exists_goesThrough second split, fun s through => ?_⟩⟩
  obtain ⟨here, stands, ahead⟩ :=
    through.stands split covers wellFormed.distinct wellFormed.spelled
  refine ⟨stands.seesAncestors covers.intact.validTree, fun step node next visited => ?_,
    fun step node next visited front back split' => ?_⟩
  · obtain ⟨occ, mem, rfl, silent, -⟩ := ahead step node next visited
    exact program.exists_pass mem silent
  · refine ⟨Declaring.exists_goesThrough first (program.outline_cut split'),
      fun s' through' => ?_⟩
    obtain ⟨occ, mem, isNode, -, rfl⟩ := ahead step node next visited
    obtain ⟨occ', mem', isNode', held⟩ := through'.moduleOf_home split'
    -- nodes are distinct, so both passes have come by the same occurrence
    obtain rfl : occ' = occ :=
      List.inj_on_of_nodup_map (List.nodup_cons.mp wellFormed.distinct).2 mem' mem
        (isNode'.trans isNode.symm)
    have current := stands.moduleOf_home.symm.trans (ext.moduleOf held)
    exact (Option.some.inj current).symm

/-- An item in a block that is hidden in the type of a parameter, of a function without a module:

        func f(a: [A; { struct B; B }]); -/
def hiddenBlock : Program :=
  ⟨⟨0⟩, ⟨0, 30⟩,
    [.func ⟨⟨1⟩, true, ⟨1, 1⟩⟩ .func ⟨"f", ⟨1, 1⟩⟩ []
      [.mk none (.ident ⟨2⟩ ⟨"a", ⟨2, 1⟩⟩ none)
        (some (.array (.path ⟨⟨3⟩, false, [⟨.name "A", ⟨3, 1⟩⟩], false⟩ [])
          (.block .plain (.mk ⟨4⟩
            [.item (.struct ⟨⟨5⟩, false, ⟨5, 1⟩⟩ ⟨"B", ⟨5, 1⟩⟩ [] []),
            .expr (.path ⟨⟨6⟩, false, [⟨.name "B", ⟨6, 1⟩⟩], false⟩ [])])))) none]
      none none]⟩

/-- At the path in the block both passes are in the module of the block, below the root. -/
theorem passes_in_step_of_hiddenBlock :
    ∃ reported built log', (new {}).build hiddenBlock .empty = .ok (reported, built) log' ∧
      ∃ declared before rest s, Walk.ofProgram hiddenBlock = before ++ rest ∧
        rest.head? = some (.path .value ⟨⟨6⟩, false, [⟨.name "B", ⟨6, 1⟩⟩], false⟩ none) ∧
        s.scopes.toList.filterMap (·.module) = [⟨1⟩, .root] ∧
        InStep built.tables hiddenBlock declared rest s := by
  -- the front part of the walk, up to the path
  let front := (Walk.ofProgram hiddenBlock).take 6
  let back := (Walk.ofProgram hiddenBlock).drop 6
  have split : Walk.ofProgram hiddenBlock = front ++ back := (List.take_append_drop ..).symm
  have checked : ∃ r log', ((new {}).build hiddenBlock >>= fun p => do
      Logged.emit .resolveStarted
      let followed ← Resolving.follow p.2.tables front .start
      return (p, followed.2)) .empty = .ok r log' ∧
        (r.2.scopes.toList.filterMap (·.module) == [⟨1⟩, .root]) = true :=
    Logged.exists_of_check (by decide +kernel)
  obtain ⟨⟨⟨reported, built⟩, _⟩, _, both, modules⟩ := checked
  obtain ⟨_, log', run, follows⟩ := Logged.bind_eq_ok.mp both
  obtain ⟨_, _, started, follows⟩ := Logged.bind_eq_ok.mp follows
  cases started
  obtain ⟨⟨_, s⟩, log₁, first, last⟩ := Logged.bind_eq_ok.mp follows
  cases last
  have wellFormed : hiddenBlock.WellFormed := ⟨by decide +kernel, by decide +kernel⟩
  obtain ⟨-, declared, _, resolved, _, -, second, points⟩ := passes_in_step wellFormed run
  exact ⟨reported, built, log', run, declared, front, back, s, split, by decide +kernel,
    beq_iff_eq.mp modules,
    (points front back split).2 s (goesThrough_of_follow second split first)⟩

end Session

end NameResolution
