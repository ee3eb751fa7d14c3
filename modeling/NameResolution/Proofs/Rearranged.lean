import NameResolution.Proofs.Declaration.Rearranged
import NameResolution.Proofs.Resolution.Records
import NameResolution.Proofs.Resolution.Mirror
import NameResolution.Proofs.Session

/-! # The order of items

    In a program without imports the order of the items in a module does not
    matter. A rearranged program goes through both passes in the same way:
    nothing is reported about it if nothing is about the program, and each node
    refers to the same. Only the numbers of definitions, of modules and of sets
    of functions are others. -/

namespace NameResolution

/-! ## Records of one step -/

namespace Resolving

variable {tables tables' : Tables} {scopes scopes' : ScopeStack} {around : Regions}
  {step : WalkStep}

/-- A search that has come to something is for a path with a segment. -/
theorem segments_ne_nil_of_run {ns : Namespace} {path : Path} {labels : Option String}
    {warnings : List Diagnostic} {p : Except Diagnostic Resolution × List Diagnostic}
    (came : (tables.resolvePath scopes ns path labels).run.run warnings = .ok p) :
    path.segments ≠ [] := by
  intro empty
  unfold Tables.resolvePath at came
  rw [empty] at came
  cases came

section

variable (mirror : Mirror tables.defs tables.tree tables'.defs tables'.tree)
  (stands : Stands tables scopes around) (stands' : Stands tables' scopes' around)

include mirror stands stands'

/-- At one point of the text a step looks the same path up in both tables. -/
theorem LooksUp.mirrored {ns : Namespace} {path : Path} {labels : Option String}
    (looksUp : LooksUp tables scopes step ns path labels) :
    LooksUp tables' scopes' step ns path labels := by
  cases looksUp with
  | path => exact .path
  | @typeArg path isValue reads =>
    obtain ⟨isValue', reads', -⟩ :=
      Yields.false_iff.mp (yields_isValueArg mirror.intact' stands' path)
    obtain rfl := Tables.concur_isValueArg mirror stands stands' path _ _ reads reads'
    exact .typeArg reads'

/-- What a step records of a node over one of the tables, it records over the other as well. -/
theorem Records.mirrored {node : NodeId} {r : Resolution}
    (records : Records tables scopes step node r) :
    ∃ r', Records tables' scopes' step node r' ∧ r.Mirrored tables.defs tables'.defs r' := by
  cases records with
  | @path step ns path labels result warnings looksUp came =>
    have spelled := segments_ne_nil_of_run came
    obtain ⟨⟨result', warnings'⟩, came', -⟩ :=
      Yields.false_iff.mp (yields_resolvePath mirror.intact' stands' spelled ns labels)
    refine ⟨_, .path (looksUp.mirrored mirror stands stands') came', ?_⟩
    have both := Tables.concur_resolvePath mirror stands stands' ns path labels [] [] _ _ came came'
    cases both with
    | ok mirrored => exact mirrored
    | error d d' => exact .error
  | @selfValue _ span id isSelf =>
    have item := Tables.rel_innermost_selfItem mirror stands stands'
    rw [isSelf] at item
    obtain ⟨id', isSelf', twins⟩ := exists_right_of_rel item
    exact ⟨_, .selfValue isSelf', .definition twins⟩
  | noSelf noSelf =>
    have item := Tables.rel_innermost_selfItem mirror stands stands'
    rw [noSelf] at item
    exact ⟨_, .noSelf ((eq_none_of_rel item).mp rfl), .error⟩
  | @variant ident _ id named =>
    obtain ⟨found, named', -⟩ :=
      Yields.false_iff.mp (stands'.variantNamed mirror.intact' ident.name)
    have variant := Tables.concur_variantNamed mirror stands stands' ident.name _ _ named named'
    obtain ⟨id', rfl, twins⟩ := exists_right_of_rel variant
    exact ⟨_, .variant named', .definition twins⟩

end

end Resolving

/-! ## Two runs of the second pass -/

/-- The same nodes are there to refer to something. -/
theorem Occurrence.isReference_of_mirror {tables tables' : Tables}
    (mirror : Mirror tables.defs tables.tree tables'.defs tables'.tree) {occ : Occurrence}
    (reference : occ.IsReference tables') : occ.IsReference tables := by
  obtain ⟨node, role, around⟩ := occ
  cases role with
  | bareName name =>
    have same := isSome_eq_of_rel (Tables.rel_variantInReach mirror name.name around)
    have reference : (tables'.variantInReach name.name around).isSome := reference
    show (tables.variantInReach name.name around).isSome
    rw [same]
    exact reference
  | _ => exact reference

theorem Arrangement.wellFormed (a : Arrangement) {program : Program}
    (wellFormed : program.WellFormed) : (a.ofProgram program).WellFormed where
  distinct := by
    have same : (a.ofProgram program).nodes.Perm program.nodes :=
      ((a.shuffled_program program).occurrences.map _).cons program.id
    exact same.nodup_iff.mpr wellFormed.distinct
  spelled occ mem :=
    wellFormed.spelled occ ((a.shuffled_program program).occurrences.subset mem)

section

variable {tables tables' : Tables} {program : Program} {a : Arrangement}
  {resolved resolved' : ResolveState} {log log' log₁ log₁' : Log}
  (mirror : Mirror tables.defs tables.tree tables'.defs tables'.tree)
  (wellFormed : program.WellFormed) (covers : Covers tables.defs tables.tree program)
  (covers' : Covers tables'.defs tables'.tree (a.ofProgram program))
  (run : resolveNames tables program log = .ok resolved log₁)
  (run' : resolveNames tables' (a.ofProgram program) log' = .ok resolved' log₁')

include mirror wellFormed covers covers' run run'

/-- What is recorded of a node is recorded of it in the rearranged program. -/
theorem exists_mirrored_of_recorded {node : NodeId} {r : Resolution}
    (recorded : resolved.resolutions[node]? = some r) :
    ∃ r', resolved'.resolutions[node]? = some r' ∧ r.Mirrored tables.defs tables'.defs r' := by
  have wellFormed' := a.wellFormed wellFormed
  have shuffled := a.shuffled_program program
  obtain ⟨step, s, source⟩ :=
    (Resolving.recorded_iff_source covers.intact.validDefs run).mp recorded
  have visited := source.visited?
  obtain ⟨before, after, split, through, records⟩ := source
  obtain ⟨here, stands, ahead⟩ :=
    through.stands split covers wellFormed.distinct wellFormed.spelled
  -- the rearranged program is gone through in the same steps
  have mem : step ∈ Walk.ofProgram program := by
    rw [split]
    exact List.mem_append_right _ (List.mem_cons_self ..)
  obtain ⟨before', after', split'⟩ := List.append_of_mem (shuffled.walk.symm.subset mem)
  obtain ⟨s', through'⟩ := exists_goesThrough run' split'
  obtain ⟨here', stands', ahead'⟩ :=
    through'.stands split' covers' wellFormed'.distinct wellFormed'.spelled
  -- and the regions around the node are the same, for there is only one occurrence of it
  have same : here = here' := by
    obtain ⟨occ, listed, isNode, -, around⟩ := ahead step node rfl visited
    obtain ⟨occ', listed', isNode', -, around'⟩ := ahead' step node rfl visited
    have only : occ = occ' := List.inj_on_of_nodup_map (List.nodup_cons.mp wellFormed.distinct).2
      listed (shuffled.occurrences.subset listed') (isNode.trans isNode'.symm)
    rw [← around, ← around', only]
  subst same
  obtain ⟨r', records', mirrored⟩ := records.mirrored mirror stands stands'
  refine ⟨r', ?_, mirrored⟩
  exact (Resolving.recorded_iff_source covers'.intact.validDefs run').mpr
    ⟨step, s', before', after', split', through', records'⟩

/-- Both runs record the same of each node. -/
theorem rel_resolutions (node : NodeId) :
    Option.Rel (Resolution.Mirrored tables.defs tables'.defs) resolved.resolutions[node]?
      resolved'.resolutions[node]? := by
  have wellFormed' := a.wellFormed wellFormed
  obtain ⟨_, _, resolves, settles⟩ :=
    resolveNames_completes covers wellFormed.distinct wellFormed.spelled log
  cases run.symm.trans resolves
  obtain ⟨_, _, resolves', settles'⟩ :=
    resolveNames_completes covers' wellFormed'.distinct wellFormed'.spelled log'
  cases run'.symm.trans resolves'
  refine rel_of_forall (fun r recorded =>
    exists_mirrored_of_recorded mirror wellFormed covers covers' run run' recorded) ?_
  intro r' recorded'
  by_cases listed : node ∈ (a.ofProgram program).occurrences.map (·.node)
  · obtain ⟨occ, mem', rfl⟩ := List.mem_map.mp listed
    have mem := (a.shuffled_program program).occurrences.subset mem'
    refine (settles.settled occ mem).isSome_iff.mpr (Occurrence.isReference_of_mirror mirror ?_)
    refine (settles'.settled occ mem').isSome_iff.mp ?_
    rw [recorded']
    rfl
  · -- of anything else nothing is recorded
    rw [settles'.others node listed] at recorded'
    simp [ResolveState.start] at recorded'

end

/-! ## Builds -/

/-- Without imports the import phase does nothing. -/
theorem resolveImports_nil {defs : Definitions} {tree : ModuleTree} {lint : Bool}
    {directives : List Directive} {imported : ImportState directives.length}
    {log log' : Log} (none : directives = [])
    (run : resolveImports defs tree lint directives log = .ok imported log') :
    imported.defs = defs ∧ imported.tree = tree ∧ imported.diagnostics = [] := by
  subst none
  cases run
  exact ⟨rfl, rfl, rfl⟩

namespace Session

/-- Without imports the tables of a build are those of the first pass. -/
theorem pictured_of_build {config : Config} {program : Program} {log log' : Log}
    {reported : List Diagnostic} {built : Session}
    (run : (new config).build program log = .ok (reported, built) log')
    (none : (Outline.ofProgram program).imports = []) :
    ∃ declared, program.Pictured declared ∧ built.defs = declared.defs ∧
      built.tree = declared.tree ∧ reported = declared.diagnostics := by
  obtain ⟨declared, log₁, first, imported, log₂, second, defs, tree, eq, -⟩ :=
    parts_of_build rfl rfl rfl run
  obtain ⟨same, same', silent⟩ :=
    resolveImports_nil (declareProgram_directives first none) second
  refine ⟨declared, declareProgram_pictured first, defs.trans same, tree.trans same', ?_⟩
  rw [eq, silent, List.append_nil]

/-- The order of the items in a module does not matter. If nothing is reported when a program
    without `use` items is built, nothing is when it is built with the items of the program and
    of its mods in any other order, and then both are resolved, and each node refers to the same
    in both: to the definition made at one node, with as many segments left to type checking, to
    one variable, or to nothing. -/
theorem item_order_does_not_matter {config : Config} {program : Program}
    (wellFormed : program.WellFormed) (useFree : program.UseFree) (a : Arrangement)
    {log log' : Log} {built : Session}
    (run : (new config).build program log = .ok ([], built) log') (other : Log) :
    ∃ built' other', (new config).build (a.ofProgram program) other = .ok ([], built') other' ∧
      ∃ reported resolved log₁ reported' resolved' log₁',
        built.resolve program log' = .ok (reported, resolved) log₁ ∧
        built'.resolve (a.ofProgram program) other' = .ok (reported', resolved') log₁' ∧
        ∀ node : NodeId, Option.Rel (Resolution.Mirrored built.defs built'.defs)
          resolved.resolutions[node]? resolved'.resolutions[node]? := by
  have wellFormed' := a.wellFormed wellFormed
  have none := useFree.imports
  have none' : (Outline.ofProgram (a.ofProgram program)).imports = [] := by
    have perm := a.perm_imports program
    rw [none, List.perm_nil] at perm
    exact perm
  obtain ⟨reported', built', other', run', isBuilt'⟩ :=
    build_completes config wellFormed'.distinct other
  have isBuilt := built_of_build wellFormed run
  obtain ⟨declared, pictured, defs, tree, silent⟩ := pictured_of_build run none
  obtain ⟨declared', pictured', defs', tree', eq'⟩ := pictured_of_build run' none'
  have silent' := pictured.diagnostics_eq_nil pictured' silent.symm
  have mirror : Mirror built.defs built.tree built'.defs built'.tree := by
    rw [defs, tree, defs', tree']
    exact pictured.mirror pictured' silent.symm
  rw [eq', silent'] at run'
  have covers : Covers built.tables.defs built.tables.tree program := isBuilt.covers
  have covers' : Covers built'.tables.defs built'.tables.tree (a.ofProgram program) :=
    isBuilt'.covers
  obtain ⟨s, log₁, second, -⟩ := resolveNames_completes covers wellFormed.distinct
    wellFormed.spelled (log'.push .resolveStarted)
  obtain ⟨s', log₁', second', -⟩ := resolveNames_completes covers' wellFormed'.distinct
    wellFormed'.spelled (other'.push .resolveStarted)
  refine ⟨built', other', run', _, _, log₁, _, _, log₁', resolve_of_resolveNames isBuilt second,
    resolve_of_resolveNames isBuilt' second', ?_⟩
  exact rel_resolutions mirror wellFormed covers covers' second second'

/-- Functions of one name, a struct behind its use, and a mod in a block:

        mod a { pub func f(x: T); pub func f(y); pub struct T {} }
        func g(v: a::T) { mod m { pub const k; func q() { k } } a::f(y: m::k); a::T::new; v; z } -/
def scattered : Program :=
  ⟨⟨0⟩, ⟨0, 21⟩,
    [.mod ⟨⟨1⟩, true, ⟨1, 1⟩⟩ ⟨"a", ⟨1, 1⟩⟩
      [.func ⟨⟨2⟩, true, ⟨2, 1⟩⟩ .func ⟨"f", ⟨2, 1⟩⟩ []
        [.mk none (.ident ⟨3⟩ ⟨"x", ⟨3, 1⟩⟩ none)
          (some (.path ⟨⟨4⟩, false, [⟨.name "T", ⟨4, 1⟩⟩], false⟩ [])) none] none none,
      .func ⟨⟨5⟩, true, ⟨5, 1⟩⟩ .func ⟨"f", ⟨5, 1⟩⟩ []
        [.mk none (.ident ⟨6⟩ ⟨"y", ⟨6, 1⟩⟩ none) none none] none none,
      .struct ⟨⟨7⟩, true, ⟨7, 1⟩⟩ ⟨"T", ⟨7, 1⟩⟩ [] []],
    .func ⟨⟨8⟩, false, ⟨8, 1⟩⟩ .func ⟨"g", ⟨8, 1⟩⟩ []
      [.mk none (.ident ⟨9⟩ ⟨"v", ⟨9, 1⟩⟩ none)
        (some (.path ⟨⟨10⟩, false, [⟨.name "a", ⟨10, 1⟩⟩, ⟨.name "T", ⟨10, 1⟩⟩], false⟩ [])) none]
      none
      (some (.block .plain (.mk ⟨11⟩
        [.item (.mod ⟨⟨12⟩, false, ⟨12, 1⟩⟩ ⟨"m", ⟨12, 1⟩⟩
          [.const ⟨⟨13⟩, true, ⟨13, 1⟩⟩ ⟨"k", ⟨13, 1⟩⟩ none none,
          .func ⟨⟨14⟩, false, ⟨14, 1⟩⟩ .func ⟨"q", ⟨14, 1⟩⟩ [] [] none
            (some (.path ⟨⟨15⟩, false, [⟨.name "k", ⟨15, 1⟩⟩], false⟩ []))]),
        .expr (.invoke
          (.path ⟨⟨16⟩, false, [⟨.name "a", ⟨16, 1⟩⟩, ⟨.name "f", ⟨16, 1⟩⟩], false⟩ [])
          [.mk (some ⟨"y", ⟨17, 1⟩⟩)
            (.path ⟨⟨17⟩, false, [⟨.name "m", ⟨17, 1⟩⟩, ⟨.name "k", ⟨17, 1⟩⟩], false⟩ [])]),
        .expr (.path ⟨⟨18⟩, false,
          [⟨.name "a", ⟨18, 1⟩⟩, ⟨.name "T", ⟨18, 1⟩⟩, ⟨.name "new", ⟨18, 1⟩⟩], false⟩ []),
        .expr (.path ⟨⟨19⟩, false, [⟨.name "v", ⟨19, 1⟩⟩], false⟩ []),
        .expr (.path ⟨⟨20⟩, false, [⟨.name "z", ⟨20, 1⟩⟩], false⟩ [])])))]⟩

/-- The last item of each list first. -/
def reversed : Arrangement := ⟨fun _ items => items.reverse, fun _ items => items.reverse_perm⟩

theorem wellFormed_scattered : scattered.WellFormed := ⟨by decide +kernel, by decide +kernel⟩

theorem useFree_scattered : scattered.UseFree := by
  have inside : (scattered.items.map Piece.item).flatMap
      (fun part => part.within (.item scattered.id)) = scattered.pieces := List.flatMap_map ..
  unfold Program.UseFree
  rw [← inside]
  simp only [scattered, List.map_cons, List.map_nil, Piece.forall_within_cons,
    Piece.forall_within_nil, Piece.children, Piece.isUse, Option.toList_some, Option.toList_none,
    List.append_nil, List.nil_append, List.cons_append, and_self]

theorem item_order_does_not_matter_of_scattered :
    ∃ built log', (new {}).build scattered .empty = .ok ([], built) log' ∧
    ∃ built' other', (new {}).build (reversed.ofProgram scattered) .empty = .ok ([], built') other' ∧
    ∃ reported resolved log₁ reported' resolved' log₁',
      built.resolve scattered log' = .ok (reported, resolved) log₁ ∧
      built'.resolve (reversed.ofProgram scattered) other' = .ok (reported', resolved') log₁' ∧
      resolved.resolutions[NodeId.mk 16]? = some (.definition ⟨3⟩) ∧
      resolved'.resolutions[NodeId.mk 16]? = some (.definition ⟨7⟩) ∧
      ∀ node : NodeId, Option.Rel (Resolution.Mirrored built.defs built'.defs)
        resolved.resolutions[node]? resolved'.resolutions[node]? := by
  -- the label selects the same function, which has another number once the items are reversed
  have checked : ∃ r log₁, ((new {}).build scattered >>= fun p => p.2.resolve scattered) .empty =
      .ok r log₁ ∧ (r.2.resolutions[NodeId.mk 16]? == some (.definition ⟨3⟩)) = true :=
    Logged.exists_of_check (by decide +kernel)
  have checked' : ∃ r log₁', ((new {}).build (reversed.ofProgram scattered) >>= fun p =>
      p.2.resolve (reversed.ofProgram scattered)) .empty = .ok r log₁' ∧
      (r.2.resolutions[NodeId.mk 16]? == some (.definition ⟨7⟩)) = true :=
    Logged.exists_of_check (by decide +kernel)
  have silent : ∃ r log', (new {}).build scattered .empty = .ok r log' ∧ (r.1 == []) = true :=
    Logged.exists_of_check (by decide +kernel)
  obtain ⟨⟨reported, resolved⟩, log₁, both, same⟩ := checked
  obtain ⟨⟨_, built⟩, log', run, second⟩ := Logged.bind_eq_ok.mp both
  obtain ⟨⟨reported', resolved'⟩, log₁', both', same'⟩ := checked'
  obtain ⟨⟨_, built'⟩, other', run', second'⟩ := Logged.bind_eq_ok.mp both'
  obtain ⟨⟨_, _⟩, _, again, none⟩ := silent
  cases run.symm.trans again
  obtain rfl := eq_of_beq none
  obtain ⟨_, _, first, _, _, _, _, _, _, resolves, resolves', mirrored⟩ :=
    item_order_does_not_matter wellFormed_scattered useFree_scattered reversed run .empty
  cases run'.symm.trans first
  cases second.symm.trans resolves
  cases second'.symm.trans resolves'
  exact ⟨built, log', run, built', other', run', reported, resolved, log₁, reported', resolved',
    log₁', second, second', eq_of_beq same, eq_of_beq same', mirrored⟩

end Session

end NameResolution
