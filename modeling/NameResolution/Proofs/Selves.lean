import NameResolution.Proofs.Calls
import NameResolution.Proofs.Declaration.Rearranged
import NameResolution.Proofs.Resolution.Selves

/-! # `Self`

    In a program `Self` and `self` stand for the innermost struct, enum, trait or
    impl around them, through whatever functions, blocks and lambdas there are
    between, but not out of a `mod`. Each of them that stands for none is
    recorded as an error and reported once. -/

namespace NameResolution

/-- What is filed is defined as what it is. -/
theorem Program.FiledIn.definedIn {program : Program} {defs : Definitions} {tree : ModuleTree}
    (h : program.FiledIn defs tree) (valid : defs.Valid) : program.DefinedIn defs := by
  intro entry mem
  obtain ⟨i, at_i⟩ := List.mem_iff_getElem?.mp mem
  have ofNode := h.ofNode? i entry at_i
  obtain ⟨d, found, -⟩ := valid.nodes ofNode
  obtain ⟨other, at_i', rfl⟩ := h.exists_entry found
  cases at_i.symm.trans at_i'
  exact ⟨entry.definition i, ofNode, found, rfl⟩

namespace Resolving

variable {tables : Tables} {program : Program} {ns : Namespace} {path : Path}
  {labels : Option String} {s resolved : ResolveState}

/-- Where the second pass comes upon a path, the scopes are those of the regions around it. -/
theorem Meets.stands (h : Meets tables program ns path labels s resolved)
    (covers : Covers tables.defs tables.tree program) (wellFormed : program.WellFormed)
    {occ : Occurrence} (mem : occ ∈ program.occurrences) (isPath : occ.role.path? = some path) :
    occ.node = path.id ∧ Stands tables s.scopes occ.around := by
  obtain ⟨step, -, refers⟩ := program.traces_walk.exists_refers mem isPath
  have node : occ.node = path.id := by
    obtain ⟨node, role, around⟩ := occ
    cases refers <;> cases isPath <;> rfl
  obtain ⟨before, step', after, split, through, looksUp⟩ := h
  obtain ⟨here, stands, ahead⟩ :=
    through.stands split covers wellFormed.distinct wellFormed.spelled
  obtain ⟨occ', mem', node', -, rfl⟩ := ahead step' path.id rfl looksUp.visited?
  obtain rfl : occ' = occ :=
    List.inj_on_of_nodup_map (List.nodup_cons.mp wellFormed.distinct).2 mem' mem
      (node'.trans node.symm)
  exact ⟨node, stands⟩

/-- A node is resolved from a definition: `self` is recorded as this itself, and a path as what
    comes of following its other segments from there, when the second pass comes by. -/
inductive StartsAt (tables : Tables) (program : Program) (resolved : ResolveState)
    (occ : Occurrence) (id : DefId) : Prop where
  | selfValue {span : Span} (isSelf : occ.role = .selfValue span)
      (recorded : resolved.resolutions[occ.node]? = some (.definition id))
  | path {path : Path} {ns : Namespace} {labels : Option String} {s : ResolveState}
      {result : Except Diagnostic Resolution} {warnings : List Diagnostic}
      (isPath : occ.role.path? = some path)
      (meets : Meets tables program ns path labels s resolved)
      (follows : (tables.followMembers s.scopes.nearestModule ns labels id
        path.segments.tail).run.run [] = .ok (result, warnings))
      (recorded : resolved.resolutions[occ.node]? = some (recordOf result))

/-- A path that starts with `Self` starts at what the regions around it say. -/
theorem startsAt_of_path {log log' : Log}
    (run : resolveNames tables program log = .ok resolved log')
    (covers : Covers tables.defs tables.tree program) (wellFormed : program.WellFormed)
    {occ : Occurrence} (mem : occ ∈ program.occurrences) (isPath : occ.role.path? = some path)
    {span : Span} (isSelf : path.self? = some span) :
    (∀ id, tables.selfAt occ.around = some id → StartsAt tables program resolved occ id) ∧
      (tables.selfAt occ.around = none → resolved.resolutions[occ.node]? = some .error) := by
  obtain ⟨ns, labels, s, meets⟩ := exists_meets_of_occurrence run covers wellFormed mem isPath
  obtain ⟨node, stands⟩ := meets.stands covers wellFormed mem isPath
  obtain ⟨result, warnings, came, recorded, -⟩ := meets.becomes covers.intact.validDefs
  rw [← node] at recorded
  rw [tables.resolvePath_of_self s.scopes ns isSelf, stands.innermost_selfItem] at came
  constructor
  · intro id item
    rw [item] at came
    exact .path isPath meets came recorded
  · intro item
    rw [item] at came
    cases came
    exact recorded

/-- The second pass tells of each occurrence in a program. -/
theorem told_of_resolveNames {log log' : Log}
    (run : resolveNames tables program log = .ok resolved log')
    (covers : Covers tables.defs tables.tree program) (wellFormed : program.WellFormed) :
    SelfTold tables program.occurrences .start resolved := by
  obtain ⟨log₁, whole⟩ := follow_of_resolveNames run
  have awaited : Awaited tables program.occurrences .start :=
    ⟨covers.linked, wellFormed.spelled, (List.nodup_cons.mp wellFormed.distinct).2,
      fun _ _ => rfl⟩
  exact told_of_follow covers.intact program.traces_walk awaited (stands_start covers) whole

/-- `Self` and `self` start at what the regions around them say. -/
theorem startsAt_of_saysSelf {log log' : Log}
    (run : resolveNames tables program log = .ok resolved log')
    (covers : Covers tables.defs tables.tree program) (wellFormed : program.WellFormed)
    {occ : Occurrence} (mem : occ ∈ program.occurrences) (saysSelf : occ.role.SaysSelf) :
    (∀ id, tables.selfAt occ.around = some id → StartsAt tables program resolved occ id) ∧
      (tables.selfAt occ.around = none → resolved.resolutions[occ.node]? = some .error) := by
  generalize role : occ.role = said at saysSelf
  cases saysSelf with
  | path isPath isSelf =>
    exact startsAt_of_path run covers wellFormed mem (role ▸ isPath) isSelf
  | selfValue =>
    have recorded := (told_of_resolveNames run covers wellFormed).recorded occ mem _ role
    constructor
    · intro id item
      rw [item] at recorded
      exact .selfValue role recorded
    · intro item
      rw [item] at recorded
      exact recorded

end Resolving

namespace Session

open Resolving

/-- The imports of a build leave the definitions of the text as they are. -/
theorem definedIn_of_build {config : Config} {program : Program} {log log' : Log}
    {reported : List Diagnostic} {built : Session}
    (run : (new config).build program log = .ok (reported, built) log') :
    program.DefinedIn built.defs := by
  obtain ⟨declared, log₁, first, start, imported, steps, defs, -⟩ := steps_of_build run
  have later := start.path steps
  have pictured := declareProgram_pictured first
  intro entry mem
  obtain ⟨d, ofNode, found, kind⟩ := pictured.filed.definedIn pictured.intact.validDefs entry mem
  rw [defs]
  exact ⟨d, later.defs.toExtends.node ofNode, later.defs_keeps.defined found, kind⟩

/-- `Self` is the innermost item that it may stand for and that no `mod` cuts off. Around a node of
    the text this is a matter of the items around it. From its definition the second pass resolves
    each path that starts with `Self` and each `self`. If there is none, the node is recorded as an
    error, and what has been reported about `Self` is one error for each such node, in the order
    of the text. -/
theorem self_is_the_innermost_item {config : Config} {program : Program}
    (wellFormed : program.WellFormed) {log log' : Log} {reported : List Diagnostic}
    {built : Session} (run : (new config).build program log = .ok (reported, built) log') :
    (∀ around node, program.selfItem? around = some node ↔
      program.isOneOf [.struct, .enum, .trait, .impl] node = true ∧
        ∃ inner outer, around.items = inner ++ node :: outer ∧ ∀ between ∈ inner,
          program.isOneOf [.struct, .enum, .trait, .impl, .mod] between = false) ∧
    ∃ resolved log₂,
      resolveNames built.tables program (log'.push .resolveStarted) = .ok resolved log₂ ∧
      (∀ occ ∈ program.occurrences, occ.role.SaysSelf →
        (∀ node, program.selfItem? occ.around = some node → ∃ d,
          built.defs.ofNode? node = some d.id ∧ built.defs.find? d.id = some d ∧
            d.kind.isSelfItem = true ∧ StartsAt built.tables program resolved occ d.id) ∧
        (program.selfItem? occ.around = none →
          resolved.resolutions[occ.node]? = some .error)) ∧
      resolved.diagnostics.filter (·.isSelfOutside) = program.occurrences.filterMap fun occ =>
        occ.role.selfOutside? (program.selfItem? occ.around).isSome := by
  have isBuilt := built_of_build wellFormed run
  have covers : Covers built.tables.defs built.tables.tree program := isBuilt.covers
  have defined : program.DefinedIn built.tables.defs := definedIn_of_build run
  obtain ⟨resolved, log₂, second, -⟩ := resolveNames_completes covers wellFormed.distinct
    wellFormed.spelled (log'.push .resolveStarted)
  have named {occ : Occurrence} (mem : occ ∈ program.occurrences) :
      ∀ node ∈ occ.around.items, ∃ entry ∈ program.entries, entry.node = node :=
    fun node inside => Program.exists_entry_of_around mem inside
  refine ⟨fun around node => Program.selfItem?_eq_some_iff, resolved, log₂, second,
    fun occ mem saysSelf => ?_, ?_⟩
  · obtain ⟨starts, fails⟩ := startsAt_of_saysSelf second covers wellFormed mem saysSelf
    rw [defined.selfAt_eq (named mem)] at starts fails
    constructor
    · intro node item
      obtain ⟨d, ofNode, found, isSelf⟩ := defined.exists_of_selfItem item
      rw [item] at starts
      exact ⟨d, ofNode, found, isSelf, starts d.id ofNode⟩
    · intro item
      rw [item] at fails
      exact fails rfl
  · rw [(told_of_resolveNames second covers wellFormed).reported]
    exact List.filterMap_congr fun occ mem => by rw [defined.isSome_selfAt (named mem)]

/-- A `mod` inside an impl, between other uses of it:

        impl Self { func f() { mod m { func g() { self } } Self } } -/
def cutOff : Program :=
  ⟨⟨0⟩, ⟨0, 60⟩,
    [.impl ⟨⟨1⟩, false, ⟨1, 1⟩⟩ [] none
      (.path ⟨⟨2⟩, false, [⟨.selfType, ⟨2, 1⟩⟩], false⟩ [])
      [.func ⟨⟨3⟩, false, ⟨3, 1⟩⟩ .func ⟨"f", ⟨3, 1⟩⟩ [] [] none
        (some (.block .plain (.mk ⟨4⟩
          [.item (.mod ⟨⟨5⟩, false, ⟨5, 1⟩⟩ ⟨"m", ⟨5, 1⟩⟩
            [.func ⟨⟨6⟩, false, ⟨6, 1⟩⟩ .func ⟨"g", ⟨6, 1⟩⟩ [] [] none
              (some (.selfValue ⟨7⟩ ⟨7, 1⟩))]),
          .expr (.path ⟨⟨8⟩, false, [⟨.selfType, ⟨8, 1⟩⟩], false⟩ [])])))]]⟩

/-- Behind the `mod`, `Self` is the impl again. In it `self` stands for nothing, and that is the
    only error about it. -/
theorem self_is_the_innermost_item_of_cutOff :
    ∃ reported built log', (new {}).build cutOff .empty = .ok (reported, built) log' ∧
      ∃ resolved log₂,
        resolveNames built.tables cutOff (log'.push .resolveStarted) = .ok resolved log₂ ∧
        resolved.resolutions[(⟨7⟩ : NodeId)]? = some .error ∧
        resolved.diagnostics.filter (·.isSelfOutside) = [.selfOutsideItem "self" ⟨7, 1⟩] ∧
        ∃ occ ∈ cutOff.occurrences, occ.node = ⟨8⟩ ∧ ∃ d,
          built.defs.ofNode? ⟨1⟩ = some d.id ∧ built.defs.find? d.id = some d ∧
            d.kind.isSelfItem = true ∧ StartsAt built.tables cutOff resolved occ d.id := by
  have wellFormed : cutOff.WellFormed := ⟨by decide +kernel, by decide +kernel⟩
  obtain ⟨reported, built, log', run, -⟩ := build_completes {} wellFormed.distinct .empty
  obtain ⟨-, resolved, log₂, second, words, reports⟩ := self_is_the_innermost_item wellFormed run
  let inImpl : Regions := [⟨.block, .block ⟨4⟩, []⟩, ⟨.func, .item ⟨3⟩, []⟩, ⟨.item, .item ⟨1⟩, []⟩,
    cutOff.region]
  let behind : Occurrence :=
    ⟨⟨8⟩, .expr ⟨⟨8⟩, false, [⟨.selfType, ⟨8, 1⟩⟩], false⟩, inImpl⟩
  let inside : Occurrence :=
    ⟨⟨7⟩, .selfValue ⟨7, 1⟩, ⟨.func, .item ⟨6⟩, []⟩ :: ⟨.item, .item ⟨5⟩, []⟩ :: inImpl⟩
  -- the entries can be computed from the outline
  have isOneOf : cutOff.isOneOf = fun kinds node =>
      (cutOff.entry :: (Outline.ofProgram cutOff).entries).any fun entry =>
        entry.node == node && kinds.contains entry.kind := by
    funext kinds node
    rw [Program.isOneOf, Program.entries_eq]
  have item : cutOff.selfItem? behind.around = some ⟨1⟩ := by
    rw [Program.selfItem?, isOneOf]
    decide +kernel
  have noItem : cutOff.selfItem? inside.around = none := by
    rw [Program.selfItem?, isOneOf]
    decide +kernel
  have listed : cutOff.occurrences.filterMap (fun occ =>
      occ.role.selfOutside? (cutOff.selfItem? occ.around).isSome) =
        [.selfOutsideItem "self" ⟨7, 1⟩] := by
    simp only [Program.selfItem?, isOneOf]
    decide +kernel
  have mem : behind ∈ cutOff.occurrences := by decide +kernel
  have mem' : inside ∈ cutOff.occurrences := by decide +kernel
  obtain ⟨starts, -⟩ := words behind mem (.path rfl rfl)
  obtain ⟨-, fails⟩ := words inside mem' .selfValue
  exact ⟨reported, built, log', run, resolved, log₂, second, fails noItem, reports.trans listed,
    behind, mem, rfl, starts ⟨1⟩ item⟩

end Session

end NameResolution
