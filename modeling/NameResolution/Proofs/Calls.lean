import NameResolution.Proofs.Resolution.Targets
import NameResolution.Proofs.Resolution.Segments
import NameResolution.Proofs.Session
import NameResolution.Proofs.Text.Calls

/-! # Calls and the functions they come to

    A function is put into a set under the suffix of its parameters, and sets are
    copied from module to module by imports of all kinds. A call asks by the
    suffix of its arguments. What it comes to is the member with this suffix,
    which has been declared with it, however it came into the set. -/

namespace NameResolution

/-! ## Functions in the text -/

/-- No function is declared with two suffixes. -/
theorem Program.suffix_of_declaresFunc {program : Program} (distinct : program.nodes.Nodup)
    {node : NodeId} {suffix suffix' : String} (declares : program.DeclaresFunc node suffix)
    (declares' : program.DeclaresFunc node suffix') : suffix = suffix' := by
  have node_of_function {step : OutlineStep} {node : NodeId} {suffix : String}
      (function : step.function? = some (node, suffix)) : step.node? = some node := by
    cases step <;> cases function <;> rfl
  obtain ⟨step, mem, function⟩ := declares
  obtain ⟨step', mem', function'⟩ := declares'
  obtain rfl : step = step' := eq_of_nodup_filterMap (Program.nodup_outline distinct) mem mem'
    (node_of_function function) (node_of_function function')
  rw [function] at function'
  cases function'
  rfl

/-! ## Paths on the way -/

namespace Resolving

variable {tables : Tables} {program : Program} {ns : Namespace} {path : Path}
  {labels : Option String} {s resolved : ResolveState} {scopes : ScopeStack}

theorem Meets.exists_step (h : Meets tables program ns path labels s resolved) :
    ∃ step ∈ Walk.ofProgram program, LooksUp tables s.scopes step ns path labels := by
  obtain ⟨before, step, after, split, -, looksUp⟩ := h
  refine ⟨step, ?_, looksUp⟩
  rw [split]
  exact List.mem_append_right _ (List.mem_cons_self ..)

/-- Only a path comes with labels. -/
theorem LooksUp.eq_of_some {step : WalkStep} {suffix : String}
    (h : LooksUp tables scopes step ns path (some suffix)) :
    step = .path ns path (some suffix) := by
  cases h
  rfl

/-- A callee is looked up as a value, with the labels of its call. -/
theorem Meets.of_call (h : Meets tables program ns path labels s resolved)
    (distinct : program.nodes.Nodup) {call : Call} (mem : call ∈ program.calls)
    (same : call.callee.id = path.id) :
    call.callee = path ∧ ns = .value ∧ labels = some (Arg.suffix call.args) := by
  obtain ⟨step, here, looksUp⟩ := h.exists_step
  have visits : call.step.visited? = some path.id := congrArg some same
  obtain rfl : call.step = step := eq_of_nodup_filterMap (Program.nodup_walk distinct)
    (Call.step_mem_walk mem) here visits looksUp.visited?
  cases looksUp
  exact ⟨rfl, rfl, rfl⟩

/-- A path that is no callee comes without labels. -/
theorem Meets.of_not_call (h : Meets tables program ns path labels s resolved)
    (alone : ∀ call ∈ program.calls, call.callee.id ≠ path.id) : labels = none := by
  obtain ⟨step, here, looksUp⟩ := h.exists_step
  cases labels with
  | none => rfl
  | some suffix =>
    obtain rfl := looksUp.eq_of_some
    have labelled : WalkStep.path ns path (some suffix) ∈ program.calls.map Call.step :=
      program.labels_walk ▸ List.mem_filter.mpr ⟨here, rfl⟩
    obtain ⟨call, mem, eq⟩ := List.mem_map.mp labelled
    cases eq
    exact absurd rfl (alone call mem)

/-- Each path in the text is come upon. -/
theorem exists_meets_of_occurrence {log log' : Log}
    (run : resolveNames tables program log = .ok resolved log')
    (covers : Covers tables.defs tables.tree program) (wellFormed : program.WellFormed)
    {occ : Occurrence} (mem : occ ∈ program.occurrences) (isPath : occ.role.path? = some path) :
    ∃ ns labels s, Meets tables program ns path labels s resolved := by
  obtain ⟨step, here, refers⟩ := program.traces_walk.exists_refers mem isPath
  rcases occ with ⟨node, role, regions⟩
  obtain ⟨before, after, split⟩ := List.append_of_mem here
  obtain ⟨s, through⟩ := exists_goesThrough run split
  obtain ⟨around, stands, -⟩ := through.stands split covers wellFormed.distinct wellFormed.spelled
  obtain ⟨isValue, reads, -⟩ := Yields.false_iff.mp (yields_isValueArg covers.intact stands path)
  have looksUp : ∃ ns labels, LooksUp tables s.scopes step ns path labels := by
    cases refers <;> cases isPath
    · exact ⟨_, _, .path⟩
    · exact ⟨_, _, .path⟩
    · exact ⟨_, _, .path⟩
    · exact ⟨_, _, .typeArg reads⟩
  obtain ⟨ns, labels, looksUp⟩ := looksUp
  exact ⟨ns, labels, s, before, step, after, split, through, looksUp⟩

/-- Each callee is come upon with the labels of its call. -/
theorem exists_meets_of_call {log log' : Log}
    (run : resolveNames tables program log = .ok resolved log') {call : Call}
    (mem : call ∈ program.calls) :
    ∃ s, Meets tables program .value call.callee (some (Arg.suffix call.args)) s resolved := by
  obtain ⟨before, after, split⟩ := List.append_of_mem (Call.step_mem_walk mem)
  obtain ⟨s, through⟩ := exists_goesThrough run split
  exact ⟨s, before, call.step, after, split, through, .path⟩

end Resolving

/-! ## What a path to a set comes to -/

/-- Suffixes of a set of functions: all of them, in order. -/
structure Definitions.Lists (defs : Definitions) (set : OverloadId) (suffixes : List String) :
    Prop where
  all : ∀ suffix, suffix ∈ suffixes ↔ (defs.member? set suffix).isSome
  ordered : suffixes.Pairwise fun suffix suffix' => compare suffix suffix' = .lt

theorem Definitions.lists_suffixes {defs : Definitions} {id : OverloadId} {set : OverloadSet}
    (held : defs.overloads[id.index]? = some set) : defs.Lists id set.suffixes where
  all suffix := by
    rw [Definitions.member?, held]
    show suffix ∈ set.members.keys ↔ (set.members[suffix]?).isSome
    rw [Std.TreeMap.mem_keys, Std.TreeMap.mem_iff_isSome_getElem?]
  ordered := Std.TreeMap.ordered_keys

namespace OverloadSet

variable {set : OverloadSet} {suffix : String} {member : DefId}

theorem map_fst_toList (set : OverloadSet) : set.toList.map Prod.fst = set.suffixes :=
  Std.TreeMap.map_fst_toList_eq_keys

/-- The member with the only suffix is the only one. -/
theorem single?_of_suffixes (only : set.suffixes = [suffix]) (mem : set.get? suffix = some member) :
    set.single? = some member := by
  have listed := mem_toList.mpr mem
  rw [← map_fst_toList] at only
  obtain ⟨⟨_, other⟩, members, eq, rfl, none⟩ := List.map_eq_cons_iff.mp only
  rw [List.map_eq_nil_iff.mp none] at eq
  rw [eq, List.mem_singleton] at listed
  cases listed
  rw [single?, eq]

/-- With more suffixes than one, or without any, no member is the only one. -/
theorem single?_eq_none (several : set.suffixes.length ≠ 1) : set.single? = none := by
  rw [← map_fst_toList, List.length_map] at several
  unfold single?
  split
  · next only =>
    rw [only] at several
    exact absurd rfl several
  · rfl

end OverloadSet

namespace Tables.EndsAtSet

variable {tables : Tables} {stack : ScopeStack} {around : Regions} {ns : Namespace} {path : Path}
  {ident : Ident} {id : OverloadId}

theorem spelled (h : tables.EndsAtSet stack ns path ident id) : path.segments ≠ [] := by
  cases h with
  | name _ alone _ => simp [alone]
  | member split _ _ _ => simp [split]

/-- The set is there. -/
theorem exists_held (h : tables.EndsAtSet stack ns path ident id)
    (intact : Intact tables.defs tables.tree) (stands : Stands tables stack around) :
    ∃ set, tables.defs.overloads[id.index]? = some set := by
  have bound : ∃ module, tables.tree.bindingAt? module ns ident.name = some (.overloads id) := by
    cases h with
    | @name _ module _ _ _ bound =>
      have answer := stands.lookup intact.validTree ns ident.name
      rw [bound] at answer
      exact ⟨module, answer.item module _ rfl⟩
    | member _ _ _ bound => exact ⟨_, bound⟩
  obtain ⟨module, bound⟩ := bound
  obtain ⟨⟨set, -, -, held, -⟩, -⟩ := intact.bindings bound
  exact ⟨set, held⟩

end Tables.EndsAtSet

namespace Session

open Resolving

/-- A node is recorded as an error, which has been reported where the second pass came by. -/
def Fails (s resolved : ResolveState) (node : NodeId) (d : Diagnostic) : Prop :=
  resolved.resolutions[node]? = some .error ∧ ∃ warnings,
    (∀ warning ∈ warnings, warning.isError = false) ∧
      s.diagnostics ++ (warnings ++ [d]) <+: resolved.diagnostics

/-- A node is recorded as what a member of a set finally is. -/
def Hits (tables : Tables) (resolved : ResolveState) (node : NodeId) (member : DefId) : Prop :=
  ∃ final, tables.defs.resolveAlias member = .ok final ∧
    resolved.resolutions[node]? = some (.definition final)

/-- A call comes to no function but one that is declared with its labels. Where the path of the
    callee ends at a set of functions, it comes to the member with these labels, or fails with all
    suffixes of the set. -/
structure CallHits (tables : Tables) (program : Program) (path : Path) (labels : String)
    (s resolved : ResolveState) : Prop where
  declared : ∀ id d, resolved.resolutions[path.id]? = some (.definition id) →
    tables.defs.find? id = some d → d.kind = .func ∨ d.kind = .init →
      ∀ suffix, program.DeclaresFunc d.node suffix ↔ suffix = labels
  member : ∀ ident set member, tables.EndsAtSet s.scopes .value path ident set →
    tables.defs.member? set labels = some member → Hits tables resolved path.id member
  mismatch : ∀ ident set, tables.EndsAtSet s.scopes .value path ident set →
    tables.defs.member? set labels = none → ∃ suffixes, tables.defs.Lists set suffixes ∧
      Fails s resolved path.id (.suffixMismatch ident.name labels ident.span suffixes
        (tables.overloadsHelp ident.name suffixes))

/-- Where any other path ends at a set of functions, it comes to the only member, or fails with all
    suffixes of the set. -/
def OtherHits (tables : Tables) (ns : Namespace) (path : Path) (s resolved : ResolveState) :
    Prop :=
  ∀ ident set, tables.EndsAtSet s.scopes ns path ident set →
    ∃ suffixes, tables.defs.Lists set suffixes ∧
      (∀ suffix member, suffixes = [suffix] → tables.defs.member? set suffix = some member →
        Hits tables resolved path.id member) ∧
      (suffixes.length ≠ 1 → Fails s resolved path.id (.ambiguousOverload ident.name ident.span
        suffixes (tables.overloadsHelp ident.name suffixes)))

variable {tables : Tables} {program : Program} {ns : Namespace} {path : Path}
  {labels : Option String} {s resolved : ResolveState} {around : Regions} {ident : Ident}
  {id : OverloadId} {set : OverloadSet}

/-- What is recorded and reported is what the labels pick. -/
theorem exists_picks_of_meets (h : Meets tables program ns path labels s resolved)
    (intact : Intact tables.defs tables.tree) (stands : Stands tables s.scopes around)
    (ends : tables.EndsAtSet s.scopes ns path ident id)
    (held : tables.defs.overloads[id.index]? = some set) :
    ∃ result, tables.Picks ident set labels result ∧
      resolved.resolutions[path.id]? = some (recordOf result) ∧ ∃ warnings,
        (∀ warning ∈ warnings, warning.isError = false) ∧
          s.diagnostics ++ (warnings ++ errorsOf result) <+: resolved.diagnostics := by
  obtain ⟨result, warnings, came, recorded, reported⟩ := h.becomes intact.validDefs
  obtain ⟨result', warnings', picks, came'⟩ :=
    ends.exists_picks intact stands.known_nearest held labels
  rw [came] at came'
  cases came'
  refine ⟨result, picks, recorded, warnings, ?_, reported⟩
  have yields := yields_resolvePath intact stands ends.spelled ns labels
  rw [came] at yields
  intro warning mem
  have noError := List.filter_eq_nil_iff.mp yields.1 warning mem
  simpa using noError

theorem hits_of_meets (h : Meets tables program ns path labels s resolved)
    (intact : Intact tables.defs tables.tree) (stands : Stands tables s.scopes around)
    (ends : tables.EndsAtSet s.scopes ns path ident id)
    (held : tables.defs.overloads[id.index]? = some set) {member : DefId}
    (picked : set.pick? labels = some member) : Hits tables resolved path.id member := by
  obtain ⟨result, picks, recorded, -⟩ := exists_picks_of_meets h intact stands ends held
  cases picks with
  | @member _ final picked' stands =>
    rw [picked] at picked'
    cases picked'
    exact ⟨final, (intact.validDefs.resolveAlias_iff stands.known).mpr stands, recorded⟩
  | nothing unpicked =>
    rw [picked] at unpicked
    cases unpicked

theorem fails_of_meets (h : Meets tables program ns path labels s resolved)
    (intact : Intact tables.defs tables.tree) (stands : Stands tables s.scopes around)
    (ends : tables.EndsAtSet s.scopes ns path ident id)
    (held : tables.defs.overloads[id.index]? = some set) (unpicked : set.pick? labels = none) :
    Fails s resolved path.id (tables.unpicked ident set labels) := by
  obtain ⟨result, picks, recorded, reported⟩ := exists_picks_of_meets h intact stands ends held
  cases picks with
  | member picked _ =>
    rw [unpicked] at picked
    cases picked
  | nothing => exact ⟨recorded, reported⟩

theorem member?_of_held {defs : Definitions} (held : defs.overloads[id.index]? = some set)
    (suffix : String) : defs.member? id suffix = set.get? suffix := by
  rw [Definitions.member?, held]
  rfl

/-- A path without labels. -/
theorem otherHits_of_meets (h : Meets tables program ns path none s resolved)
    (intact : Intact tables.defs tables.tree) (stands : Stands tables s.scopes around) :
    OtherHits tables ns path s resolved := by
  intro ident id ends
  obtain ⟨set, held⟩ := ends.exists_held intact stands
  refine ⟨set.suffixes, Definitions.lists_suffixes held, fun suffix member only mem => ?_,
    fun several => ?_⟩
  · rw [member?_of_held held] at mem
    exact hits_of_meets h intact stands ends held (OverloadSet.single?_of_suffixes only mem)
  · exact fails_of_meets h intact stands ends held (OverloadSet.single?_eq_none several)

/-- A path with the labels of a call. -/
theorem callHits_of_meets {suffix : String}
    (h : Meets tables program .value path (some suffix) s resolved)
    (sound : Sound program.DeclaresFunc (tables.defs, tables.tree)) (root : tables.IsMod .root)
    (distinct : program.nodes.Nodup) (stands : Stands tables s.scopes around) :
    CallHits tables program path suffix s resolved := by
  have intact : Intact tables.defs tables.tree := sound.intact
  refine ⟨fun id d recorded found isFunc other => ?_, fun ident id member ends mem => ?_,
    fun ident id ends noMember => ?_⟩
  · obtain ⟨result, warnings, came, recorded', -⟩ := h.becomes intact.validDefs
    rw [recorded] at recorded'
    have targets := Yields.true_iff.mp (Tables.gives_resolvePath sound root
      (h.selfItems intact.validDefs) path []) _ came
    cases result with
    | error e => cases recorded'
    | ok r =>
      obtain ⟨d', found', target⟩ := targets r rfl id (Option.some.inj recorded').symm
      rw [found] at found'
      cases found'
      have declares := target.labelled rfl isFunc
      constructor
      · exact fun declares' => Program.suffix_of_declaresFunc distinct declares' declares
      · rintro rfl
        exact declares
  · obtain ⟨set, held⟩ := ends.exists_held intact stands
    rw [member?_of_held held] at mem
    exact hits_of_meets h intact stands ends held mem
  · obtain ⟨set, held⟩ := ends.exists_held intact stands
    rw [member?_of_held held] at noMember
    exact ⟨set.suffixes, Definitions.lists_suffixes held,
      fails_of_meets h intact stands ends held noMember⟩

/-- The tables of a build are in order, and the root belongs to the program. -/
theorem sound_of_build {config : Config} {log log' : Log} {reported : List Diagnostic}
    {built : Session} (run : (new config).build program log = .ok (reported, built) log') :
    Sound program.DeclaresFunc (built.defs, built.tree) ∧ built.tables.IsMod .root := by
  obtain ⟨declared, log₁, first, start, imported, steps, defs, tree⟩ := steps_of_build run
  have later := start.path steps
  rw [defs, tree]
  refine ⟨later.sound, ?_⟩
  obtain ⟨m, there, owner, -⟩ := later.sound.intact.validTree.root
  refine ⟨m, by rw [← there, ← tree]; rfl, ?_⟩
  have kept := later.defs_keeps.defined (find?_root_of_declareProgram first)
  unfold ModuleTree.isMod
  rw [owner]
  show (built.defs.get .root >>= fun d => pure (d.kind == .mod)) = .ok true
  rw [defs, Definitions.get_of_find? kept]
  rfl

/-- Calls hit the overloads that their labels name. After both passes each callee of the text has
    been looked up with the labels of its call, each other path without labels, and what is
    recorded and reported of them is what the sets hold where their paths end, through any chain
    of imports. -/
theorem calls_hit_their_overloads {config : Config} {program : Program}
    (wellFormed : program.WellFormed) {log log' : Log} {reported : List Diagnostic}
    {built : Session} (run : (new config).build program log = .ok (reported, built) log') :
    ∃ resolved log₂,
      resolveNames built.tables program (log'.push .resolveStarted) = .ok resolved log₂ ∧
      (∀ call ∈ program.calls, ∃ s, Meets built.tables program .value call.callee
        (some (Arg.suffix call.args)) s resolved) ∧
      (∀ occ ∈ program.occurrences, ∀ path ∈ occ.role.path?, ∃ ns labels s,
        Meets built.tables program ns path labels s resolved) ∧
      ∀ ns path labels s, Meets built.tables program ns path labels s resolved →
        (∀ call ∈ program.calls, call.callee.id = path.id →
          CallHits built.tables program path (Arg.suffix call.args) s resolved) ∧
        ((∀ call ∈ program.calls, call.callee.id ≠ path.id) →
          OtherHits built.tables ns path s resolved) := by
  have isBuilt := built_of_build wellFormed run
  have covers : Covers built.tables.defs built.tables.tree program := isBuilt.covers
  obtain ⟨sound, root⟩ := sound_of_build run
  obtain ⟨resolved, log₂, second, -⟩ := resolveNames_completes covers wellFormed.distinct
    wellFormed.spelled (log'.push .resolveStarted)
  refine ⟨resolved, log₂, second, fun call mem => exists_meets_of_call second mem,
    fun occ mem path isPath => exists_meets_of_occurrence second covers wellFormed mem isPath,
    fun ns path labels s meets => ?_⟩
  have ⟨before, step, after, split, through, _⟩ := meets
  obtain ⟨around, stands, -⟩ := through.stands split covers wellFormed.distinct wellFormed.spelled
  refine ⟨fun call mem same => ?_, fun alone => ?_⟩
  · obtain ⟨-, rfl, rfl⟩ := meets.of_call wellFormed.distinct mem same
    exact callHits_of_meets meets sound root wellFormed.distinct stands
  · obtain rfl := meets.of_not_call alone
    exact otherHits_of_meets meets sound.intact stands

/-- The path `f`, at a node. -/
def mention (node : Nat) : Path := ⟨⟨node⟩, false, [⟨.name "f", ⟨node, 1⟩⟩], false⟩

/-- A function that comes to the calls under another name and through a glob:

        mod a { pub func f(); pub use ::b::g as f; }
        mod b { pub func g(x); }
        pub use ::a::*;
        const c = f(x: f) + f(y: b::g); -/
def renamed : Program :=
  ⟨⟨0⟩, ⟨0, 120⟩,
    [.mod ⟨⟨1⟩, true, ⟨1, 1⟩⟩ ⟨"a", ⟨1, 1⟩⟩
      [.func ⟨⟨2⟩, true, ⟨2, 1⟩⟩ .func ⟨"f", ⟨2, 1⟩⟩ [] [] none none,
      .useDecl ⟨⟨3⟩, true, ⟨3, 1⟩⟩ (.path ⟨4⟩ ⟨4, 1⟩
        ⟨true, [⟨.name "b", ⟨4, 1⟩⟩, ⟨.name "g", ⟨4, 1⟩⟩]⟩ (some ⟨"f", ⟨4, 1⟩⟩))],
    .mod ⟨⟨5⟩, true, ⟨5, 1⟩⟩ ⟨"b", ⟨5, 1⟩⟩
      [.func ⟨⟨6⟩, true, ⟨6, 1⟩⟩ .func ⟨"g", ⟨6, 1⟩⟩ []
        [.mk none (.ident ⟨7⟩ ⟨"x", ⟨7, 1⟩⟩ none) none none] none none],
    .useDecl ⟨⟨8⟩, true, ⟨8, 1⟩⟩ (.glob ⟨9⟩ ⟨9, 1⟩ (some ⟨true, [⟨.name "a", ⟨9, 1⟩⟩]⟩)),
    .const ⟨⟨10⟩, false, ⟨10, 1⟩⟩ ⟨"c", ⟨10, 1⟩⟩ none (some (.operation .binary
      [.invoke (.path (mention 11) []) [.mk (some ⟨"x", ⟨12, 1⟩⟩) (.path (mention 12) [])],
      .invoke (.path (mention 13) []) [.mk (some ⟨"y", ⟨14, 1⟩⟩) (.path ⟨⟨14⟩, false,
        [⟨.name "b", ⟨14, 1⟩⟩, ⟨.name "g", ⟨14, 1⟩⟩], false⟩ [])]]))]⟩

/-- The first call hits `g`. The argument of it fails, since `f` is ambiguous without labels, and
    so does the second call. -/
theorem calls_hit_their_overloads_of_renamed :
    ∃ reported built log', (new {}).build renamed .empty = .ok (reported, built) log' ∧
      ∃ resolved log₂,
        resolveNames built.tables renamed (log'.push .resolveStarted) = .ok resolved log₂ ∧
        built.defs.member? ⟨2⟩ "(x:)" = some ⟨8⟩ ∧ Hits built.tables resolved ⟨11⟩ ⟨8⟩ ∧
        ∃ s s' suffixes suffixes', built.defs.Lists ⟨2⟩ suffixes ∧ built.defs.Lists ⟨2⟩ suffixes' ∧
          Fails s resolved ⟨12⟩ (.ambiguousOverload "f" ⟨12, 1⟩ suffixes
            (built.tables.overloadsHelp "f" suffixes)) ∧
          Fails s' resolved ⟨13⟩ (.suffixMismatch "f" "(y:)" ⟨13, 1⟩ suffixes'
            (built.tables.overloadsHelp "f" suffixes')) := by
  -- the walk up to the first call
  let front := (Walk.ofProgram renamed).take 10
  have checked : ∃ r log', ((new {}).build renamed >>= fun p => do
      Logged.emit .resolveStarted
      let followed ← Resolving.follow p.2.tables front .start
      return (p, followed.2)) .empty = .ok r log' ∧
        decide (r.1.2.tables.lookup r.2.scopes .value "f" =
            .ok (some (.item .root (.overloads ⟨2⟩))) ∧
          (r.1.2.defs.member? ⟨2⟩ "()").isSome ∧ r.1.2.defs.member? ⟨2⟩ "(x:)" = some ⟨8⟩ ∧
          r.1.2.defs.member? ⟨2⟩ "(y:)" = none) = true :=
    Logged.exists_of_check (by decide +kernel)
  obtain ⟨⟨⟨reported, built⟩, _⟩, _, both, holds⟩ := checked
  obtain ⟨_, log', run, follows⟩ := Logged.bind_eq_ok.mp both
  obtain ⟨_, _, started, follows⟩ := Logged.bind_eq_ok.mp follows
  cases started
  obtain ⟨⟨_, s⟩, log₁, first, last⟩ := Logged.bind_eq_ok.mp follows
  cases last
  obtain ⟨bound, plain, labelled, noMember⟩ := of_decide_eq_true holds
  have wellFormed : renamed.WellFormed := ⟨by decide +kernel, by decide +kernel⟩
  obtain ⟨resolved, log₂, second, -, -, hits⟩ := calls_hit_their_overloads wellFormed run
  -- the pass comes by the three mentions of `f` one after the other
  let back := (Walk.ofProgram renamed).drop 13
  let call₁ := WalkStep.path .value (mention 11) (some "(x:)")
  let alone := WalkStep.path .value (mention 12) none
  let call₂ := WalkStep.path .value (mention 13) (some "(y:)")
  have split : Walk.ofProgram renamed = front ++ call₁ :: alone :: call₂ :: back := by
    decide +kernel
  have through := goesThrough_of_follow second split first
  obtain ⟨s', same', through'⟩ := through.behind_path
  obtain ⟨s'', same'', through''⟩ := through'.behind_path
  have ends {n : Nat} {stack : ScopeStack} (same : stack = s.scopes) :
      built.tables.EndsAtSet stack .value (mention n) ⟨"f", ⟨n, 1⟩⟩ ⟨2⟩ :=
    .name rfl rfl (same ▸ bound)
  have meets : Meets built.tables renamed .value (mention 11) (some "(x:)") s resolved :=
    ⟨front, call₁, _, split, through, .path⟩
  have meets' : Meets built.tables renamed .value (mention 12) none s' resolved :=
    ⟨front ++ [call₁], alone, _, by simp [split], through', .path⟩
  have meets'' : Meets built.tables renamed .value (mention 13) (some "(y:)") s'' resolved :=
    ⟨front ++ [call₁] ++ [alone], call₂, _, by simp [split], through'', .path⟩
  have hits₁ : CallHits built.tables renamed (mention 11) "(x:)" s resolved :=
    (hits _ _ _ _ meets).1 _ (List.mem_cons_self ..) rfl
  have hits₂ : CallHits built.tables renamed (mention 13) "(y:)" s'' resolved :=
    (hits _ _ _ _ meets'').1 _ (List.mem_cons_of_mem _ (List.mem_cons_self ..)) rfl
  have other : OtherHits built.tables .value (mention 12) s' resolved :=
    (hits _ _ _ _ meets').2 (by rintro call (_ | ⟨_, _ | ⟨_, ⟨⟩⟩⟩) <;> decide)
  obtain ⟨suffixes, lists, -, ambiguous⟩ := other _ _ (ends same')
  obtain ⟨suffixes', lists', mismatch⟩ := hits₂.mismatch _ _ (ends (same''.trans same')) noMember
  refine ⟨reported, built, log', run, resolved, log₂, second, labelled,
    hits₁.member _ _ _ (ends rfl) labelled, s', s'', suffixes, suffixes', lists, lists',
    ambiguous fun only => ?_, mismatch⟩
  -- both functions are in the set
  obtain ⟨suffix, rfl⟩ := List.length_eq_one_iff.mp only
  have first' := List.mem_singleton.mp ((lists.all "()").mpr plain)
  have second' := List.mem_singleton.mp ((lists.all "(x:)").mpr (labelled ▸ rfl))
  exact absurd (first'.trans second'.symm) (by decide)

end Session

end NameResolution
