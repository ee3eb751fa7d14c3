import NameResolution.Walk.Resolve
import NameResolution.Proofs.Resolution.Paths
import NameResolution.Proofs.Text.Walk
import Mathlib.Data.List.Forall2

/-! # Steps of the second pass

    A step that comes upon a node records what it refers to, with one error
    where that is nothing. A step that binds or enters something changes the
    scopes as the regions change, and leaves all records alone. No step ends
    with a fault as long as its node has not been recorded before. -/

namespace NameResolution

/-! ## What is recorded of an occurrence -/

/-- Whether a node is there to refer to something. -/
def Occurrence.IsReference (tables : Tables) (occ : Occurrence) : Prop :=
  match occ.role with
  | .expr _ | .field _ | .pattern _ | .type _ | .typeArg _ | .selfValue _ => True
  | .lifetime name => name.name ≠ Walk.staticLifetime
  | .bareName name => (tables.variantInReach name.name occ.around).isSome
  | .declared | .item | .func _ | .block _ | .imported | .binder => False

/-- The path at a node. -/
def Role.path? : Role → Option Path
  | .expr path | .pattern path | .type path | .typeArg path => some path
  | _ => none

/-- The places an error about a node may point at. -/
def Role.spans : Role → List Span
  | .expr path | .pattern path | .type path | .typeArg path => path.segments.map (·.span)
  | .field name | .bareName name | .lifetime name => [name.span]
  | .selfValue span => [span]
  | .declared | .item | .func _ | .block _ | .imported | .binder => []

/-- The name by which a node may read a variable. -/
def Role.variable? : Role → Option String
  | .expr ⟨_, false, [⟨.name name, _⟩], _⟩ => some name
  | .field name => some name.name
  | _ => none

/-- What is recorded of an occurrence in the end. -/
structure Settled (tables : Tables) (occ : Occurrence) (recorded : Option Resolution) : Prop where
  isSome_iff : recorded.isSome ↔ occ.IsReference tables
  variable_iff : ∀ name, occ.role.variable? = some name → ∀ node,
    recorded = some (.localVar node) ↔ tables.visibleVariable name occ.around = some node

/-- No claim about the variable that is read is made of a node that reads none. -/
theorem Role.of_variable_none {role : Role} (h : role.variable? = none) {holds : String → Prop}
    (name : String) (h' : role.variable? = some name) : holds name := by
  rw [h] at h'
  cases h'

/-- A node that refers to nothing has no record. -/
theorem Settled.silent {tables : Tables} {occ : Occurrence} (h : ¬ occ.IsReference tables)
    (h' : occ.role.variable? = none) : Settled tables occ none where
  isSome_iff := iff_of_false (by simp) h
  variable_iff := Role.of_variable_none h'

/-- A diagnostic is about an occurrence. -/
def Diagnostic.Blames (d : Diagnostic) (occ : Occurrence) : Prop := d.span ∈ occ.role.spans

/-- What a part of the second pass has done about some occurrences. -/
structure Resolves (tables : Tables) (occs : List Occurrence) (s s' : ResolveState) : Prop where
  others : ∀ node, node ∉ occs.map (·.node) → s'.resolutions[node]? = s.resolutions[node]?
  settled : ∀ occ ∈ occs, Settled tables occ s'.resolutions[occ.node]?
  /-- Each error is about one of the nodes that refer to nothing, in order -/
  reported : ∃ more, s'.diagnostics = s.diagnostics ++ more ∧
    List.Forall₂ Diagnostic.Blames (more.filter (·.isError))
      (occs.filter fun occ => s'.resolutions[occ.node]? = some .error)

variable {tables : Tables} {s s' s'' : ResolveState} {log : Log}

namespace Resolves

variable {occs occs' : List Occurrence}

/-- Nothing is recorded. -/
theorem of_eq (settled : ∀ occ ∈ occs, Settled tables occ none)
    (fresh : ∀ occ ∈ occs, s.resolutions[occ.node]? = none)
    (resolutions : s'.resolutions = s.resolutions) (diagnostics : s'.diagnostics = s.diagnostics) :
    Resolves tables occs s s' where
  others node _ := by rw [resolutions]
  settled occ mem := by
    rw [resolutions, fresh occ mem]
    exact settled occ mem
  reported := by
    refine ⟨[], by rw [diagnostics, List.append_nil], ?_⟩
    have none_wrong : occs.filter (fun occ => s'.resolutions[occ.node]? = some .error) = [] := by
      apply List.filter_eq_nil_iff.mpr
      intro occ mem
      rw [resolutions, fresh occ mem]
      simp
    rw [none_wrong]
    exact .nil

theorem trans (h : Resolves tables occs s s') (h' : Resolves tables occs' s' s'')
    (apart : ∀ occ ∈ occs, occ.node ∉ occs'.map (·.node)) :
    Resolves tables (occs ++ occs') s s'' where
  others node other := by
    rw [List.map_append, List.mem_append, not_or] at other
    rw [h'.others node other.2, h.others node other.1]
  settled occ mem := by
    rcases List.mem_append.mp mem with mem | mem
    · rw [h'.others _ (apart occ mem)]
      exact h.settled occ mem
    · exact h'.settled occ mem
  reported := by
    obtain ⟨more, eq, blames⟩ := h.reported
    obtain ⟨more', eq', blames'⟩ := h'.reported
    refine ⟨more ++ more', by rw [eq', eq, List.append_assoc], ?_⟩
    -- the second part leaves the records of the first one alone
    have same : occs.filter (fun occ => s''.resolutions[occ.node]? = some .error) =
        occs.filter fun occ => s'.resolutions[occ.node]? = some .error :=
      List.filter_congr fun occ mem => by rw [h'.others _ (apart occ mem)]
    rw [List.filter_append, List.filter_append, same]
    exact List.rel_append blames blames'

end Resolves

/-! ## Scopes that come and go -/

/-- Nothing but the scopes has changed. -/
def Moves (s s' : ResolveState) : Prop :=
  s'.resolutions = s.resolutions ∧ s'.diagnostics = s.diagnostics

theorem Resolves.of_moves {occs : List Occurrence} {s₁ s₂ : ResolveState} (first : Moves s s₁)
    (resolves : Resolves tables occs s₁ s₂) (last : Moves s₂ s') : Resolves tables occs s s' := by
  obtain ⟨resolutions, diagnostics⟩ := first
  obtain ⟨resolutions', diagnostics'⟩ := last
  refine ⟨?_, ?_, ?_⟩
  · rw [resolutions', ← resolutions]
    exact resolves.others
  · rw [resolutions']
    exact resolves.settled
  · rw [resolutions', diagnostics', ← diagnostics]
    exact resolves.reported

theorem Agrees.new {kind : ScopeKind} {module : Option ModuleId} {selfItem : Option DefId}
    {owner : RegionOwner} {around : Regions} (owned : module = tables.defs.moduleOf owner)
    (known : ∀ id, selfItem = some id → tables.defs.Known id)
    (isSelf : selfItem = tables.selfAt (⟨kind, owner, []⟩ :: around)) :
    Agrees tables (.new kind module selfItem) ⟨kind, owner, []⟩ around where
  kind := rfl
  module := owned
  locals name := rfl
  others ns name _ := by
    cases ns <;> simp [Scope.find?, Scope.new, PerNamespace.get, PerNamespace.uniform]
  selfItem := known
  isSelf := isSelf

theorem Stands.push {stack : ScopeStack} {around : Regions} (stands : Stands tables stack around)
    {scope : Scope} {region : Region} (agrees : Agrees tables scope region around)
    (rooted : Rooted tables (region :: around)) :
    Stands tables (stack.push scope) (region :: around) :=
  ⟨.cons agrees stands.matching, rooted⟩

/-- A region without a module leaves the modules around as they are. -/
theorem Rooted.cons_of_bare {around : Regions} (rooted : Rooted tables around) {region : Region}
    (bare : region.owner = .none) : Rooted tables (region :: around) := by
  have modules : Regions.modules tables.defs (region :: around) = around.modules tables.defs := by
    simp [Regions.modules, bare, Definitions.moduleOf]
  have home : Regions.home (region :: around) = around.home := by
    simp [Regions.home, bare]
  refine ⟨?_, ?_⟩
  · rw [modules]
    exact rooted.chained
  · rw [home, modules]
    exact rooted.home

/-- A region with a module of its own lies in the nearest module around. -/
theorem Rooted.cons_of_nested {around : Regions} (rooted : Rooted tables around) {region : Region}
    (nested : Nested tables.defs tables.tree region.owner around) :
    Rooted tables (region :: around) := by
  obtain ⟨id, m, parent, held, found, inside, home⟩ := nested
  have modules : Regions.modules tables.defs (region :: around) =
      id :: around.modules tables.defs := by
    simp [Regions.modules, held]
  have owned : region.owner ≠ .none := by
    intro bare
    rw [bare] at held
    cases held
  have home' : Regions.home (region :: around) = region.owner := by
    simp [Regions.home, owned]
  refine ⟨?_, ?_⟩
  · rw [modules]
    have chained := rooted.chained
    rw [rooted.home] at home
    cases listed : around.modules tables.defs with
    | nil =>
      rw [listed] at home
      cases home
    -- the module around is the parent, so the chain grows by one link
    | cons nearest outer =>
      rw [listed] at home chained
      cases home
      exact .inside found inside chained
  · rw [home', modules, held, List.head?_cons]

/-- A scope is entered in which `Self` stands for the same as outside. -/
theorem run_enter {around : Regions} (stands : Stands tables s.scopes around) {kind : ScopeKind}
    {module : Option ModuleId} {owner : RegionOwner}
    (owned : module = tables.defs.moduleOf owner)
    (rooted : Rooted tables (⟨kind, owner, []⟩ :: around))
    (notItem : tables.selfAt (⟨kind, owner, []⟩ :: around) = tables.selfAt around) :
    Run False (Resolving.enter kind module) s log fun _ s' _ =>
      Stands tables s'.scopes (⟨kind, owner, []⟩ :: around) ∧ Moves s s' := by
  simp only [Resolving.enter, Run.modify_iff]
  have isSelf := stands.innermost_selfItem.trans notItem.symm
  exact ⟨stands.push (.new owned (fun _ => stands.known_selfItem) isSelf) rooted, rfl, rfl⟩

theorem run_enterPlain {around : Regions} (stands : Stands tables s.scopes around)
    (kind : ScopeKind) :
    Run False (Resolving.enter kind none) s log fun _ s' _ =>
      Stands tables s'.scopes (around.plain kind) ∧ Moves s s' :=
  run_enter stands rfl (stands.rooted.cons_of_bare rfl) (by cases kind <;> rfl)

theorem run_definitionAt (intact : Intact tables.defs tables.tree) {node : NodeId} {id : DefId}
    (h : tables.defs.ofNode? node = some id) :
    Run False (Resolving.definitionAt tables node) s log fun d s' _ =>
      s = s' ∧ d.id = id ∧ tables.defs.find? id = some d := by
  simp only [Resolving.definitionAt, h, Resolving.lift, Run.lift_iff]
  exact (intact.validDefs.known_of_node h).get.mono
    fun d found => ⟨trivial, intact.validDefs.ids found, found⟩

/-- What `Self` stands for inside an item is there. -/
theorem known_of_selfInside {d : Definition} (known : tables.defs.Known d.id)
    {outside : Option DefId} (outside_known : ∀ id, outside = some id → tables.defs.Known id) :
    ∀ id, Resolving.selfInside d outside = some id → tables.defs.Known id := by
  intro id inside
  unfold Resolving.selfInside at inside
  split at inside
  · cases inside
    exact known
  · split at inside
    · cases inside
    · exact outside_known id inside

theorem Opens.exists_region {around inside : Regions} {step : WalkStep} {node : NodeId}
    {role : Role} (opens : Opens around step node role inside) :
    ∃ region, inside = region :: around := by
  cases opens <;> exact ⟨_, rfl⟩

/-- A node that opens a scope refers to nothing. -/
theorem Opens.settled {around inside : Regions} {step : WalkStep} {node : NodeId} {role : Role}
    (opens : Opens around step node role inside) : Settled tables ⟨node, role, around⟩ none := by
  cases opens <;> exact .silent id rfl

/-- A node that opens a scope opens that of its region. -/
theorem run_opens (intact : Intact tables.defs tables.tree) {around inside : Regions}
    {step : WalkStep} {node : NodeId} {role : Role} (opens : Opens around step node role inside)
    (linked : Linked tables.defs tables.tree ⟨node, role, around⟩)
    (stands : Stands tables s.scopes around) :
    Run False (Resolving.step tables step) s log fun _ s' _ =>
      Stands tables s'.scopes inside ∧ Moves s s' := by
  cases opens with
  | item =>
    cases linked with
    | other notItem => exact absurd rfl notItem
    | item nested =>
      have rooted : Rooted tables (around.item node) := stands.rooted.cons_of_nested nested
      obtain ⟨module, m, parent, owned, -⟩ := nested
      obtain ⟨id, ofNode, held⟩ := Option.bind_eq_some_iff.mp owned
      simp only [Resolving.step, Resolving.enterItem, Run.bind_iff]
      apply (run_definitionAt intact ofNode).mono
      intro d _ log₁ read
      obtain ⟨rfl, rfl, found⟩ := read
      simp only [Definitions.module, held, Resolving.lift, Run.lift_iff, Yields.ok_iff,
        Run.modify_iff]
      have known := known_of_selfInside (intact.validDefs.known_of_node ofNode)
        fun _ => stands.known_selfItem
      have isSelf : Resolving.selfInside d s.scopes.innermost.selfItem =
          tables.selfAt (around.item node) := by
        rw [Regions.item, Tables.selfAt, ofNode, Option.bind_some, found,
          stands.innermost_selfItem]
      exact ⟨stands.push (.new owned.symm known isSelf) rooted, rfl, rfl⟩
  | @func _ owns =>
    simp only [Resolving.step, Run.bind_iff]
    cases linked with
    | other _ notFunc => exact absurd rfl (notFunc owns)
    | func nested =>
      have rooted : Rooted tables (around.func node true) := stands.rooted.cons_of_nested nested
      obtain ⟨module, m, parent, owned, -⟩ := nested
      obtain ⟨id, ofNode, held⟩ := Option.bind_eq_some_iff.mp owned
      apply (run_definitionAt intact ofNode).mono
      intro d _ log₁ read
      obtain ⟨rfl, rfl, -⟩ := read
      exact run_enter stands (held.trans owned.symm) rooted rfl
    | bareFunc ofNode bare =>
      apply (run_definitionAt intact ofNode).mono
      intro d _ log₁ read
      obtain ⟨rfl, rfl, -⟩ := read
      exact run_enter stands bare (stands.rooted.cons_of_bare rfl) rfl
  | @block kind _ owns =>
    simp only [Resolving.step, Resolving.enterBlock]
    cases linked with
    | other _ _ notBlock => exact absurd rfl (notBlock owns)
    | block nested =>
      have rooted : Rooted tables (around.block kind node true) :=
        stands.rooted.cons_of_nested nested
      obtain ⟨module, m, parent, owned, -⟩ := nested
      have held : tables.defs.blockModule? node = some module := owned
      simp only [held, Option.isNone_some, Bool.and_false]
      exact run_enter stands owned.symm rooted (by cases kind <;> rfl)
    | bareBlock bare =>
      simp only [bare, Bool.false_and]
      exact run_enter stands rfl (stands.rooted.cons_of_bare rfl) (by cases kind <;> rfl)

/-- The scope of a region is left. -/
theorem run_leave {region : Region} {around : Regions} (rooted : Rooted tables around)
    (matching : Matches tables s.scopes.toList (region :: around)) :
    Run False Resolving.leave s log fun _ s' _ =>
      Stands tables s'.scopes around ∧ Moves s s' := by
  simp only [Resolving.leave, Resolving.lift, Run.bind_iff, Run.get_iff, Run.lift_iff, Run.set_iff]
  obtain ⟨⟨inner, root⟩, resolutions, diagnostics⟩ := s
  cases inner with
  | nil =>
    -- the region of the program is the outermost one, and it is not left
    cases matching with
    | cons _ rest =>
      cases rest
      cases rooted.chained
  | cons scope inner =>
    cases matching with
    | cons _ rest => exact ⟨⟨rest, rooted⟩, rfl, rfl⟩

/-! ## Binding -/

/-- What is bound in the innermost region leaves the modules as they are. -/
theorem Rooted.binding {around : Regions} (rooted : Rooted tables around) (binders : List Binder) :
    Rooted tables (around.binding binders) := by
  have modules : (around.binding binders).modules tables.defs = around.modules tables.defs := by
    cases around <;> rfl
  refine ⟨?_, ?_⟩
  · rw [modules]
    exact rooted.chained
  · rw [Regions.home_binding, modules]
    exact rooted.home

/-- A variable that is bound is the one of its name. -/
theorem Agrees.define {scope : Scope} {region : Region} {around : Regions}
    (agrees : Agrees tables scope region around) {binder : Binder}
    (binds : binder.bare = true →
      tables.variantInReach binder.name (region :: around) = none) :
    Agrees tables (scope.define .value binder.name binder.node)
      { region with binders := binder :: region.binders } around where
  kind := agrees.kind
  module := agrees.module
  locals name := by
    by_cases same : binder.name = name
    · subst same
      rw [Scope.find?_define_self, Tables.variableIn_cons_self binds]
    · rw [Scope.find?_define_of_ne _ _ _ same, Tables.variableIn_cons_of_ne same, agrees.locals]
  others ns name notValue := by
    rw [← agrees.others ns name notValue]
    simp [Scope.find?, Scope.define, PerNamespace.get_set_of_ne _ notValue]
  selfItem := agrees.selfItem
  isSelf := agrees.isSelf.trans (tables.selfAt_binders region _ around).symm

theorem Stands.define {stack : ScopeStack} {around : Regions}
    (stands : Stands tables stack around) (binder : Binder)
    (binds : binder.bare = true → tables.variantInReach binder.name around = none) :
    Stands tables (stack.define .value binder.name binder.node) (around.binding [binder]) := by
  refine ⟨?_, stands.rooted.binding _⟩
  have matching := stands.matching
  rcases stack with ⟨inner, root⟩
  cases inner with
  | nil =>
    cases matching with
    | cons first rest => exact .cons (first.define binds) rest
  | cons scope inner =>
    cases matching with
    | cons first rest => exact .cons (first.define binds) rest

/-- A bare name that stands for a variant binds nothing. -/
theorem Stands.matched {stack : ScopeStack} {around : Regions}
    (stands : Stands tables stack around) {binder : Binder} (bare : binder.bare = true)
    (matched : (tables.variantInReach binder.name around).isSome) :
    Stands tables stack (around.binding [binder]) := by
  obtain ⟨matching, rooted⟩ := stands
  refine ⟨?_, rooted.binding _⟩
  generalize stack.toList = scopes at matching ⊢
  cases matching with
  | nil => exact .nil
  | cons first rest =>
    refine .cons ⟨first.kind, first.module, fun name => ?_, first.others, first.selfItem,
      first.isSelf.trans (tables.selfAt_binders _ _ _).symm⟩ rest
    rw [first.locals]
    exact (Tables.variableIn_cons_of_variant bare matched name).symm

theorem run_bindLocal {around : Regions} (stands : Stands tables s.scopes around) (ident : Ident)
    (node : NodeId) (bare : Bool)
    (binds : bare = true → tables.variantInReach ident.name around = none) :
    Run False (Resolving.bindLocal ident node) s log fun _ s' _ =>
      Stands tables s'.scopes (around.binding [⟨ident.name, node, bare⟩]) ∧ Moves s s' := by
  simp only [Resolving.bindLocal, Run.bind_iff, Run.emit_iff, Run.modify_iff]
  exact ⟨stands.define ⟨ident.name, node, bare⟩ binds, rfl, rfl⟩

/-! ## Recording -/

theorem run_record {node : NodeId} (fresh : s.resolutions[node]? = none) (r : Resolution) :
    Run False (Resolving.record node r) s log fun _ s' _ =>
      s' = { s with resolutions := s.resolutions.insert node r } := by
  simp only [Resolving.record, Run.bind_iff, Run.get_iff, fresh, Run.set_iff]

/-- What is reported with a resolution: an error at one of these places if it is none, and no error
    otherwise. -/
def Explains (spans : List Span) (r : Resolution) (reported : List Diagnostic) : Prop :=
  if r = .error then ∃ d, reported.filter (·.isError) = [d] ∧ d.span ∈ spans
  else reported.filter (·.isError) = []

theorem Resolves.of_record {node : NodeId} {role : Role} {around : Regions} {r : Resolution}
    (reference : Occurrence.IsReference tables ⟨node, role, around⟩)
    (isVariable : ∀ name, role.variable? = some name → ∀ n,
      r = .localVar n ↔ tables.visibleVariable name around = some n)
    (resolutions : s'.resolutions = s.resolutions.insert node r)
    {reported : List Diagnostic} (diagnostics : s'.diagnostics = s.diagnostics ++ reported)
    (explains : Explains role.spans r reported) :
    Resolves tables [⟨node, role, around⟩] s s' where
  others other ne := by
    have ne : node ≠ other := by
      rintro rfl
      simp at ne
    rw [resolutions, Std.TreeMap.getElem?_insert, if_neg (by simpa using ne)]
  settled occ mem := by
    rw [List.mem_singleton.mp mem, resolutions, Std.TreeMap.getElem?_insert_self]
    refine ⟨iff_of_true rfl reference, fun name hasName n => ?_⟩
    rw [Option.some.injEq]
    exact isVariable name hasName n
  reported := by
    refine ⟨reported, diagnostics, ?_⟩
    rw [List.filter_singleton, resolutions, Std.TreeMap.getElem?_insert_self]
    unfold Explains at explains
    -- one error for a record that is none, and no error for any other
    by_cases wrong : r = .error
    · rw [if_pos wrong] at explains
      obtain ⟨d, only, here⟩ := explains
      simp only [wrong, only]
      exact .cons here .nil
    · rw [if_neg wrong] at explains
      simp [wrong, explains]

/-- The scopes can be listed at any time. -/
theorem Stands.dump {stack : ScopeStack} {around : Regions} (stands : Stands tables stack around) :
    Yields False (stack.dump tables.tree) fun _ => True := by
  have each : ∀ p ∈ stack.toList.reverse.zipIdx,
      Yields False (ScopeStack.line tables.tree p.2 p.1) fun _ => True := by
    rintro ⟨scope, depth⟩ mem
    have mem : scope ∈ stack.toList := List.mem_reverse.mp (List.fst_mem_of_mem_zipIdx mem)
    unfold ScopeStack.line
    split
    · next module owned =>
      have listed : module ∈ stack.toList.filterMap (·.module) :=
        List.mem_filterMap.mpr ⟨scope, mem, owned⟩
      rw [stands.matching.modules] at listed
      simp only [Yields.bind_iff, Yields.pure_iff]
      exact (stands.rooted.chained.known module listed).get.mono fun _ _ => trivial
    · trivial
  simp only [ScopeStack.dump, Yields.bind_iff, Yields.pure_iff]
  exact (Yields.mapM _ each).mono fun _ _ => trivial

/-- What a path comes to, with what is reported. -/
theorem yields_resolvePath (intact : Intact tables.defs tables.tree) {stack : ScopeStack}
    {around : Regions} (stands : Stands tables stack around) {path : Path}
    (spelled : path.segments ≠ []) (ns : Namespace) (suffix : Option String) :
    Yields False ((tables.resolvePath stack ns path suffix).run.run []) fun p =>
      p.2.filter (·.isError) = [] ∧
      match p.1 with
      | .ok r => r ≠ .error ∧ ∀ n, r = .localVar n ↔ tables.variableOf ns path around = some n
      | .error d => (d.isError = true ∧ d.span ∈ path.segments.map (·.span)) ∧
        tables.variableOf ns path around = none := by
  cases isVariable : tables.variableOf ns path around with
  | some node =>
    rw [Tables.resolvePath_of_variable intact stands suffix isVariable]
    refine ⟨rfl, by simp, fun n => ?_⟩
    rw [Resolution.localVar.injEq, Option.some.injEq]
  | none =>
    refine (Tables.searches_resolvePath intact stands spelled suffix isVariable []).mono ?_
    rintro ⟨r, _⟩ ⟨⟨more, rfl, warnings⟩, holds⟩
    -- what comes with the result are warnings, and an item is neither a variable nor an error
    refine ⟨List.filter_eq_nil_iff.mpr fun d mem => by simp [warnings d mem], ?_⟩
    cases r with
    | error d => exact ⟨holds, rfl⟩
    | ok r =>
      refine ⟨?_, fun n => ⟨?_, by simp⟩⟩
      · rintro rfl
        exact holds
      · rintro rfl
        exact holds.elim

/-- A path has been recorded as what it comes to, with what there is to report. -/
def Recorded (tables : Tables) (ns : Namespace) (path : Path) (around : Regions)
    (s s' : ResolveState) : Prop :=
  s'.scopes = s.scopes ∧ ∃ r reported,
    s'.resolutions = s.resolutions.insert path.id r ∧
    s'.diagnostics = s.diagnostics ++ reported ∧
    Explains (path.segments.map (·.span)) r reported ∧
    ∀ n, r = .localVar n ↔ tables.variableOf ns path around = some n

/-- What a path comes to is reported and recorded. -/
theorem run_outcome (intact : Intact tables.defs tables.tree) {around : Regions}
    (stands : Stands tables s.scopes around) {path : Path} (spelled : path.segments ≠ [])
    (fresh : s.resolutions[path.id]? = none) (ns : Namespace) (suffix : Option String)
    (log : Log) :
    Run False (do
      let (result, warnings) ←
        Resolving.lift ((tables.resolvePath s.scopes ns path suffix).run.run [])
      match result with
      | .ok resolution => do
        Resolving.report warnings
        Resolving.record path.id resolution
      | .error diagnostic => do
        Logged.emit (.unresolved path.text path.id diagnostic.message)
        Resolving.report (warnings ++ [diagnostic])
        Resolving.record path.id .error) s log fun _ s' _ =>
      Recorded tables ns path around s s' := by
  simp only [Resolving.lift, Run.bind_iff, Run.lift_iff]
  refine (yields_resolvePath intact stands spelled ns suffix).mono ?_
  rintro ⟨result, warnings⟩ ⟨noError, holds⟩
  cases result with
  | ok r =>
    simp only [Resolving.report, Run.bind_iff, Run.modify_iff]
    apply (run_record (s := { s with diagnostics := s.diagnostics ++ warnings }) fresh r).mono
    intro _ s' log' eq
    subst eq
    -- whatever it is, there are warnings at most
    refine ⟨rfl, r, warnings, rfl, rfl, ?_, holds.2⟩
    rw [Explains, if_neg holds.1]
    exact noError
  | error d =>
    obtain ⟨⟨isError, here⟩, noVariable⟩ := holds
    simp only [Resolving.report, Run.bind_iff, Run.emit_iff, Run.modify_iff]
    apply (run_record (s := { s with diagnostics := s.diagnostics ++ (warnings ++ [d]) }) fresh
      .error).mono
    intro _ s' log' eq
    subst eq
    refine ⟨rfl, .error, warnings ++ [d], rfl, rfl, ?_, fun n => ⟨by simp, ?_⟩⟩
    · rw [Explains, if_pos rfl]
      refine ⟨d, ?_, here⟩
      simp [List.filter_append, noError, isError]
    · rw [noVariable]
      simp

/-- A path is recorded as what it comes to. -/
theorem run_resolvePath (intact : Intact tables.defs tables.tree) {around : Regions}
    (stands : Stands tables s.scopes around) {path : Path} (spelled : path.segments ≠ [])
    (fresh : s.resolutions[path.id]? = none) (ns : Namespace) (suffix : Option String) :
    Run False (Resolving.resolvePath tables ns path suffix) s log fun _ s' _ =>
      Recorded tables ns path around s s' := by
  have outcome := run_outcome intact stands spelled fresh ns suffix (s := s)
  simp only [Resolving.resolvePath, Run.bind_iff, Run.get_iff]
  split
  · simp only [Resolving.lift, Run.bind_iff, Run.lift_iff, Run.emit_iff] at outcome ⊢
    exact stands.dump.mono fun _ _ => outcome _
  · exact outcome log

theorem yields_isValueArg (intact : Intact tables.defs tables.tree) {stack : ScopeStack}
    {around : Regions} (stands : Stands tables stack around) (path : Path) :
    Yields False (Resolving.isValueArg tables stack path) fun _ => True := by
  unfold Resolving.isValueArg
  split
  · trivial
  · next ident _ =>
    rw [Yields.bind_iff]
    apply (stands.lookup intact.validTree .type ident.name).mono
    intro found _
    split
    · trivial
    · rw [Yields.bind_iff]
      apply (stands.lookup intact.validTree .value ident.name).mono
      intro found _
      split <;> trivial

/-- A step that resolves a path settles its node. -/
theorem resolves_path (intact : Intact tables.defs tables.tree) {around : Regions}
    (stands : Stands tables s.scopes around) {path : Path} (spelled : path.segments ≠ [])
    (fresh : s.resolutions[path.id]? = none) (ns : Namespace) (suffix : Option String) {role : Role}
    (spans : role.spans = path.segments.map (·.span))
    (reference : Occurrence.IsReference tables ⟨path.id, role, around⟩)
    (isVariable : ∀ name, role.variable? = some name →
      tables.variableOf ns path around = tables.visibleVariable name around) :
    Run False (Resolving.resolvePath tables ns path suffix) s log fun _ s' _ =>
      Stands tables s'.scopes around ∧ Resolves tables [⟨path.id, role, around⟩] s s' := by
  apply (run_resolvePath intact stands spelled fresh ns suffix).mono
  intro _ s' log' ended
  obtain ⟨scopes, r, reported, resolutions, diagnostics, explains, variable_iff⟩ := ended
  rw [← spans] at explains
  refine ⟨scopes ▸ stands, .of_record reference ?_ resolutions diagnostics explains⟩
  intro name hasName n
  rw [variable_iff, isVariable name hasName]

/-- A step that refers to something settles its node. -/
theorem run_refers (intact : Intact tables.defs tables.tree) {around : Regions}
    (stands : Stands tables s.scopes around) {step : WalkStep} {node : NodeId} {role : Role}
    (refers : Refers step node role)
    (spelled : ∀ path, role.path? = some path → path.segments ≠ [])
    (fresh : s.resolutions[node]? = none) :
    Run False (Resolving.step tables step) s log fun _ s' _ =>
      Stands tables s'.scopes around ∧ Resolves tables [⟨node, role, around⟩] s s' := by
  cases refers with
  | @expr path suffix =>
    refine resolves_path intact stands (spelled path rfl) fresh .value suffix rfl trivial ?_
    intro name hasName
    -- only a path of one name can be a variable
    unfold Role.variable? at hasName
    split at hasName
    · next shape =>
      cases shape
      cases hasName
      rfl
    · next shape => cases shape
    · cases hasName
  | field =>
    refine resolves_path intact stands (List.cons_ne_nil _ _) fresh .value none rfl trivial ?_
    rintro _ ⟨⟩
    rfl
  | @pattern path =>
    exact resolves_path intact stands (spelled path rfl) fresh .value none rfl trivial
      (Role.of_variable_none rfl)
  | @type path =>
    exact resolves_path intact stands (spelled path rfl) fresh .type none rfl trivial
      (Role.of_variable_none rfl)
  | @typeArg path =>
    -- the argument may turn out to be a type or a value, and it reads no variable as either
    simp only [Resolving.step, Resolving.lift, Run.bind_iff, Run.get_iff, Run.lift_iff]
    apply (yields_isValueArg intact stands path).mono
    intro isValue _
    exact resolves_path intact stands (spelled path rfl) fresh _ none rfl trivial
      (Role.of_variable_none rfl)
  | lifetime other =>
    exact resolves_path intact stands (List.cons_ne_nil _ _) fresh .lifetime none rfl other
      (Role.of_variable_none rfl)
  | @selfValue node span =>
    simp only [Resolving.step, Run.bind_iff, Run.get_iff]
    split
    · next id _ =>
      apply (run_record fresh (.definition id)).mono
      intro _ s' log' eq
      subst eq
      exact ⟨stands, .of_record trivial (Role.of_variable_none rfl) rfl
        (List.append_nil _).symm rfl⟩
    · simp only [Resolving.report, Run.bind_iff, Run.modify_iff]
      apply (run_record (s := { s with
        diagnostics := s.diagnostics ++ [.selfOutsideItem "self" span] }) fresh .error).mono
      intro _ s' log' eq
      subst eq
      refine ⟨stands, .of_record trivial (Role.of_variable_none rfl) rfl rfl ?_⟩
      exact ⟨.selfOutsideItem "self" span, rfl, List.mem_singleton_self _⟩

/-! ## Names in patterns -/

/-- A bare name is recorded if it stands for a variant, and else it is a variable. -/
theorem run_bindOrMatch (intact : Intact tables.defs tables.tree) {around : Regions}
    (stands : Stands tables s.scopes around) {ident : Ident} {node : NodeId}
    (fresh : s.resolutions[node]? = none) :
    Run False (Resolving.step tables (.bindOrMatch ident node)) s log fun _ s' _ =>
      Stands tables s'.scopes (around.binding [⟨ident.name, node, true⟩]) ∧
        Resolves tables [⟨node, .bareName ident, around⟩] s s' := by
  simp only [Resolving.step, Resolving.lift, Run.bind_iff, Run.get_iff, Run.lift_iff]
  apply (stands.variantNamed intact ident.name).mono
  intro found eq
  cases found with
  | some variant =>
    have matched : (tables.variantInReach ident.name around).isSome := by
      rw [← eq]
      rfl
    apply (run_record fresh (.definition variant)).mono
    intro _ s' log' eq
    subst eq
    refine ⟨stands.matched rfl matched, ?_⟩
    exact .of_record matched (Role.of_variable_none rfl) rfl (List.append_nil _).symm rfl
  | none =>
    apply (run_bindLocal stands ident node true fun _ => eq.symm).mono
    intro _ s' log' ended
    obtain ⟨stands', resolutions, diagnostics⟩ := ended
    refine ⟨stands', ?_⟩
    have settled : Settled tables ⟨node, .bareName ident, around⟩ none := by
      refine .silent ?_ rfl
      show ¬ (tables.variantInReach ident.name around).isSome
      rw [← eq]
      simp
    exact .of_eq (List.forall_mem_singleton.mpr settled) (List.forall_mem_singleton.mpr fresh)
      resolutions diagnostics

end NameResolution
