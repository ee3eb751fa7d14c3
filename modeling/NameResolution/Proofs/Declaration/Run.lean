import NameResolution.Proofs.Declaration.Steps
import NameResolution.Proofs.Text.Tour

/-! # The first pass as a whole

    Where no node comes up twice, the first pass goes through, and finds for
    each occurrence what the second pass will ask for: an item and a function
    have their definition, and whatever owns a module has one, inside the module
    of the regions around it. -/

namespace NameResolution

variable {defs defs' : Definitions} {tree tree' : ModuleTree}

/-! ## What is found later -/

/-- The module of an owner lies in that of the regions around it. -/
def Nested (defs : Definitions) (tree : ModuleTree) (owner : RegionOwner) (around : Regions) :
    Prop :=
  ∃ id m parent, defs.moduleOf owner = some id ∧ tree.find? id = some m ∧
    m.parent = some parent ∧ defs.moduleOf around.home = some parent

theorem Nested.mono {owner : RegionOwner} {around : Regions} (h : Nested defs tree owner around)
    (ext : defs.Extends defs') (ext' : tree.Extends tree') : Nested defs' tree' owner around := by
  obtain ⟨id, m, parent, held, found, inside, home⟩ := h
  obtain ⟨m', found', -, parent'⟩ := ext'.module found
  exact ⟨id, m', parent, ext.moduleOf held, found', parent'.trans inside, ext.moduleOf home⟩

/-- What the tables hold for an occurrence, depending on its role. -/
inductive Linked (defs : Definitions) (tree : ModuleTree) : Occurrence → Prop where
  | item {node : NodeId} {around : Regions} (h : Nested defs tree (.item node) around) :
      Linked defs tree ⟨node, .item, around⟩
  | func {node : NodeId} {around : Regions} (h : Nested defs tree (.item node) around) :
      Linked defs tree ⟨node, .func true, around⟩
  | bareFunc {node : NodeId} {around : Regions} {id : DefId}
      (h : defs.ofNode? node = some id) (h' : defs.module? id = none) :
      Linked defs tree ⟨node, .func false, around⟩
  | block {node : NodeId} {around : Regions} (h : Nested defs tree (.block node) around) :
      Linked defs tree ⟨node, .block true, around⟩
  | bareBlock {node : NodeId} {around : Regions} (h : defs.blockModule? node = none) :
      Linked defs tree ⟨node, .block false, around⟩
  | other {node : NodeId} {role : Role} {around : Regions}
      (h : role ≠ .item) (h' : ∀ owns, role ≠ .func owns) (h'' : ∀ owns, role ≠ .block owns) :
      Linked defs tree ⟨node, role, around⟩

/-- More aliases, functions and names change nothing for an occurrence. -/
theorem Linked.grow {occ : Occurrence} (h : Linked defs tree occ) (grows : defs.Grows defs')
    (grows' : tree.Grows tree') : Linked defs' tree' occ := by
  cases h with
  | item nested => exact .item (nested.mono grows.toExtends grows'.toExtends)
  | func nested => exact .func (nested.mono grows.toExtends grows'.toExtends)
  | bareFunc ofNode none =>
    exact .bareFunc ((grows.ofNode? _).trans ofNode) ((grows.module? _).trans none)
  | block nested => exact .block (nested.mono grows.toExtends grows'.toExtends)
  | bareBlock none => exact .bareBlock ((grows.blockModule? _).trans none)
  | other item func block => exact .other item func block

/-- Tables that hold all that the second pass will ask for. -/
structure Covers (defs : Definitions) (tree : ModuleTree) (program : Program) : Prop where
  intact : Intact defs tree
  root : defs.moduleOf (.item program.id) = some .root
  linked : ∀ occ ∈ program.occurrences, Linked defs tree occ

theorem Covers.grow {program : Program} (h : Covers defs tree program)
    (intact : Intact defs' tree') (grows : defs.Grows defs') (grows' : tree.Grows tree') :
    Covers defs' tree' program :=
  ⟨intact, grows.toExtends.moduleOf h.root, fun occ mem => (h.linked occ mem).grow grows grows'⟩

namespace Declaring

variable {s s' : DeclareState} {log : Log} {nodes : List NodeId}

/-- What is done about other nodes changes nothing for an occurrence. -/
theorem Progress.linked (h : Progress nodes s s') {occ : Occurrence} (other : occ.node ∉ nodes)
    (linked : Linked s.defs s.tree occ) : Linked s'.defs s'.tree occ := by
  have same := h.others occ.node other
  cases linked with
  | item nested => exact .item (nested.mono h.defs h.tree)
  | func nested => exact .func (nested.mono h.defs h.tree)
  | bareFunc ofNode none =>
    exact .bareFunc (same.ofNode?.trans ofNode) ((same.module? ofNode).trans none)
  | block nested => exact .block (nested.mono h.defs h.tree)
  | bareBlock none => exact .bareBlock (same.blockModule?.trans none)
  | other item func block => exact .other item func block

/-- A role without a declaration asks for nothing that is not there. -/
theorem linked_of_declaresNothing {occ : Occurrence} (silent : occ.role.declaresNothing)
    (fresh : Fresh s occ.node) : Linked s.defs s.tree occ := by
  obtain ⟨node, role, around⟩ := occ
  cases role with
  | block owns =>
    cases owns with
    | true => cases silent
    | false => exact .bareBlock fresh.blockModule?
  | item | func owns => cases silent
  | _ => exact .other (by simp) (by simp) (by simp)

/-! ## Where names are bound -/

/-- The current module is that of the owner. -/
structure AtHome (home : RegionOwner) (s : DeclareState) : Prop where
  moduleOf : s.defs.moduleOf home = some s.current
  block : ∀ m, s.tree.find? s.current = some m → m.owner.isBlock = home.isBlock

theorem AtHome.progress {home : RegionOwner} (h : AtHome home s) (ready : Ready s)
    (progress : Progress nodes s s') (current : s'.current = s.current) : AtHome home s' := by
  refine ⟨?_, ?_⟩
  · rw [current]
    exact progress.defs.moduleOf h.moduleOf
  · intro m' found'
    -- the current module has not been left, and keeps its owner
    obtain ⟨m, found⟩ := ready.current.find?
    obtain ⟨m₁, found₁, owner, -⟩ := progress.tree.module found
    rw [current, found₁] at found'
    cases found'
    rw [owner]
    exact h.block m found

theorem Entered.atHome {owner : RegionOwner} (h : Entered owner s s') : AtHome owner s' := by
  obtain ⟨m, found, -, block⟩ := h.inside
  refine ⟨h.moduleOf, fun m' found' => ?_⟩
  rw [found] at found'
  cases found'
  exact block

/-! ## Following an outline -/

/-- What following an outline from some state comes to. -/
def Completes (outline : Outline) (occs : List Occurrence) (s : DeclareState)
    (log : Log) : Prop :=
  Run False (follow outline) s log fun _ s' _ =>
    Progress (occs.map (·.node)) s s' ∧ s'.current = s.current ∧
      ∀ occ ∈ occs, Linked s'.defs s'.tree occ

/-- Nothing is left to do. -/
theorem completes_nil (ready : Ready s) {occs : List Occurrence}
    (linked : ∀ occ ∈ occs, Linked s.defs s.tree occ) : Completes [] occs s log := by
  have nil : follow [] = pure ⟨⟩ := rfl
  rw [Completes, nil, Run.pure_iff]
  exact ⟨.refl ready, rfl, linked⟩

/-- Only one step is left. -/
theorem completes_singleton {only : OutlineStep} {occ : Occurrence}
    (runs : Run False (step only) s log fun _ s' _ =>
      Progress [occ.node] s s' ∧ s'.current = s.current ∧ Linked s'.defs s'.tree occ) :
    Completes [only] [occ] s log := by
  have single : follow [only] = step only >>= fun _ => pure ⟨⟩ := rfl
  rw [Completes, single, Run.bind_iff]
  apply runs.mono
  intro _ s₁ log₁ ended
  obtain ⟨progress, current, linked⟩ := ended
  refine ⟨progress, current, fun other mem => ?_⟩
  rw [List.mem_singleton.mp mem]
  exact linked

theorem follow_cons (step : OutlineStep) (outline : Outline) :
    follow (step :: outline) = Declaring.step step >>= fun _ => follow outline := rfl

theorem follow_append (first second : Outline) :
    follow (first ++ second) = follow first >>= fun _ => follow second :=
  List.forM_append

/-- What is inside a module is done between entering and leaving it. -/
theorem completes_within {first : OutlineStep} {inner : Outline} {node : NodeId} {role : Role}
    {around : Regions} {occs : List Occurrence} {owner : RegionOwner}
    (home : AtHome around.home s) (nodup : (node :: occs.map (·.node)).Nodup)
    (fresh : ∀ occ ∈ ⟨node, role, around⟩ :: occs, Fresh s occ.node)
    (enters : Run False (step first) s log fun _ s' _ =>
      Progress [node] s s' ∧ Entered owner s s')
    (inside : ∀ {s' : DeclareState} {log' : Log}, Ready s' → AtHome owner s' →
      (occs.map (·.node)).Nodup → (∀ occ ∈ occs, Fresh s' occ.node) →
      Completes inner occs s' log')
    (linked : ∀ {defs : Definitions} {tree : ModuleTree}, Nested defs tree owner around →
      Linked defs tree ⟨node, role, around⟩) :
    Completes (first :: (inner ++ [.leave])) (⟨node, role, around⟩ :: occs) s log := by
  obtain ⟨apart, nodup⟩ := List.nodup_cons.mp nodup
  rw [Completes, follow_cons, follow_append]
  simp only [Run.bind_iff]
  apply enters.mono
  intro _ s₁ log₁ ended
  obtain ⟨entering, entered⟩ := ended
  -- entering has touched its own node only
  have fresh₁ : ∀ occ ∈ occs, Fresh s₁ occ.node := by
    intro occ mem
    have ne : occ.node ∉ [node] := by
      rw [List.mem_singleton]
      rintro rfl
      exact apart (List.mem_map_of_mem mem)
    exact (entering.others _ ne).fresh (fresh occ (List.mem_cons_of_mem _ mem))
  apply Run.mono (inside entering.ready entered.atHome nodup fresh₁)
  intro _ s₂ log₂ ended
  obtain ⟨progress, current, all⟩ := ended
  obtain ⟨m, found, parent, -⟩ := entered.inside
  obtain ⟨m', found', -, parent'⟩ := progress.tree.module found
  have soFar := entering.trans progress
  -- the module keeps its place while its inside is declared
  have nested : Nested s₂.defs s₂.tree owner around :=
    ⟨s₁.current, m', s.current, progress.defs.moduleOf entered.moduleOf, found',
      parent'.trans parent, soFar.defs.moduleOf home.moduleOf⟩
  have last : follow [.leave] = leave >>= fun _ => pure ⟨⟩ := rfl
  rw [last, Run.bind_iff]
  rw [← current] at found'
  apply (run_leave progress.ready found' (parent'.trans parent)).mono
  intro _ s₃ log₃ ended
  obtain ⟨leaving, current₃⟩ := ended
  refine ⟨(soFar.trans leaving).mono (by simp), current₃, fun occ mem => ?_⟩
  refine leaving.linked List.not_mem_nil ?_
  rcases List.mem_cons.mp mem with rfl | mem
  · exact linked nested
  · exact all occ mem

/-- One outline after another. The second one finds its nodes untouched, as none of them comes up
    in the first one. -/
theorem completes_append {home : RegionOwner} {first second : Outline}
    {occs others : List Occurrence} (ready : Ready s) (atHome : AtHome home s)
    (nodup : ((occs ++ others).map (·.node)).Nodup)
    (fresh : ∀ occ ∈ occs ++ others, Fresh s occ.node)
    (runs : (occs.map (·.node)).Nodup → (∀ occ ∈ occs, Fresh s occ.node) →
      Completes first occs s log)
    (runs' : ∀ {s' : DeclareState} {log' : Log}, Ready s' → AtHome home s' →
      (others.map (·.node)).Nodup → (∀ occ ∈ others, Fresh s' occ.node) →
      Completes second others s' log') :
    Completes (first ++ second) (occs ++ others) s log := by
  rw [List.map_append] at nodup
  obtain ⟨nodup₁, nodup₂, apart⟩ := List.nodup_append.mp nodup
  rw [Completes, follow_append, Run.bind_iff]
  apply Run.mono (runs nodup₁ fun occ mem => fresh occ (List.mem_append_left _ mem))
  intro _ s₁ log₁ ended
  obtain ⟨progress, current, linked⟩ := ended
  have fresh₁ : ∀ occ ∈ others, Fresh s₁ occ.node := fun occ mem =>
    (progress.others _ fun mem' => apart _ mem' _ (List.mem_map_of_mem mem) rfl).fresh
      (fresh occ (List.mem_append_right _ mem))
  apply Run.mono (runs' progress.ready (atHome.progress ready progress current) nodup₂ fresh₁)
  intro _ s₂ log₂ ended
  obtain ⟨progress', current', linked'⟩ := ended
  refine ⟨?_, current'.trans current, fun occ mem => ?_⟩
  · rw [List.map_append]
    exact progress.trans progress'
  · rcases List.mem_append.mp mem with mem | mem
    · refine progress'.linked ?_ (linked occ mem)
      exact fun mem' => apart _ (List.mem_map_of_mem mem) _ mem' rfl
    · exact linked' occ mem

/-- From a state at home, the first pass makes the declarations of occurrences that have not come
    up yet. -/
theorem completes {home : RegionOwner} {outline : Outline} {occs : List Occurrence}
    (declares : Declares home outline occs) (ready : Ready s) (atHome : AtHome home s)
    (nodup : (occs.map (·.node)).Nodup) (fresh : ∀ occ ∈ occs, Fresh s occ.node) :
    Completes outline occs s log := by
  -- each outline is run from any state at home in which its nodes have not come up
  induction declares generalizing s log with
  | nothing => exact completes_nil ready (List.forall_mem_nil _)
  | skip silent =>
    apply completes_nil ready
    intro occ mem
    rw [List.mem_singleton.mp mem]
    exact linked_of_declaresNothing silent (fresh _ (by simp))
  | @declare home isPub node kind ident ns around hns _ hblock =>
    have here : Fresh s node := fresh _ (List.mem_singleton_self _)
    have allowed : ns = .lifetime → TakesLifetimes s := fun lifetime m found =>
      (atHome.block m found).trans (hblock lifetime)
    refine completes_singleton ?_
    simp only [step, Run.bind_iff, Run.pure_iff]
    refine (run_declare ready hns allowed here.ofNode?).mono
      fun id s₁ log₁ declared => ⟨declared.progress, declared.current, ?_⟩
    exact .other (by simp) (by simp) (by simp)
  | @item home isPub node kind ident around inner occs hkind hhome h ih =>
    subst hhome
    have here : Fresh s node := fresh _ (List.mem_cons_self ..)
    refine completes_within atHome nodup fresh ?_ ih Linked.item
    simp only [step, Run.bind_iff]
    apply (run_declare ready hkind (by rintro ⟨⟩) here.ofNode?).mono
    intro id s₁ log₁ declared
    exact run_enter declared here.free _
  | @impl home isPub node span around inner occs hhome h ih =>
    subst hhome
    have here : Fresh s node := fresh _ (List.mem_cons_self ..)
    refine completes_within atHome nodup fresh ?_ ih Linked.item
    simp only [step, Run.bind_iff]
    apply (run_define ready (by decide) here.ofNode?).mono
    intro id s₁ log₁ ended
    exact run_enter ended.1 here.free _
  | @func home isPub node kind ident suffix around inner occs hhome h ih =>
    subst hhome
    have here : Fresh s node := fresh _ (List.mem_cons_self ..)
    refine completes_within atHome nodup fresh ?_ ih Linked.func
    simp only [step, Run.bind_iff]
    apply (run_declareFunc ready here.ofNode?).mono
    intro r s₁ log₁ declared
    exact run_enter declared here.free _
  | @declareFunc home isPub node kind ident suffix around =>
    have here : Fresh s node := fresh _ (List.mem_singleton_self _)
    refine completes_singleton ?_
    simp only [step, Run.bind_iff, Run.pure_iff]
    refine (run_declareFunc ready here.ofNode?).mono
      fun r s₁ log₁ declared => ⟨declared.progress, declared.current, ?_⟩
    exact .bareFunc declared.defined.ofNode? declared.defined.module?
  | @block home node around inner occs hhome h ih =>
    subst hhome
    have here : Fresh s node := fresh _ (List.mem_cons_self ..)
    exact completes_within atHome nodup fresh (run_enterBlock ready here) ih Linked.block
  | @imports home i around =>
    refine completes_singleton ?_
    apply (run_imports ready i).mono
    intro _ s₁ log₁ ended
    obtain ⟨progress, current⟩ := ended
    exact ⟨progress.mono (List.nil_subset _), current, .other (by simp) (by simp) (by simp)⟩
  | append h h' ih ih' =>
    exact completes_append ready atHome nodup fresh (ih ready atHome) ih'
  | perm h same ih =>
    -- the outline is the same, and what is asked of its occurrences does not look at their order
    have nodes := same.map (·.node)
    apply (ih ready atHome (nodes.nodup_iff.mpr nodup) fun occ mem =>
      fresh occ (same.mem_iff.mp mem)).mono
    intro _ s₁ log₁ ended
    obtain ⟨progress, current, linked⟩ := ended
    exact ⟨progress.mono nodes.subset, current, fun occ mem => linked occ (same.mem_iff.mpr mem)⟩

/-! ## The program -/

/-- The table that holds the definition of a program and nothing else. -/
def rootOnly (program : Program) : Definitions :=
  (Definitions.empty.declared true program.id .mod ⟨"[root]", program.span⟩).withModule .root .root

/-- The definition of the program comes before its module. -/
theorem intact_programOnly (program : Program) :
    Intact (Definitions.empty.declared true program.id .mod ⟨"[root]", program.span⟩) .new where
  validDefs := Definitions.Valid.declared .empty
  validTree := .new
  owners {id m owner} found owned := by
    obtain ⟨rfl, rfl⟩ := ModuleTree.find?_new found
    cases owned
    exact Nat.zero_lt_one
  modules held := by
    rw [Definitions.module?_declared] at held
    simp [Definitions.empty, Definitions.module?] at held
  blocks held := by
    have held : Definitions.empty.blockModule? _ = some _ := held
    simp [Definitions.empty, Definitions.blockModule?] at held
  bindings bound := by
    rw [ModuleTree.bindingAt?_new] at bound
    cases bound

theorem module?_programOnly (program : Program) : (Definitions.empty.declared true program.id .mod
    ⟨"[root]", program.span⟩).module? .root = none := by
  rw [Definitions.module?_declared]
  simp [Definitions.empty, Definitions.module?]

theorem intact_rootOnly (program : Program) : Intact (rootOnly program) .new :=
  (intact_programOnly program).withModule Definitions.known_nextId_declared
    (module?_programOnly program) ModuleTree.Valid.new.known_root

theorem moduleOf_rootOnly (program : Program) :
    (rootOnly program).moduleOf (.item program.id) = some .root := by
  show Option.bind ((Definitions.empty.declared true program.id .mod
    ⟨"[root]", program.span⟩).ofNode? program.id) _ = _
  rw [Definitions.ofNode?_declared_self]
  exact Definitions.module?_withModule_self

/-- The state in which the first pass comes to the items of a program. -/
def atRoot (program : Program) : DeclareState := ⟨rootOnly program, .new, .root, [], []⟩

theorem ready_atRoot (program : Program) : Ready (atRoot program) :=
  ⟨intact_rootOnly program, ModuleTree.Valid.new.known_root, List.forall_mem_nil _⟩

theorem atHome_atRoot (program : Program) : AtHome (.item program.id) (atRoot program) := by
  refine ⟨moduleOf_rootOnly program, fun m found => ?_⟩
  obtain ⟨-, rfl⟩ := ModuleTree.find?_new found
  rfl

/-- Only the node of the program has come up. -/
theorem fresh_atRoot {program : Program} {node : NodeId} (ne : node ≠ program.id) :
    Fresh (atRoot program) node where
  ofNode? := by
    show (Definitions.empty.declared true program.id .mod
      ⟨"[root]", program.span⟩).ofNode? node = none
    rw [Definitions.ofNode?_declared_of_ne ne]
    simp [Definitions.empty, Definitions.ofNode?]
  blockModule? := by
    show Definitions.empty.blockModule? node = none
    simp [Definitions.empty, Definitions.blockModule?]
  free {id m} found := by
    obtain ⟨-, rfl⟩ := ModuleTree.find?_new found
    simp [Module.new, Module.anonymousChild?]

/-- What is noted when the program itself is defined, which owns the root. -/
def ProgramNoted (program : Program) (moment : Moment) : Prop :=
  moment = .written
      (Definitions.empty.declared true program.id .mod ⟨"[root]", program.span⟩) .new ∨
    moment = .written (rootOnly program) .new

/-- The first pass defines the program itself, and follows its outline from there. -/
theorem run_wholeProgram_iff (program : Program) (log : Log) :
    ∃ log₀, log.Notes (ProgramNoted program) log₀ ∧
      ∀ {onFault : Prop} {post : Unit → DeclareState → Log → Prop},
        Run onFault (wholeProgram program) (.start .empty .new) log post ↔
          Run onFault (follow (.ofProgram program)) (atRoot program) log₀ fun _ s log' =>
            post () s (log'.push (.built s.defs.size s.tree.size s.directives.length)) := by
  have unused : ¬ (Definitions.empty.size ≠ 0 ∨ ModuleTree.new.size ≠ 1) := by decide
  have notAlias : DefKind.mod ≠ .importAlias := by decide
  have free : Definitions.empty.ofNode? program.id = none := by
    simp [Definitions.empty, Definitions.ofNode?]
  have noModule := module?_programOnly program
  have root : Definitions.empty.nextId = .root := rfl
  refine ⟨_, ((Log.Notes.push ?_).trans (.note (.inl rfl))).trans (.note (.inr rfl)), ?_⟩
  · exact .defined ⟨.root, .mod, ⟨"[root]", program.span⟩, true, program.id, none⟩
  · simp only [wholeProgram, define, lift, Run.bind_iff, Run.get_iff, DeclareState.start,
      if_neg unused, Run.emit_iff, Run.lift_iff, Definitions.define_eq notAlias free,
      Yields.ok_iff, run_setDefs_iff, Run.pure_iff, root, Definitions.addModule_eq noModule]
    exact Iff.rfl

/-- Where no node comes up twice, the first pass goes through. -/
theorem run_wholeProgram {program : Program} (nodup : program.nodes.Nodup) (log : Log) :
    Run False (wholeProgram program) (.start .empty .new) log fun _ s' _ =>
      Covers s'.defs s'.tree program ∧ ∀ d ∈ s'.directives, s'.tree.Known d.module := by
  obtain ⟨log₀, -, follows⟩ := run_wholeProgram_iff program log
  apply follows.mpr
  obtain ⟨apart, nodup⟩ := List.nodup_cons.mp nodup
  have fresh : ∀ occ ∈ program.occurrences, Fresh (atRoot program) occ.node :=
    fun occ mem => fresh_atRoot fun same => apart (same ▸ List.mem_map_of_mem mem)
  apply Run.mono (completes program.declares_outline (ready_atRoot program)
    (atHome_atRoot program) nodup fresh)
  intro _ s₁ log₁ ended
  obtain ⟨progress, current, linked⟩ := ended
  -- what has been declared on the way takes nothing away from the program itself
  have home := progress.defs.moduleOf (moduleOf_rootOnly program)
  exact ⟨⟨progress.ready.intact, home, linked⟩, progress.ready.directives⟩

end Declaring

/-- What the first pass makes comes of the program by following its outline. -/
theorem declareProgram_follows {program : Program} {built : DeclareState} {log log' : Log}
    (declared : declareProgram .empty .new program log = .ok built log') :
    ∃ log₀ log₁ event, log.Notes (Declaring.ProgramNoted program) log₀ ∧
      Declaring.follow (.ofProgram program) (Declaring.atRoot program) log₀ = .ok ((), built) log₁ ∧
      log' = log₁.push event := by
  obtain ⟨⟨_, s⟩, _, run, last⟩ := Logged.bind_eq_ok.mp declared
  cases last
  have ran : Run False (Declaring.wholeProgram program) (.start .empty .new) log
      fun _ s log => s = built ∧ log = log' := Run.false_iff.mpr ⟨_, _, _, run, rfl, rfl⟩
  obtain ⟨log₀, noted, follows⟩ := Declaring.run_wholeProgram_iff program log
  obtain ⟨_, _, log₁, followed, rfl, rfl⟩ := Run.false_iff.mp (follows.mp ran)
  exact ⟨log₀, log₁, _, noted, followed, rfl⟩

end NameResolution
