import NameResolution.Proofs.Declaration.Standing
import NameResolution.Proofs.Text.Pieces

/-! # What the first pass files

    Each piece of a program that declares something gets one definition, and each
    that owns a module gets one module. Both are numbered in the order of the
    text, so the tables can be read off the program: which definition belongs to
    which piece, and in which module the module of a piece lies. -/

namespace NameResolution

/-- The definition for an entry, with the number `index`. -/
def Entry.definition (entry : Entry) (index : Nat) : Definition :=
  ⟨⟨index⟩, entry.kind, entry.ident, entry.isPub, entry.node, none⟩

/-! ## Tables -/

/-- Who is written down as the owner of an owner's module. -/
def Definitions.ownerOf (defs : Definitions) : RegionOwner → Option ModuleOwner
  | .none => none
  | .item node => (defs.ofNode? node).map .definition
  | .block node => some (.block node)

/-- This is the module of a site: its owner's, as both of them know, and right inside the module
    of its home. -/
structure Hosts (defs : Definitions) (tree : ModuleTree) (site : Site) (id : ModuleId) : Prop where
  moduleOf : defs.moduleOf site.owner = some id
  inTree : ∃ m parent, tree.find? id = some m ∧ defs.ownerOf site.owner = some m.owner ∧
    m.parent = some parent ∧ defs.moduleOf site.home = some parent

variable {defs defs' : Definitions} {tree tree' : ModuleTree}

theorem Definitions.Extends.ownerOf (h : defs.Extends defs') {owner : RegionOwner}
    {moduleOwner : ModuleOwner} (held : defs.ownerOf owner = some moduleOwner) :
    defs'.ownerOf owner = some moduleOwner := by
  cases owner with
  | none => cases held
  | item node =>
    obtain ⟨id, ofNode, rfl⟩ := Option.map_eq_some_iff.mp held
    exact Option.map_eq_some_iff.mpr ⟨id, h.node ofNode, rfl⟩
  | block node => exact held

theorem Hosts.mono {site : Site} {id : ModuleId} (h : Hosts defs tree site id)
    (ext : defs.Extends defs') (ext' : tree.Extends tree') : Hosts defs' tree' site id := by
  obtain ⟨m, parent, found, owned, inside, home⟩ := h.inTree
  obtain ⟨m', found', owner, parent'⟩ := ext'.module found
  refine ⟨ext.moduleOf h.moduleOf, m', parent, found', ?_, parent'.trans inside, ext.moduleOf home⟩
  rw [owner]
  exact ext.ownerOf owned

namespace Declaring

variable {labels : NodeId → String → Prop} {isPub : Bool} {node : NodeId} {kind : DefKind}
  {ident : Ident} {suffix : String} {s s' s'' : DeclareState} {log : Log}

/-- What a part of the first pass adds to the tables: these definitions and these modules, in
    order, behind those that are there. -/
structure Files (entries : List Entry) (sites : List Site) (s s' : DeclareState) : Prop where
  enlarges : Enlarges s s'
  definitions : s'.defs.toList =
    s.defs.toList ++ entries.mapIdx fun i entry => entry.definition (s.defs.size + i)
  ofNode? : ∀ i entry, entries[i]? = some entry →
    s'.defs.ofNode? entry.node = some ⟨s.defs.size + i⟩
  modules : s'.tree.size = s.tree.size + sites.length
  hosts : ∀ i site, sites[i]? = some site → Hosts s'.defs s'.tree site ⟨s.tree.size + i⟩

namespace Files

variable {entries entries' : List Entry} {sites sites' : List Site}

/-- A part that leaves the tables alone. -/
theorem nothing (defs : s'.defs = s.defs) (tree : s'.tree = s.tree) : Files [] [] s s' where
  enlarges := by
    refine ⟨?_, ?_⟩
    · rw [defs]
      exact .refl _
    · rw [tree]
      exact .refl _
  definitions := by rw [defs, List.mapIdx_nil, List.append_nil]
  ofNode? := by simp
  modules := by rw [tree, List.length_nil, Nat.add_zero]
  hosts := by simp

theorem size_defs (h : Files entries sites s s') :
    s'.defs.size = s.defs.size + entries.length := by
  have length := congrArg List.length h.definitions
  simpa [Definitions.toList, Definitions.size] using length

theorem trans (h : Files entries sites s s') (h' : Files entries' sites' s' s'') :
    Files (entries ++ entries') (sites ++ sites') s s'' where
  enlarges := h.enlarges.trans h'.enlarges
  definitions := by
    rw [h'.definitions, h.definitions, h.size_defs, List.mapIdx_append, List.append_assoc]
    simp only [Nat.add_assoc, Nat.add_comm entries.length]
  ofNode? i entry at_i := by
    rw [List.getElem?_append] at at_i
    split at at_i
    · exact h'.enlarges.defs.node (h.ofNode? i entry at_i)
    · next ge =>
      rw [h'.ofNode? _ entry at_i, h.size_defs]
      congr 2
      omega
  modules := by
    rw [h'.modules, h.modules, List.length_append, Nat.add_assoc]
  hosts i site at_i := by
    rw [List.getElem?_append] at at_i
    split at at_i
    · exact (h.hosts i site at_i).mono h'.enlarges.defs h'.enlarges.tree
    · next ge =>
      have place : s.tree.size + i = s'.tree.size + (i - sites.length) := by
        rw [h.modules]
        omega
      rw [place]
      exact h'.hosts _ site at_i

end Files

/-- One more definition, whatever becomes of its name. -/
theorem files_of_declared (enlarges : Enlarges s s')
    (entries : s'.defs.entries = (declaredIn s isPub node kind ident).entries)
    (ofNode? : s'.defs.ofNode? node = some s.defs.nextId) (modules : s'.tree.size = s.tree.size) :
    Files [⟨isPub, node, kind, ident⟩] [] s s' where
  enlarges := enlarges
  definitions := by
    rw [Definitions.toList, entries]
    exact Array.toList_push
  ofNode? i entry at_i := by
    cases i with
    | zero =>
      cases at_i
      exact ofNode?
    | succ i => cases at_i
  modules := modules
  hosts := by simp

theorem NameOutcome.files (outcome : NameOutcome isPub node kind ident s s')
    (unused : s.defs.ofNode? node = none) : Files [⟨isPub, node, kind, ident⟩] [] s s' := by
  have enlarges := (outcome.enlarges unused).1
  have ofNode? := outcome.ofNode?
  have modules := outcome.grows.size
  cases outcome <;> exact files_of_declared enlarges rfl ofNode? modules

theorem FuncOutcome.files {free : Bool}
    (outcome : FuncOutcome isPub node kind ident suffix s free s')
    (unused : s.defs.ofNode? node = none) : Files [⟨isPub, node, kind, ident⟩] [] s s' := by
  have enlarges := (outcome.enlarges unused).1
  have ofNode? := outcome.ofNode?
  have modules := outcome.grows.size
  cases outcome with
  | joined _ made | suffixTaken _ made _ | opened _ made =>
    exact files_of_declared enlarges (addFunction_frame made).1 ofNode? modules
  | blocked _ _ _ => exact files_of_declared enlarges rfl ofNode? modules

/-- One more module, inside the current one. -/
theorem Opens.files {owner home : RegionOwner} {moduleOwner : ModuleOwner}
    (opens : Opens owner s s') (held : s.defs.moduleOf home = some s.current)
    (entries : s'.defs.entries = s.defs.entries)
    (adds : s.tree.Adds s.current moduleOwner node s'.tree)
    (owned : s'.defs.ownerOf owner = some moduleOwner)
    (current : s'.current = s.tree.nextId) : Files [] [⟨owner, home⟩] s s' where
  enlarges := opens.enlarges
  definitions := by
    rw [Definitions.toList, entries, List.mapIdx_nil, List.append_nil]
    rfl
  ofNode? := by simp
  modules := adds.size
  hosts i site at_i := by
    cases i with
    | succ i => cases at_i
    | zero =>
      cases at_i
      obtain ⟨itemModule, child⟩ := adds.child
      refine ⟨opens.moduleOf.trans (congrArg some current), _, s.current, child, owned, rfl, ?_⟩
      exact opens.enlarges.defs.moduleOf held

theorem EnterOutcome.files {id : DefId} {name : Option String} {home : RegionOwner}
    (outcome : EnterOutcome id node s name s') (valid : s.tree.Valid)
    (ofNode : s.defs.ofNode? node = some id)
    (held : s.defs.moduleOf home = some s.current) : Files [] [⟨.item node, home⟩] s s' := by
  have opens := outcome.opens valid ofNode
  have owned : s'.defs.ownerOf (.item node) = some (.definition id) :=
    Option.map_eq_some_iff.mpr ⟨id, opens.enlarges.defs.node ofNode, rfl⟩
  cases outcome with
  | named child made =>
    obtain ⟨isNew, adds⟩ := ModuleTree.adds_of_addNamed valid child node
    obtain ⟨-, rfl⟩ := Definitions.addModule_eq_ok.mp made
    exact opens.files held rfl adds owned isNew
  | anonymous child made =>
    obtain ⟨isNew, adds⟩ := ModuleTree.adds_of_addAnonymous valid child
    obtain ⟨-, rfl⟩ := Definitions.addModule_eq_ok.mp made
    exact opens.files held rfl adds owned isNew

/-- The module of what has just been defined. -/
theorem Files.enter {entries : List Entry} {home : RegionOwner} {id : DefId} {name : Option String}
    (h : Files entries [] s s') (current : s'.current = s.current)
    (entered : EnterOutcome id node s' name s'') (valid : s'.tree.Valid)
    (ofNode : s'.defs.ofNode? node = some id) (held : s.defs.moduleOf home = some s.current) :
    Files entries [⟨.item node, home⟩] s s'' := by
  have held' : s'.defs.moduleOf home = some s'.current := by
    rw [current]
    exact h.enlarges.defs.moduleOf held
  have both := h.trans (entered.files valid ofNode held')
  rwa [List.append_nil, List.nil_append] at both

/-! ## Steps -/

theorem StepOutcome.files {step : OutlineStep} (outcome : StepOutcome s step s')
    (valid : s.tree.Valid) {homes : List RegionOwner}
    (standing : Standing s.defs s.tree homes s.current) :
    Files step.declared?.toList (step.site? homes).toList s s' := by
  obtain ⟨home, others, rfl, held⟩ := standing.head
  cases outcome with
  | declare unused outcome => exact outcome.files unused
  | enterItem unused outcome entered =>
    exact (outcome.files unused).enter (outcome.enlarges unused).2 entered
      (outcome.grows.valid valid) outcome.ofNode? held
  | @enterImpl isPub node span _ unused entered =>
    have files : Files [⟨isPub, node, .impl, ⟨"impl", span⟩⟩] [] s
        { s with defs := declaredIn s isPub node .impl ⟨"impl", span⟩ } :=
      files_of_declared (enlarges_declared unused) rfl Definitions.ofNode?_declared_self rfl
    exact files.enter rfl entered valid Definitions.ofNode?_declared_self held
  | @declareFunc _ _ kind _ _ _ _ unused outcome =>
    cases kind <;> exact outcome.files unused
  | @enterFunc _ _ kind _ _ _ _ _ unused outcome entered =>
    have files := (outcome.files unused).enter (outcome.enlarges unused).2 entered
      (outcome.grows.valid valid) outcome.ofNode? held
    cases kind <;> exact files
  | enterBlock child made =>
    obtain ⟨isNew, adds⟩ := ModuleTree.adds_of_addAnonymous valid child
    have opens := opens_of_enterBlock valid child made
    obtain ⟨-, rfl⟩ := Definitions.addBlock_eq_ok.mp made
    exact opens.files held rfl adds rfl isNew
  | leave _ _ => exact .nothing rfl rfl
  | imports _ => exact .nothing rfl rfl

/-- An outline files what its steps are for. -/
theorem FollowOutcome.files {outline : Outline} (h : FollowOutcome labels outline s s')
    {homes : List RegionOwner} (standing : Standing s.defs s.tree homes s.current) :
    Files outline.entries (outline.sites homes) s s' := by
  induction h generalizing homes with
  | nil _ => exact .nothing rfl rfl
  | cons inOrder outcome _ _ ih =>
    have valid := inOrder.sound.intact.validTree
    rw [Outline.entries_cons, Outline.sites]
    exact (outcome.files valid standing).trans (ih (outcome.moves valid standing).standing)

end Declaring

/-! ## Programs -/

/-- The tables are a picture of the program: a definition for each of its entries and a module for
    each of its sites, numbered in the order of the text behind the module of the program. -/
structure Program.FiledIn (program : Program) (defs : Definitions) (tree : ModuleTree) : Prop where
  definitions : defs.toList = program.entries.mapIdx fun i entry => entry.definition i
  ofNode? : ∀ i entry, program.entries[i]? = some entry → defs.ofNode? entry.node = some ⟨i⟩
  modules : tree.size = program.sites.length + 1
  root : defs.moduleOf (.item program.id) = some .root ∧
    ∃ m, tree.find? .root = some m ∧ m.owner = .definition .root ∧ m.parent = none
  hosts : ∀ i site, program.sites[i]? = some site → Hosts defs tree site ⟨i + 1⟩

/-- Where each entry can be told from its key, no key comes up twice. -/
theorem nodup_map_of_numbered {α κ β : Type} {xs : List α} {key : α → κ} {place : κ → Option β}
    {number : Nat → β} (injective : Function.Injective number)
    (placed : ∀ i x, xs[i]? = some x → place (key x) = some (number i)) : (xs.map key).Nodup := by
  refine List.pairwise_map.mpr (List.pairwise_iff_getElem.mpr fun i j hi hj lt same => ?_)
  have first := placed i xs[i] (List.getElem?_eq_getElem hi)
  rw [same, placed j xs[j] (List.getElem?_eq_getElem hj)] at first
  exact Nat.ne_of_lt lt (injective (Option.some.inj first)).symm

namespace Program.FiledIn

variable {program : Program}

/-- No node is defined twice. -/
theorem nodup_nodes (h : program.FiledIn defs tree) :
    (program.entries.map (·.node)).Nodup :=
  nodup_map_of_numbered (fun _ _ same => congrArg DefId.index same) h.ofNode?

/-- Nothing owns two modules. -/
theorem nodup_owners (h : program.FiledIn defs tree) :
    (program.sites.map (·.owner)).Nodup :=
  nodup_map_of_numbered (fun _ _ same => Nat.succ.inj (congrArg ModuleId.index same))
    fun i site at_i => (h.hosts i site at_i).moduleOf

end Program.FiledIn

/-- Behind what is there at the root, the pass files what makes the picture whole. -/
theorem Declaring.Files.filedIn {program : Program} {built : DeclareState}
    (h : Files (Outline.ofProgram program).entries
      ((Outline.ofProgram program).sites [.item program.id]) (atRoot program) built) :
    program.FiledIn built.defs built.tree where
  definitions := by
    rw [h.definitions, program.entries_eq, List.mapIdx_cons]
    simp only [Nat.add_comm (atRoot program).defs.size]
    rfl
  ofNode? i entry at_i := by
    rw [program.entries_eq] at at_i
    cases i with
    | zero =>
      cases at_i
      apply h.enlarges.defs.node
      show (Definitions.empty.declared true program.id .mod
        ⟨"[root]", program.span⟩).ofNode? program.id = some .root
      exact Definitions.ofNode?_declared_self
    | succ i =>
      rw [h.ofNode? i entry at_i, Nat.add_comm]
      rfl
  modules := by
    rw [h.modules, program.sites_eq, Nat.add_comm]
    rfl
  root := by
    have found₀ : (atRoot program).tree.find? .root =
        some (.new .root (.definition .root) none .root) := rfl
    obtain ⟨m, found, owner, parent⟩ := h.enlarges.tree.module found₀
    exact ⟨h.enlarges.defs.moduleOf (moduleOf_rootOnly program), m, found, owner, parent⟩
  hosts i site at_i := by
    rw [program.sites_eq] at at_i
    rw [Nat.add_comm]
    exact h.hosts i site at_i

/-- Every declaration is defined once, and the modules are nested as the text is. The first pass
    goes through, and after it there is one definition for the program and for each item but
    imports, each variant and each generic parameter in it, and one module besides the root for
    each item that has one and each block that declares an item, right inside the module of the
    nearest of them around it. -/
theorem tables_mirror_the_program (program : Program) (distinct : program.nodes.Nodup)
    (log : Log) :
    ∃ built log', declareProgram .empty .new program log = .ok built log' ∧
      program.FiledIn built.defs built.tree ∧ (program.entries.map (·.node)).Nodup ∧
      (program.sites.map (·.owner)).Nodup := by
  obtain ⟨_, built, log', run, -⟩ := Run.false_iff.mp (Declaring.run_wholeProgram distinct log)
  have declared : declareProgram .empty .new program log = .ok built log' :=
    Logged.bind_eq_ok.mpr ⟨_, _, run, rfl⟩
  have files : Declaring.Files _ _ (Declaring.atRoot program) built :=
    (declareProgram_outcome declared).files (Declaring.standing_atRoot program)
  have filedIn := files.filedIn
  exact ⟨built, log', declared, filedIn, filedIn.nodup_nodes, filedIn.nodup_owners⟩

/-- Declarations in an array size and in a default value, and a name that is taken:

        enum E<T: [(); { struct S {} }]> { V }
        enum E {}
        func f(x: () = { mod m {} }) -/
def secluded : Program :=
  ⟨⟨0⟩, ⟨0, 77⟩,
    [.enum ⟨⟨1⟩, false, ⟨0, 38⟩⟩ ⟨"E", ⟨5, 1⟩⟩
      [.type ⟨2⟩ ⟨"T", ⟨7, 1⟩⟩ (some (.array (.compound .unit []) (.block .plain (.mk ⟨3⟩
        [.item (.struct ⟨⟨4⟩, false, ⟨17, 11⟩⟩ ⟨"S", ⟨24, 1⟩⟩ [] [])]))))]
      [.mk ⟨5⟩ ⟨"V", ⟨35, 1⟩⟩ []],
    .enum ⟨⟨6⟩, false, ⟨39, 9⟩⟩ ⟨"E", ⟨44, 1⟩⟩ [] [],
    .func ⟨⟨7⟩, false, ⟨49, 28⟩⟩ .func ⟨"f", ⟨54, 1⟩⟩ []
      [.mk none (.ident ⟨8⟩ ⟨"x", ⟨56, 1⟩⟩ none) (some (.compound .unit []))
        (some (.block .plain (.mk ⟨9⟩
          [.item (.mod ⟨⟨10⟩, false, ⟨66, 8⟩⟩ ⟨"m", ⟨70, 1⟩⟩ [])])))] none none]⟩

/-- Both blocks have their modules: one lies in that of the enum, the other in that of the program,
    since the function has none. So has the enum whose name is taken. -/
theorem tables_mirror_the_program_of_secluded :
    (secluded.entries.map fun entry => (entry.node.index, entry.kind)) =
        [(0, .mod), (1, .enum), (2, .typeParam), (4, .struct), (5, .variant), (6, .enum),
          (7, .func), (10, .mod)] ∧
      secluded.sites =
        [⟨.item ⟨1⟩, .item ⟨0⟩⟩, ⟨.block ⟨3⟩, .item ⟨1⟩⟩, ⟨.item ⟨4⟩, .block ⟨3⟩⟩,
          ⟨.item ⟨6⟩, .item ⟨0⟩⟩, ⟨.block ⟨9⟩, .item ⟨0⟩⟩, ⟨.item ⟨10⟩, .block ⟨9⟩⟩] ∧
      secluded.nodes.Nodup ∧
      ∃ built log', declareProgram .empty .new secluded .empty = .ok built log' ∧
        secluded.FiledIn built.defs built.tree ∧ (secluded.entries.map (·.node)).Nodup ∧
        (secluded.sites.map (·.owner)).Nodup := by
  have distinct : secluded.nodes.Nodup := by decide +kernel
  refine ⟨?_, ?_, distinct, tables_mirror_the_program secluded distinct .empty⟩
  · rw [Program.entries_eq]
    decide +kernel
  · rw [Program.sites_eq]
    decide +kernel

end NameResolution
