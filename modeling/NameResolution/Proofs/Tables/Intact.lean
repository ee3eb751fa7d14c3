import NameResolution.Module.Listing
import NameResolution.Module.Redefinition
import NameResolution.Proofs.Tables.Modules

/-! # Tables that fit together

    Definitions and modules refer to each other by id. While a program is
    declared and its imports are resolved, each id that one table holds is known
    to the other, and so whatever is looked up by way of them is found. -/

namespace NameResolution

/-- A binding that may stand in a namespace: what it refers to is there. -/
def Binding.Good (defs : Definitions) (ns : Namespace) : Binding → Prop
  | .definition id | .imported id => defs.Known id
  | .overloads set => defs.Stocked set ∧ ns = .value

/-- Definitions and modules that fit together. -/
structure Intact (defs : Definitions) (tree : ModuleTree) : Prop where
  validDefs : defs.Valid
  validTree : tree.Valid
  owners : ∀ {id : ModuleId} {m : Module} {owner : DefId}, tree.find? id = some m →
    m.owner = .definition owner → defs.Known owner
  modules : ∀ {id : DefId} {m : ModuleId}, defs.module? id = some m → tree.Known m
  blocks : ∀ {node : NodeId} {m : ModuleId}, defs.blockModule? node = some m → tree.Known m
  bindings : ∀ {id : ModuleId} {ns : Namespace} {name : String} {binding : Binding},
    tree.bindingAt? id ns name = some binding → binding.Good defs ns

variable {defs defs' : Definitions} {tree tree' : ModuleTree}

theorem ModuleTree.known_of_enclosingMod {id current : ModuleId}
    (got : tree.enclosingMod defs id = .ok current) : tree.Known id := by
  obtain ⟨ms, around, -⟩ := Except.bind_eq_ok.mp got
  exact known_of_ancestors around

theorem Binding.Good.mono {ns : Namespace} {binding : Binding} (h : defs.Extends defs')
    (good : binding.Good defs ns) : binding.Good defs' ns := by
  cases binding with
  | definition id => exact h.known good
  | imported id => exact h.known good
  | overloads set => exact ⟨h.stocked good.1, good.2⟩

namespace Intact

/-! ## Larger tables -/

/-- More definitions, and modules of theirs that are there. -/
theorem extendDefs (h : Intact defs tree) (ext : defs.Extends defs') (valid : defs'.Valid)
    (modules : ∀ {id : DefId} {m : ModuleId}, defs'.module? id = some m → tree.Known m)
    (blocks : ∀ {node : NodeId} {m : ModuleId}, defs'.blockModule? node = some m → tree.Known m) :
    Intact defs' tree where
  validDefs := valid
  validTree := h.validTree
  owners found owned := ext.known (h.owners found owned)
  modules := modules
  blocks := blocks
  bindings bound := (h.bindings bound).mono ext

/-- More aliases and functions. -/
theorem grow (h : Intact defs tree) (grows : defs.Grows defs') (valid : defs'.Valid) :
    Intact defs' tree := by
  refine h.extendDefs grows.toExtends valid ?_ ?_
  · intro id m held
    rw [grows.module?] at held
    exact h.modules held
  · intro node m held
    rw [grows.blockModule?] at held
    exact h.blocks held

theorem declared (h : Intact defs tree) {isPub : Bool} {node : NodeId} {kind : DefKind}
    {ident : Ident} (free : defs.ofNode? node = none) :
    Intact (defs.declared isPub node kind ident) tree :=
  h.extendDefs (Definitions.extends_declared free) h.validDefs.declared h.modules h.blocks

theorem withModule (h : Intact defs tree) {id : DefId} {m : ModuleId} (known : defs.Known id)
    (free : defs.module? id = none) (there : tree.Known m) :
    Intact (defs.withModule id m) tree := by
  refine h.extendDefs (Definitions.extends_withModule free) (h.validDefs.withModule known) ?_
    h.blocks
  intro other m' held
  by_cases same : other = id
  · subst same
    rw [Definitions.module?_withModule_self] at held
    cases held
    exact there
  · rw [Definitions.module?_withModule_of_ne same] at held
    exact h.modules held

theorem withBlock (h : Intact defs tree) {node : NodeId} {m : ModuleId}
    (free : defs.blockModule? node = none) (there : tree.Known m) :
    Intact (defs.withBlock node m) tree := by
  refine h.extendDefs (Definitions.extends_withBlock free) h.validDefs.withBlock h.modules ?_
  intro other m' held
  by_cases same : other = node
  · subst same
    rw [Definitions.blockModule?_withBlock_self] at held
    cases held
    exact there
  · rw [Definitions.blockModule?_withBlock_of_ne same] at held
    exact h.blocks held

/-- One more name. -/
theorem bind (h : Intact defs tree) {id : ModuleId} {ns : Namespace} {name : String}
    {binding : Binding} (good : binding.Good defs ns) :
    Intact defs (tree.modify id (·.bind ns name binding)) where
  validDefs := h.validDefs
  validTree := ModuleTree.grows_bind.valid h.validTree
  owners {other m owner} found owned := by
    obtain ⟨m₀, names, found₀, rfl⟩ := ModuleTree.grows_bind.module_of found
    exact h.owners (m := m₀) found₀ owned
  modules held := ModuleTree.grows_bind.known_iff.mpr (h.modules held)
  blocks held := ModuleTree.grows_bind.known_iff.mpr (h.blocks held)
  bindings {other ns' name' binding'} bound := by
    rcases ModuleTree.bound_or_of_bind bound with ⟨same, rfl⟩ | before
    · cases same
      exact good
    · exact h.bindings before

/-- One more module. -/
theorem adds (h : Intact defs tree) {parent : ModuleId} {owner : ModuleOwner} {node : NodeId}
    (adds : tree.Adds parent owner node tree') (known : tree.Known parent)
    (owned : ∀ id, owner = .definition id → defs.Known id) : Intact defs tree' where
  validDefs := h.validDefs
  validTree := adds.valid h.validTree known
  owners {id m owner'} found eq := by
    rcases adds.cases found with ⟨rfl, itemModule, rfl⟩ | ⟨m₀, _, _, found₀, rfl, -⟩
    · exact owned _ eq
    · exact h.owners (m := m₀) found₀ eq
  modules held := adds.toExtends.known (h.modules held)
  blocks held := adds.toExtends.known (h.blocks held)
  bindings bound := h.bindings (adds.bindingAt? bound)

/-! ## Looking things up -/

theorem known_root (h : Intact defs tree) : defs.Known .root := by
  obtain ⟨m, found, owner, -⟩ := h.validTree.root
  exact h.owners found owner

theorem good (h : Intact defs tree) {id : ModuleId} {m : Module} {ns : Namespace} {name : String}
    {binding : Binding} (found : tree.find? id = some m) (bound : m.find? ns name = some binding) :
    binding.Good defs ns := by
  have bound : tree.bindingAt? id ns name = some binding := by
    rw [ModuleTree.bindingAt?_of_find? found, bound]
  exact h.bindings bound

/-! ## Being owned -/

/-- A module belongs to a definition, as those do that `self` and `super` name. -/
def OwnedByDefinition (tree : ModuleTree) (id : ModuleId) : Prop :=
  ∃ m owner, tree.find? id = some m ∧ m.owner = .definition owner

theorem owned_root (h : Intact defs tree) : OwnedByDefinition tree .root := by
  obtain ⟨m, found, owner, -⟩ := h.validTree.root
  exact ⟨m, .root, found, owner⟩

theorem name (h : Intact defs tree) {id : ModuleId} {m : Module} (found : tree.find? id = some m) :
    Yields False (m.name defs) fun _ => True := by
  unfold Module.name
  split
  · next owner owned =>
    rw [Yields.bind_iff]
    exact (h.owners found owned).get.mono fun _ _ => trivial
  · trivial

theorem isMod (h : Intact defs tree) {id : ModuleId} {m : Module} (found : tree.find? id = some m) :
    Yields False (ModuleTree.isMod defs m) fun b => b = true → OwnedByDefinition tree id := by
  unfold ModuleTree.isMod
  split
  · next owner owned =>
    rw [Yields.bind_iff]
    exact (h.owners found owned).get.mono fun _ _ _ => ⟨m, owner, found, owned⟩
  · intro isMod
    cases isMod

/-- There is a `mod` around every module. -/
theorem enclosingMod (h : Intact defs tree) {id : ModuleId} (known : tree.Known id) :
    Yields False (tree.enclosingMod defs id) (OwnedByDefinition tree) := by
  obtain ⟨m, found⟩ := known.find?
  simp only [ModuleTree.enclosingMod, Yields.bind_iff]
  apply (h.validTree.ancestors found).mono
  intro ms there
  -- where no module on the way outward is a `mod`, the root is taken
  apply (Yields.findM? ms fun m mem => h.isMod (there.2 m mem)).mono
  intro r owned
  cases r with
  | some m => exact owned m rfl
  | none => exact h.owned_root

theorem owned_of_enclosingMod (h : Intact defs tree) {id current : ModuleId}
    (got : tree.enclosingMod defs id = .ok current) : OwnedByDefinition tree current := by
  obtain ⟨_, got', owned⟩ :=
    Yields.false_iff.mp (h.enclosingMod (ModuleTree.known_of_enclosingMod got))
  rw [got] at got'
  cases got'
  exact owned

/-- The innermost `mod` around such a `mod` is itself. -/
theorem enclosingMod_self (h : Intact defs tree) {id current : ModuleId}
    (got : tree.enclosingMod defs id = .ok current) :
    tree.enclosingMod defs current = .ok current := by
  obtain ⟨ms, around, rest⟩ := Except.bind_eq_ok.mp got
  obtain ⟨found, first, last⟩ := Except.bind_eq_ok.mp rest
  cases found with
  | some m =>
    cases last
    obtain ⟨m₀, found₀, -⟩ := ModuleTree.ancestors_eq_ok.mp around
    obtain ⟨_, around', -, there⟩ := Yields.false_iff.mp (h.validTree.ancestors found₀)
    rw [around] at around'
    cases around'
    have firstOf : Yields True (ms.findM? (ModuleTree.isMod defs)) fun r =>
        ∀ m, r = some m → m ∈ ms ∧ ModuleTree.isMod defs m = .ok true := by
      refine Yields.findM? ms fun m mem => Yields.true_iff.mpr fun b tested isMod => ?_
      rw [tested, isMod]
      exact ⟨mem, rfl⟩
    obtain ⟨mem, isMod⟩ := Yields.true_iff.mp firstOf _ first m rfl
    -- the way outward from a module starts with it
    have starts : ∃ others, tree.ancestors m.id = .ok (m :: others) := by
      rw [ModuleTree.ancestors, ModuleTree.get_of_find? (there m mem)]
      cases tree.size <;> exact ⟨_, rfl⟩
    obtain ⟨others, around'⟩ := starts
    refine Except.bind_eq_ok.mpr ⟨_, around', Except.bind_eq_ok.mpr ⟨some m, ?_, rfl⟩⟩
    exact Except.bind_eq_ok.mpr ⟨true, isMod, rfl⟩
  | none =>
    cases last
    obtain ⟨m, there, -, noParent⟩ := h.validTree.root
    have alone : tree.ancestors .root = .ok [m] := by
      rw [ModuleTree.ancestors, ModuleTree.get_of_find? there]
      cases tree.size with
      | zero => rfl
      | succ steps =>
        show Except.ok (tree.outward (steps + 1) m) = _
        rw [ModuleTree.outward, noParent]
        rfl
    -- whatever the root is, it is taken in the end
    obtain ⟨isMod, tested, -⟩ := Yields.false_iff.mp (h.isMod there)
    refine Except.bind_eq_ok.mpr ⟨_, alone, ?_⟩
    cases isMod with
    | true =>
      refine Except.bind_eq_ok.mpr ⟨some m, Except.bind_eq_ok.mpr ⟨true, tested, rfl⟩, ?_⟩
      exact congrArg Except.ok (h.validTree.ids there)
    | false =>
      exact Except.bind_eq_ok.mpr ⟨none, Except.bind_eq_ok.mpr ⟨false, tested, rfl⟩, rfl⟩

theorem redefinition (h : Intact defs tree) (name : String) (span : Span) {ns : Namespace}
    {binding : Binding} (good : binding.Good defs ns) :
    Yields False (NameResolution.redefinition defs name span binding) fun _ => True := by
  cases binding with
  | definition id | imported id =>
    simp only [NameResolution.redefinition, Yields.bind_iff]
    exact Definitions.Known.get good |>.mono fun _ _ => trivial
  | overloads set =>
    simp only [NameResolution.redefinition, Yields.bind_iff]
    exact (h.validDefs.overloadSpan good.1).mono fun _ _ => trivial

/-! ## Listings -/

theorem header (h : Intact defs tree) {id : ModuleId} {m : Module}
    (found : tree.find? id = some m) : Yields False (ModuleTree.header defs m) fun _ => True := by
  unfold ModuleTree.header
  split
  · next owner owned =>
    split
    · trivial
    · rw [Yields.bind_iff]
      exact (h.owners found owned).get.mono fun _ _ => trivial
  · trivial

theorem entries {ns : Namespace} {binding : Binding} (name : String)
    (good : binding.Good defs ns) :
    Yields False (ModuleTree.entries defs name binding) fun _ => True := by
  cases binding with
  | definition id | imported id => trivial
  | overloads set =>
    rw [ModuleTree.entries, Yields.bind_iff]
    exact good.1.overloadSet.mono fun _ _ => trivial

theorem namesLine (h : Intact defs tree) {id : ModuleId} {m : Module}
    (found : tree.find? id = some m) (ns : Namespace) :
    Yields False (ModuleTree.namesLine defs m ns) fun _ => True := by
  simp only [ModuleTree.namesLine, Yields.bind_iff]
  have each : ∀ x ∈ m.bindings ns,
      Yields False (ModuleTree.entries defs x.1 x.2) fun _ => True := by
    rintro ⟨name, binding⟩ mem
    have bound : m.find? ns name = some binding :=
      Std.TreeMap.mem_toList_iff_getElem?_eq_some.mp mem
    exact entries name (h.good found bound)
  exact (Yields.mapM _ each).mono fun _ _ => trivial

theorem moduleLines (h : Intact defs tree) (depth : Nat) {id : ModuleId} {m : Module}
    (found : tree.find? id = some m) :
    Yields False (ModuleTree.moduleLines defs depth m) fun _ => True := by
  simp only [ModuleTree.moduleLines, Yields.bind_iff]
  apply (h.header found).mono
  intro _ _
  exact (Yields.mapM _ fun ns _ => h.namesLine found ns).mono fun _ _ => trivial

theorem preorder (h : Intact defs tree) (steps depth : Nat) {id : ModuleId}
    (known : tree.Known id) :
    Yields False (tree.preorder steps depth id) fun visits =>
      ∀ visit ∈ visits, tree.find? visit.2.id = some visit.2 := by
  induction steps generalizing depth id with
  | zero => exact List.forall_mem_nil _
  | succ steps ih =>
    simp only [ModuleTree.preorder, Yields.bind_iff, Yields.pure_iff]
    apply known.get.mono
    intro m found
    -- one level of nesting is used up by the module itself
    have below := Yields.mapM m.children fun child mem =>
      ih (depth + 1) (h.validTree.known_child found mem)
    apply below.mono
    intro visits all visit mem
    rcases List.mem_cons.mp mem with rfl | mem
    · show tree.find? m.id = some m
      rw [h.validTree.ids found, found]
    · obtain ⟨part, part_mem, mem⟩ := List.mem_flatten.mp mem
      exact all part part_mem visit mem

/-- Intact tables can be listed. -/
theorem print (h : Intact defs tree) : Yields False (tree.print defs) fun _ => True := by
  simp only [ModuleTree.print, ModuleTree.visits, Yields.bind_iff]
  apply (h.preorder tree.size 0 h.validTree.known_root).mono
  intro visits found
  have each : ∀ visit ∈ visits,
      Yields False (ModuleTree.moduleLines defs visit.1 visit.2) fun _ => True :=
    fun visit mem => h.moduleLines visit.1 (found visit mem)
  exact (Yields.mapM _ each).mono fun _ _ => trivial

end Intact

end NameResolution
