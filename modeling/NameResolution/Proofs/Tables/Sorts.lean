import NameResolution.Outline.Basic
import NameResolution.Proofs.Tables.Intact
import NameResolution.Proofs.Tables.Overloads
import Mathlib.Logic.Relation

/-! # What names may be bound to

    A name is bound in the namespace of what it finally stands for, and stands
    for functions only by way of a set of them, which is that name's alone. This
    is so after each single operation on the tables, not only when a pass is
    through. -/

namespace NameResolution

/-! ## Operations -/

/-- An operation on the tables that goes through. -/
inductive TableOperation : Definitions × ModuleTree → Definitions × ModuleTree → Prop where
  | define {defs defs' : Definitions} {tree : ModuleTree} {isPub : Bool} {node : NodeId}
      {kind : DefKind} {ident : Ident} {id : DefId}
      (made : defs.define isPub node kind ident = .ok (id, defs')) :
      TableOperation (defs, tree) (defs', tree)
  | defineAlias {defs defs' : Definitions} {tree : ModuleTree} {isPub : Bool} {node : NodeId}
      {ident : Ident} {target id : DefId}
      (made : defs.defineAlias isPub node ident target = .ok (id, defs')) :
      TableOperation (defs, tree) (defs', tree)
  | addFunction {defs defs' : Definitions} {tree : ModuleTree} {id : DefId}
      {set : Option OverloadId} {suffix : String} {added : Definitions.Added}
      (made : defs.addFunction id set suffix = .ok (added, defs')) :
      TableOperation (defs, tree) (defs', tree)
  | importOverloads {defs defs' : Definitions} {tree : ModuleTree} {isPub : Bool} {node : NodeId}
      {source into : OverloadId} {target : Option OverloadId} {publicOnly : Bool}
      {taken : List (String × DefId)}
      (made : defs.importOverloads isPub node source target publicOnly = .ok (into, taken, defs')) :
      TableOperation (defs, tree) (defs', tree)
  | addModule {defs defs' : Definitions} {tree : ModuleTree} {id : DefId} {module : ModuleId}
      (made : defs.addModule id module = .ok defs') : TableOperation (defs, tree) (defs', tree)
  | addBlock {defs defs' : Definitions} {tree : ModuleTree} {node : NodeId} {module : ModuleId}
      (made : defs.addBlock node module = .ok defs') : TableOperation (defs, tree) (defs', tree)
  | addNamed {defs : Definitions} {tree tree' : ModuleTree} {parent module : ModuleId}
      {name : String} {owner : ModuleOwner}
      (made : tree.addNamed parent name owner = .ok (module, tree')) :
      TableOperation (defs, tree) (defs, tree')
  | addAnonymous {defs : Definitions} {tree tree' : ModuleTree} {parent module : ModuleId}
      {node : NodeId} {owner : ModuleOwner}
      (made : tree.addAnonymous parent node owner = .ok (module, tree')) :
      TableOperation (defs, tree) (defs, tree')
  | bind {defs : Definitions} {tree tree' : ModuleTree} {module : ModuleId} {ns : Namespace}
      {name : String} {binding : Binding}
      (made : tree.bind module ns name binding = .ok (.bound tree')) :
      TableOperation (defs, tree) (defs, tree')

/-- No operation changes a definition or takes it away. -/
theorem TableOperation.keeps {tables tables' : Definitions × ModuleTree}
    (h : TableOperation tables tables') : tables.1.Keeps tables'.1 := by
  cases h with
  | @define defs _ _ isPub node kind ident _ made =>
    obtain ⟨-, -, eq⟩ := Definitions.define_eq_ok.mp made
    cases eq
    exact Definitions.keeps_declared isPub node kind ident
  | defineAlias made =>
    obtain ⟨-, eq⟩ := Definitions.defineAlias_eq_ok.mp made
    cases eq
    exact Definitions.keeps_push ..
  | addFunction made => exact Definitions.keeps_of_addFunction made
  | importOverloads made =>
    exact (Yields.true_iff.mp Definitions.importOverloads_copies _ made).2.keeps
  | addModule made =>
    obtain ⟨-, rfl⟩ := Definitions.addModule_eq_ok.mp made
    exact .of_eq rfl rfl
  | addBlock made =>
    obtain ⟨-, rfl⟩ := Definitions.addBlock_eq_ok.mp made
    exact .of_eq rfl rfl
  | addNamed | addAnonymous | bind => exact .refl _

/-! ## Sorts -/

/-- A binding that stands for something of a namespace: by a definition, by an alias of one, or by
    a set of functions. -/
def Binding.Sorted (defs : Definitions) (ns : Namespace) : Binding → Prop
  | .definition id => ∃ d, defs.find? id = some d ∧ d.kind.namespace? = some ns ∧
      d.kind.isCallable = false
  | .imported id => (∃ d, defs.find? id = some d ∧ d.kind = .importAlias) ∧
      defs.FinallyIs id fun d => d.kind.namespace? = some ns ∧ d.kind.isCallable = false
  | .overloads set => ns = .value ∧ defs.Stocked set

/-- Only aliases have a target, and each member of a set is finally a function that has been
    declared with its suffix. Nothing is a member of two sets. -/
structure Definitions.WellSorted (labels : NodeId → String → Prop) (defs : Definitions) :
    Prop where
  target_isSome : ∀ {id : DefId} {d : Definition}, defs.find? id = some d →
    (d.target.isSome ↔ d.kind = .importAlias)
  members : ∀ {i : Nat} {set : OverloadSet} {suffix : String} {id : DefId},
    defs.overloads[i]? = some set → set.get? suffix = some id →
      defs.FinallyIs id fun d => (d.kind = .func ∨ d.kind = .init) ∧ labels d.node suffix
  once : ∀ {set set' : OverloadId} {suffix suffix' : String} {id : DefId},
    defs.member? set suffix = some id → defs.member? set' suffix' = some id → set' = set

/-- Names are bound to what may stand in their namespace, and no two to one set of functions. -/
structure WellSorted (labels : NodeId → String → Prop) (defs : Definitions) (tree : ModuleTree) :
    Prop where
  bindings : ∀ {module : ModuleId} {ns : Namespace} {name : String} {binding : Binding},
    tree.bindingAt? module ns name = some binding → binding.Sorted defs ns
  apart : ∀ {module module' : ModuleId} {ns ns' : Namespace} {name name' : String}
    {set : OverloadId}, tree.bindingAt? module ns name = some (.overloads set) →
      tree.bindingAt? module' ns' name' = some (.overloads set) → module' = module ∧ name' = name
  defs : defs.WellSorted labels

variable {labels : NodeId → String → Prop} {defs defs' : Definitions} {tree tree' : ModuleTree}

namespace Binding.Sorted

variable {ns : Namespace} {binding : Binding}

theorem keeps (h : binding.Sorted defs ns) (keeps : defs.Keeps defs') (valid : defs.Valid)
    (valid' : defs'.Valid) : binding.Sorted defs' ns := by
  cases binding with
  | definition id =>
    obtain ⟨d, found, sort⟩ := h
    exact ⟨d, keeps.defined found, sort⟩
  | imported id =>
    obtain ⟨⟨d, found, isAlias⟩, finally'⟩ := h
    exact ⟨⟨d, keeps.defined found, isAlias⟩, finally'.keeps keeps valid valid'⟩
  | overloads set => exact ⟨h.1, keeps.stocked h.2⟩

theorem good (h : binding.Sorted defs ns) : binding.Good defs ns := by
  cases binding with
  | definition id =>
    obtain ⟨d, found, -⟩ := h
    exact Definitions.known_of_find? found
  | imported id =>
    obtain ⟨⟨d, found, -⟩, -⟩ := h
    exact Definitions.known_of_find? found
  | overloads set => exact ⟨h.2, h.1⟩

/-- What is bound as a definition is no alias. -/
theorem noTarget {id : DefId} (h : (Binding.definition id).Sorted defs ns)
    (sorted : defs.WellSorted labels) {d : Definition} (found : defs.find? id = some d) :
    d.target = none := by
  obtain ⟨d', found', -, notCallable⟩ := h
  rw [found] at found'
  cases found'
  -- aliases can be called, and this cannot
  rw [← Option.not_isSome_iff_eq_none, sorted.target_isSome found]
  intro isAlias
  rw [isAlias] at notCallable
  cases notCallable

/-- What a single definition stands for is something of the namespace, and no function. -/
theorem finallyIs {target : DefId} (h : binding.Sorted defs ns)
    (names : binding = .definition target ∨ binding = .imported target) (valid : defs.Valid)
    (sorted : defs.WellSorted labels) :
    defs.FinallyIs target fun d => d.kind.namespace? = some ns ∧ d.kind.isCallable = false := by
  rcases names with rfl | rfl
  · obtain ⟨d, found, sort⟩ := h
    exact Definitions.finallyIs_self valid found (noTarget ⟨d, found, sort⟩ sorted found) sort
  · exact h.2

end Binding.Sorted

/-! ## Definitions -/

namespace Definitions.WellSorted

theorem empty (labels : NodeId → String → Prop) : Definitions.WellSorted labels .empty where
  target_isSome h := by simp [Definitions.empty, Definitions.find?] at h
  members h := by simp [Definitions.empty] at h
  once h := by simp [Definitions.empty, Definitions.member?] at h

theorem push (h : defs.WellSorted labels) (valid : defs.Valid) {isPub : Bool} {node : NodeId}
    {kind : DefKind} {ident : Ident} {target : Option DefId}
    (known : ∀ t, target = some t → defs.Known t) (isAlias : target.isSome ↔ kind = .importAlias) :
    (defs.push isPub node kind ident target).WellSorted labels where
  target_isSome {id d} found := by
    rw [Definitions.find?_push] at found
    split at found
    · cases found
      exact isAlias
    · exact h.target_isSome found
  members held mem := (h.members held mem).keeps (keeps_push ..) valid
    (valid.push isPub node kind ident target known)
  once := h.once

/-- The same definitions and sets, whatever else has changed. -/
theorem of_eq (h : defs.WellSorted labels) (valid : defs.Valid) (valid' : defs'.Valid)
    (entries : defs'.entries = defs.entries) (overloads : defs'.overloads = defs.overloads) :
    defs'.WellSorted labels where
  target_isSome {id d} found := by
    rw [Definitions.find?, entries] at found
    exact h.target_isSome found
  members held mem := by
    rw [overloads] at held
    exact (h.members held mem).keeps (.of_eq entries overloads) valid valid'
  once mem mem' := by
    rw [Definitions.member?, overloads] at mem mem'
    exact h.once mem mem'

theorem declared (h : defs.WellSorted labels) (valid : defs.Valid) {isPub : Bool} {node : NodeId}
    {kind : DefKind} (notAlias : kind ≠ .importAlias) {ident : Ident} :
    (defs.declared isPub node kind ident).WellSorted labels :=
  (h.push valid (by simp) (by simpa using notAlias)).of_eq
    (valid.push isPub node kind ident none (by simp)) valid.declared rfl rfl

theorem overloadsOrNew (h : defs.WellSorted labels) (valid : defs.Valid)
    (set : Option OverloadId) : (defs.overloadsOrNew set).2.WellSorted labels := by
  cases set with
  | some id => exact h
  | none =>
    refine ⟨h.target_isSome, fun {i set suffix id} held mem => ?_, fun mem mem' => ?_⟩
    case refine_2 =>
      rw [Definitions.member?_overloadsOrNew] at mem mem'
      exact h.once mem mem'
    have held : defs.newOverloads.2.overloads[i]? = some set := held
    rw [getElem?_newOverloads] at held
    split at held
    · cases held
      simp at mem
    · exact (h.members held mem).keeps (keeps_overloadsOrNew none) valid (valid.overloadsOrNew none)

/-- A member that is in no set yet takes a free suffix. -/
theorem insertOverload (h : defs.WellSorted labels) (valid : defs.Valid) {into : OverloadId}
    {set : OverloadSet} (held : defs.overloads[into.index]? = some set) {suffix : String}
    (free : set.get? suffix = none) {member : DefId}
    (isFunc : defs.FinallyIs member fun d => (d.kind = .func ∨ d.kind = .init) ∧
      labels d.node suffix)
    (fresh : ∀ other suffix', defs.member? other suffix' ≠ some member) :
    (defs.insertOverload into suffix member).WellSorted labels := by
  have keeps : defs.Keeps (defs.insertOverload into suffix member) :=
    keeps_insertOverload member held free
  have valid' : (defs.insertOverload into suffix member).Valid :=
    valid.insertOverload isFunc.known
  refine ⟨h.target_isSome, fun {i set' suffix' id} held' mem => ?_, fun mem mem' => ?_⟩
  · rw [getElem?_insertOverload] at held'
    split at held'
    · obtain ⟨old, before, rfl⟩ := Option.map_eq_some_iff.mp held'
      by_cases same : suffix = suffix'
      · subst same
        rw [OverloadSet.get?_insert_self] at mem
        cases mem
        exact isFunc.keeps keeps valid valid'
      · rw [OverloadSet.get?_insert_of_ne _ same] at mem
        exact (h.members before mem).keeps keeps valid valid'
    · exact (h.members held' mem).keeps keeps valid valid'
  · rcases member?_insertOverload_cases held mem with before | ⟨rfl, rfl⟩
    · rcases member?_insertOverload_cases held mem' with before' | ⟨-, rfl⟩
      · exact h.once before before'
      · exact absurd before (fresh _ _)
    · rcases member?_insertOverload_cases held mem' with before' | ⟨rfl, -⟩
      · exact absurd before' (fresh _ _)
      · rfl

end Definitions.WellSorted

/-- A later table in order, with more aliases and functions. -/
structure Definitions.Gains (labels : NodeId → String → Prop) (defs defs' : Definitions) :
    Prop where
  valid : defs'.Valid
  grows : defs.Grows defs'
  keeps : defs.Keeps defs'
  sorted : defs'.WellSorted labels

namespace Definitions.Gains

variable {defs'' : Definitions}

theorem refl (valid : defs.Valid) (sorted : defs.WellSorted labels) : Gains labels defs defs :=
  ⟨valid, .refl defs, .refl defs, sorted⟩

theorem trans (h : Gains labels defs defs') (h' : Gains labels defs' defs'') :
    Gains labels defs defs'' :=
  ⟨h'.valid, h.grows.trans h'.grows, h.keeps.trans h'.keeps, h'.sorted⟩

theorem overloadsOrNew (valid : defs.Valid) (sorted : defs.WellSorted labels)
    (set : Option OverloadId) : Gains labels defs (defs.overloadsOrNew set).2 :=
  ⟨valid.overloadsOrNew set, grows_overloadsOrNew set, keeps_overloadsOrNew set,
    sorted.overloadsOrNew valid set⟩

/-- A function takes a free suffix of a set. -/
theorem insertOverload (valid : defs.Valid) (sorted : defs.WellSorted labels) {into : OverloadId}
    {set : OverloadSet} (held : defs.overloads[into.index]? = some set) {suffix : String}
    (free : set.get? suffix = none) {member : DefId}
    (isFunc : defs.FinallyIs member fun d => (d.kind = .func ∨ d.kind = .init) ∧
      labels d.node suffix)
    (fresh : ∀ other suffix', defs.member? other suffix' ≠ some member) :
    Gains labels defs (defs.insertOverload into suffix member) :=
  ⟨valid.insertOverload isFunc.known, grows_insertOverload, keeps_insertOverload member held free,
    sorted.insertOverload valid held free isFunc fresh⟩

/-- A function that is in no set yet joins one, or a fresh one, with the suffix that has been
    declared for it. -/
theorem addFunction (valid : defs.Valid) (sorted : defs.WellSorted labels) {id : DefId}
    {set : Option OverloadId} {suffix : String}
    (isFunc : defs.FinallyIs id fun d => (d.kind = .func ∨ d.kind = .init) ∧
      labels d.node suffix)
    (fresh : ∀ other suffix', defs.member? other suffix' ≠ some id) :
    Yields True (defs.addFunction id set suffix) fun r =>
      Gains labels defs r.2 ∧
        ∀ into, r.1 = .added into → into = (defs.overloadsOrNew set).1 ∧ r.2.Stocked into := by
  have gains : Gains labels defs (defs.overloadsOrNew set).2 := overloadsOrNew valid sorted set
  have isFunc' := isFunc.keeps gains.keeps valid gains.valid
  have fresh' : ∀ other suffix', (defs.overloadsOrNew set).2.member? other suffix' ≠ some id := by
    intro other suffix'
    rw [Definitions.member?_overloadsOrNew]
    exact fresh other suffix'
  simp only [Definitions.addFunction, Yields.bind_iff]
  refine Yields.trivial_of_true fun d => ?_
  split
  · simp only [Yields.bind_iff]
    rcases opened : defs.overloadsOrNew set with ⟨into, defs'⟩
    rw [opened] at gains isFunc' fresh'
    apply Yields.true_iff.mpr
    intro members got
    have held := getElem?_of_overloadSet got
    split
    · exact ⟨gains, by simp⟩
    · next free =>
      refine ⟨gains.trans (insertOverload gains.valid gains.sorted held free isFunc' fresh'), ?_⟩
      rintro _ ⟨⟩
      exact ⟨rfl, stocked_insertOverload held⟩
  · simp

/-- An alias of something known. -/
theorem push (valid : defs.Valid) (sorted : defs.WellSorted labels) (isPub : Bool) (node : NodeId)
    (ident : Ident) {target : DefId} (known : defs.Known target) :
    Gains labels defs (defs.push isPub node .importAlias ident (some target)) := by
  have named : ∀ t, some target = some t → defs.Known t := fun _ eq => Option.some.inj eq ▸ known
  exact ⟨valid.push isPub node .importAlias ident (some target) named, grows_push ..,
    keeps_push .., sorted.push valid named (by simp)⟩

theorem defineAlias (valid : defs.Valid) (sorted : defs.WellSorted labels) {isPub : Bool}
    {node : NodeId} {ident : Ident} {target : DefId} :
    Yields True (defs.defineAlias isPub node ident target) fun r =>
      r = (defs.nextId, defs.push isPub node .importAlias ident target) ∧
        Gains labels defs r.2 := by
  apply Yields.true_iff.mpr
  intro r made
  obtain ⟨known, rfl⟩ := defineAlias_eq_ok.mp made
  exact ⟨rfl, push valid sorted isPub node ident known⟩

/-- Functions that are taken over keep their suffix, and what they finally are. -/
theorem joins {isPub : Bool} {node : NodeId} {into : OverloadId}
    {members taken : List (String × DefId)}
    (outcome : JoinOutcome isPub node into defs members taken defs') (valid : defs.Valid)
    (sorted : defs.WellSorted labels)
    (isFunc : ∀ m ∈ members, defs.FinallyIs m.2 fun d => (d.kind = .func ∨ d.kind = .init) ∧
      labels d.node m.1) : Gains labels defs defs' := by
  induction outcome with
  | nil => exact .refl valid sorted
  | stays _ _ ih => exact ih valid sorted (List.forall_mem_cons.mp isFunc).2
  | @joins defs _ set suffix target d _ _ held free found _ ih =>
    obtain ⟨target_isFunc, others⟩ := List.forall_mem_cons.mp isFunc
    have gains := push valid sorted isPub node d.ident (known_of_find? found)
    -- the alias is finally what its target is, and its suffix is still free
    have alias_isFunc := (target_isFunc.keeps gains.keeps valid gains.valid).through gains.valid
      (find?_push_self ..) rfl
    have fresh : ∀ other suffix', defs.member? other suffix' ≠ some defs.nextId :=
      fun _ _ mem => Nat.lt_irrefl _ (valid.known_of_member? mem)
    have gains' := gains.trans
      (insertOverload gains.valid gains.sorted held free alias_isFunc fresh)
    have others' := fun m mem => (others m mem).keeps gains'.keeps valid gains'.valid
    exact gains'.trans (ih gains'.valid gains'.sorted others')

theorem importOverloads (valid : defs.Valid) (sorted : defs.WellSorted labels) {isPub : Bool}
    {node : NodeId} {source : OverloadId} {into : Option OverloadId} {publicOnly : Bool} :
    Yields True (defs.importOverloads isPub node source into publicOnly) fun r =>
      r.1 = (defs.overloadsOrNew into).1 ∧ Gains labels defs r.2.2 := by
  have gains : Gains labels defs (defs.overloadsOrNew into).2 := overloadsOrNew valid sorted into
  apply Yields.true_iff.mpr
  rintro ⟨into', taken, defs'⟩ made
  obtain ⟨isInto, outcome⟩ := importOverloads_outcome made
  refine ⟨isInto, ?_⟩
  cases outcome with
  | itself _ => exact gains
  | @joined _ set members _ _ held selected outcome =>
    have isFunc : ∀ m ∈ set.toList, (defs.overloadsOrNew into).2.FinallyIs m.2 fun d =>
        (d.kind = .func ∨ d.kind = .init) ∧ labels d.node m.1 :=
      fun m mem => gains.sorted.members held (OverloadSet.mem_toList.mp mem)
    -- to leave some of the members out makes no difference to the others
    obtain ⟨subset, -⟩ := Yields.true_iff.mp importable_selects _ selected
    have isFunc' := fun m mem => isFunc m (subset m mem)
    exact gains.trans (joins outcome gains.valid gains.sorted isFunc')

end Definitions.Gains

/-! ## Definitions and modules -/

namespace WellSorted

theorem empty (labels : NodeId → String → Prop) : WellSorted labels .empty .new := by
  refine ⟨fun bound => ?_, fun bound => ?_, .empty labels⟩
  · rw [ModuleTree.bindingAt?_new] at bound
    cases bound
  · rw [ModuleTree.bindingAt?_new] at bound
    cases bound

/-- Larger tables of definitions. -/
theorem keeps (h : WellSorted labels defs tree) (keeps : defs.Keeps defs') (valid : defs.Valid)
    (valid' : defs'.Valid) (sorted : defs'.WellSorted labels) : WellSorted labels defs' tree :=
  ⟨fun bound => (h.bindings bound).keeps keeps valid valid', h.apart, sorted⟩

/-- One more name. A set of functions must not have another one already. -/
theorem bind (h : WellSorted labels defs tree) {module : ModuleId} {ns : Namespace}
    {name : String} {binding : Binding} (sorted : binding.Sorted defs ns)
    (fresh : ∀ set, binding = .overloads set → ∀ other ns' name',
      tree.bindingAt? other ns' name' ≠ some (.overloads set)) :
    WellSorted labels defs (tree.modify module (·.bind ns name binding)) := by
  refine ⟨fun bound => ?_, fun {other other' ns' ns'' name' name'' set} bound bound' => ?_, h.defs⟩
  · rcases ModuleTree.bound_or_of_bind bound with ⟨same, rfl⟩ | before
    · cases same
      exact sorted
    · exact h.bindings before
  · rcases ModuleTree.bound_or_of_bind bound with ⟨same, isNew⟩ | before <;>
      rcases ModuleTree.bound_or_of_bind bound' with ⟨same', isNew'⟩ | before'
    · cases same
      cases same'
      exact ⟨rfl, rfl⟩
    · exact absurd before' (fresh set isNew.symm _ _ _)
    · exact absurd before (fresh set isNew'.symm _ _ _)
    · exact h.apart before before'

/-- One more module, without names. -/
theorem adds (h : WellSorted labels defs tree) {parent : ModuleId} {owner : ModuleOwner}
    {node : NodeId} (adds : tree.Adds parent owner node tree') : WellSorted labels defs tree' :=
  ⟨fun bound => h.bindings (adds.bindingAt? bound),
    fun bound bound' => h.apart (adds.bindingAt? bound) (adds.bindingAt? bound'), h.defs⟩

end WellSorted

/-! ## Ways from tables to tables -/

/-- Tables in order. -/
structure Sound (labels : NodeId → String → Prop) (tables : Definitions × ModuleTree) : Prop where
  intact : Intact tables.1 tables.2
  sorted : WellSorted labels tables.1 tables.2

/-- The tables come about from others by one operation after another, and are in order after each
    of them. -/
def Passes (labels : NodeId → String → Prop) :
    Definitions × ModuleTree → Definitions × ModuleTree → Prop :=
  Relation.ReflTransGen fun tables tables' => TableOperation tables tables' ∧ Sound labels tables'

theorem Passes.sound {tables tables' : Definitions × ModuleTree} (h : Passes labels tables tables')
    (sound : Sound labels tables) : Sound labels tables' := by
  induction h with
  | refl => exact sound
  | tail _ last _ => exact last.2

theorem Passes.keeps {tables tables' : Definitions × ModuleTree}
    (h : Passes labels tables tables') : tables.1.Keeps tables'.1 := by
  induction h with
  | refl => exact .refl _
  | tail _ last ih => exact ih.trans last.1.keeps

theorem Passes.refl (tables : Definitions × ModuleTree) : Passes labels tables tables :=
  Relation.ReflTransGen.refl

theorem Passes.trans {tables tables' tables'' : Definitions × ModuleTree}
    (h : Passes labels tables tables') (h' : Passes labels tables' tables'') :
    Passes labels tables tables'' := Relation.ReflTransGen.trans h h'

theorem Passes.single {tables tables' : Definitions × ModuleTree}
    (operation : TableOperation tables tables') (sound : Sound labels tables') :
    Passes labels tables tables' := Relation.ReflTransGen.single ⟨operation, sound⟩

namespace Sound

/-- More aliases and functions. -/
theorem gains (h : Sound labels (defs, tree)) (gains : Definitions.Gains labels defs defs') :
    Sound labels (defs', tree) :=
  ⟨h.intact.grow gains.grows gains.valid,
    h.sorted.keeps gains.keeps h.intact.validDefs gains.valid gains.sorted⟩

/-- Binding a free name. -/
theorem bind (h : Sound labels (defs, tree)) {module : ModuleId} {m : Module} {ns : Namespace}
    {name : String} {binding : Binding} (found : tree.find? module = some m)
    (takes : ¬ (ns = .lifetime ∧ m.owner.isBlock))
    (free : tree.bindingAt? module ns name = none) (sorted : binding.Sorted defs ns)
    (fresh : ∀ set, binding = .overloads set → ∀ other ns' name',
      tree.bindingAt? other ns' name' ≠ some (.overloads set)) :
    Passes labels (defs, tree) (defs, tree.modify module (·.bind ns name binding)) := by
  rw [ModuleTree.bindingAt?_of_find? found] at free
  exact .single (.bind (ModuleTree.bind_eq_bound.mpr ⟨m, found, takes, free, rfl⟩))
    ⟨h.intact.bind sorted.good, h.sorted.bind sorted fresh⟩

/-- A set that has not been made yet has no name. -/
theorem not_bound_of_new (h : Sound labels (defs, tree)) {set : OverloadId}
    (new : set.index = defs.overloads.size) (module : ModuleId) (ns : Namespace) (name : String) :
    tree.bindingAt? module ns name ≠ some (.overloads set) := by
  intro bound
  obtain ⟨-, members, suffix, member, held, -⟩ := h.sorted.bindings bound
  obtain ⟨lt, -⟩ := Array.getElem?_eq_some_iff.mp held
  exact Nat.ne_of_lt lt new

end Sound

end NameResolution
