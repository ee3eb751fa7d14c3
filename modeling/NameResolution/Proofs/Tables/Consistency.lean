import NameResolution.Proofs.Tables.Chains
import NameResolution.Proofs.Tables.WriteOnce

/-! # The tables of definitions agree

    A definition is looked up by its id, by its node or by its suffix in a set,
    and these lookups are served by tables of their own that operations fill one
    by one. They tell the same after any operations that go through: each entry
    is of a definition that is there and fits the table it is in. -/

namespace NameResolution

namespace Definitions

variable {defs : Definitions}

/-! ## Ids and nodes -/

/-- A definition stands at the place its id says, and its node leads to it unless it is an
    alias. -/
structure Indexed (defs : Definitions) : Prop extends Layered defs where
  ids : ∀ {id : DefId} {d : Definition}, defs.find? id = some d → d.id = id
  nodes : ∀ {node : NodeId} {id : DefId}, defs.ofNode? node = some id ↔
    ∃ d, defs.find? id = some d ∧ d.kind ≠ .importAlias ∧ d.node = node

theorem find?_declared {isPub : Bool} {node : NodeId} {kind : DefKind} {ident : Ident}
    (id : DefId) : (defs.declared isPub node kind ident).find? id =
      if id = defs.nextId then some ⟨defs.nextId, kind, ident, isPub, node, none⟩
      else defs.find? id :=
  find?_push ..

namespace Indexed

theorem empty : Indexed .empty where
  toLayered := .empty
  ids h := by simp [Definitions.empty, find?] at h
  nodes := by simp [Definitions.empty, find?, ofNode?]

/-- Definitions and their nodes alone matter. -/
theorem of_eq (h : defs.Indexed) {defs' : Definitions} (layered : defs'.Layered)
    (entries : defs'.entries = defs.entries) (byNode : defs'.byNode = defs.byNode) :
    defs'.Indexed where
  toLayered := layered
  ids {id d} found := by
    rw [find?, entries] at found
    exact h.ids found
  nodes {node id} := by
    unfold find? ofNode?
    rw [entries, byNode]
    exact h.nodes

/-- An alias is in no index. -/
theorem pushAlias (h : defs.Indexed) {isPub : Bool} {node : NodeId} {ident : Ident}
    {target : DefId} (known : defs.Known target) :
    (defs.push isPub node .importAlias ident (some target)).Indexed where
  toLayered := h.push (fun t named => Option.some.inj named ▸ known) (by simp)
  ids {id d} found := by
    rw [find?_push] at found
    split at found
    · next isNew =>
      cases found
      exact isNew.symm
    · exact h.ids found
  nodes {node' id} := by
    show defs.ofNode? node' = some id ↔ _
    rw [h.nodes, find?_push]
    split
    · next isNew =>
      -- nothing has stood there, and what stands there now is an alias
      subst isNew
      constructor
      · rintro ⟨d, found, -⟩
        exact absurd (known_of_find? found) (Nat.lt_irrefl _)
      · rintro ⟨d, made, notAlias, -⟩
        cases made
        exact absurd rfl notAlias
    · rfl

/-- A declaration is known by its node, which has been free. -/
theorem declare (h : defs.Indexed) {isPub : Bool} {node : NodeId} {kind : DefKind}
    {ident : Ident} (notAlias : kind ≠ .importAlias) (free : defs.ofNode? node = none) :
    (defs.declared isPub node kind ident).Indexed where
  toLayered := h.declared notAlias
  ids {id d} found := by
    rw [find?_declared] at found
    split at found
    · next isNew =>
      cases found
      exact isNew.symm
    · exact h.ids found
  nodes {node' id} := by
    rw [find?_declared]
    by_cases same : node' = node
    · subst same
      rw [ofNode?_declared_self]
      constructor
      · rintro ⟨⟩
        exact ⟨_, if_pos rfl, notAlias, rfl⟩
      · rintro ⟨d, found, notAlias', here⟩
        split at found
        · next isNew => rw [isNew]
        · -- an earlier definition of the node would have been known by it
          have before := h.nodes.mpr ⟨d, found, notAlias', here⟩
          rw [free] at before
          cases before
    · rw [ofNode?_declared_of_ne same, h.nodes]
      split
      · next isNew =>
        subst isNew
        constructor
        · rintro ⟨d, found, -⟩
          exact absurd (known_of_find? found) (Nat.lt_irrefl _)
        · rintro ⟨d, made, -, here⟩
          cases made
          exact absurd here.symm same
      · rfl

end Indexed

end Definitions

/-- Each write keeps places and nodes in step. -/
theorem TableWrite.indexed {tables tables' : Definitions × ModuleTree}
    (h : TableWrite tables tables') (indexed : tables.1.Indexed) : tables'.1.Indexed := by
  have layered : tables'.1.Layered := h.layered indexed.toLayered
  cases h with
  | definition notAlias free => exact indexed.declare notAlias free
  | importAlias known => exact indexed.pushAlias known
  | overloads | member | moduleOf | moduleOfBlock => exact indexed.of_eq layered rfl rfl
  | module | child | anonymousChild | name => exact indexed

theorem TableWrites.indexed {tables tables' : Definitions × ModuleTree}
    (h : TableWrites tables tables') (indexed : tables.1.Indexed) : tables'.1.Indexed := by
  induction h with
  | refl => exact indexed
  | tail _ last ih => exact last.indexed ih

/-! ## Members of sets -/

namespace Definitions

/-- The sets of functions hold what can be called, and nothing else. -/
def SetsCallable (defs : Definitions) : Prop :=
  ∀ set suffix id, defs.member? set suffix = some id →
    ∃ d, defs.find? id = some d ∧ d.kind.isCallable = true

end Definitions

/-- What an operation puts into a set can be called. A single write does not show this: only
    with the operation does it come that the kind has been looked at, or that an alias has just
    been made. -/
theorem TableOperation.member_cases {tables tables' : Definitions × ModuleTree}
    (h : TableOperation tables tables') (indexed' : tables'.1.Indexed) {set : OverloadId}
    {suffix : String} {id : DefId} (mem : tables'.1.member? set suffix = some id) :
    tables.1.member? set suffix = some id ∨
      ∃ d, tables'.1.find? id = some d ∧ d.kind.isCallable = true := by
  have keeps := h.keeps
  cases h with
  | define made =>
    obtain ⟨-, -, eq⟩ := Definitions.define_eq_ok.mp made
    cases eq
    exact .inl mem
  | defineAlias made =>
    obtain ⟨-, eq⟩ := Definitions.defineAlias_eq_ok.mp made
    cases eq
    exact .inl mem
  | @addFunction defs _ _ added' _ _ added made =>
    obtain ⟨d, got, rest⟩ := Except.bind_eq_ok.mp made
    have found := Definitions.find?_of_get got
    cases added with
    | taken first =>
      rw [(Definitions.member?_of_taken made).2] at mem
      exact .inl mem
    | added into =>
      obtain ⟨-, -, inside, outside⟩ := Definitions.member?_of_added made
      by_cases same : set = into
      · subst same
        rw [inside] at mem
        split at mem
        · cases mem
          refine .inr ⟨d, keeps.defined found, ?_⟩
          by_contra notCallable
          rw [if_neg notCallable] at rest
          cases rest
        · exact .inl mem
      · rw [outside set same] at mem
        exact .inl mem
  | @importOverloads _ _ _ _ _ _ into _ _ _ made =>
    obtain ⟨-, copies⟩ := Yields.true_iff.mp Definitions.importOverloads_copies _ made
    by_cases same : set = into
    · subst same
      rcases copies.taken suffix id mem with before | ⟨-, target, ⟨d, found, -, named⟩, -⟩
      · exact .inl before
      · have isAlias : d.kind = .importAlias :=
          (indexed'.target_isSome found).mp (by rw [named]; rfl)
        exact .inr ⟨d, found, by rw [isAlias]; rfl⟩
    · rw [copies.others set suffix same] at mem
      exact .inl mem
  | addModule made =>
    obtain ⟨-, rfl⟩ := Definitions.addModule_eq_ok.mp made
    exact .inl mem
  | addBlock made =>
    obtain ⟨-, rfl⟩ := Definitions.addBlock_eq_ok.mp made
    exact .inl mem
  | addNamed | addAnonymous | bind => exact .inl mem

theorem TableOperation.setsCallable {tables tables' : Definitions × ModuleTree}
    (h : TableOperation tables tables') (indexed' : tables'.1.Indexed)
    (callable : tables.1.SetsCallable) : tables'.1.SetsCallable := by
  intro set suffix id mem
  rcases h.member_cases indexed' mem with before | added
  · obtain ⟨d, found, called⟩ := callable set suffix id before
    exact ⟨d, h.keeps.defined found, called⟩
  · exact added

theorem TableOperations.setsCallable {fresh : ModuleTree} {tables : Definitions × ModuleTree}
    (h : TableOperations (.empty, fresh) tables) : tables.1.SetsCallable := by
  induction h with
  | refl =>
    intro set suffix id mem
    simp [Definitions.empty, Definitions.member?] at mem
  | tail reached last ih =>
    have indexed : Definitions.Indexed _ :=
      (TableOperations.writes (reached.tail last)).indexed .empty
    exact last.setsCallable indexed ih

/-! ## Agreement -/

/-- Whatever operations have led to the tables: the definition at a place has that place as its
    id, and its visibility and its node are there for the asking; a node leads to a definition
    just if that is no alias and of this node; just the aliases have targets; the functions in
    the sets are definitions, and are functions, initializers or aliases; and the module that has
    been recorded of a definition or of a block is the same ever after. -/
theorem tables_agree {fresh tree : ModuleTree} {defs : Definitions}
    (reached : TableOperations (.empty, fresh) (defs, tree)) :
    (∀ i, i < defs.size → ∃ d, defs.toList[i]? = some d ∧ d.id = ⟨i⟩ ∧
      defs.get ⟨i⟩ = .ok d ∧ defs.isPub ⟨i⟩ = .ok d.isPub) ∧
    (∀ node id, defs.ofNode? node = some id ↔
      ∃ d, defs.get id = .ok d ∧ d.kind ≠ .importAlias ∧ d.node = node) ∧
    (∀ id, (∃ target, defs.target? id = some target) ↔
      ∃ d, defs.get id = .ok d ∧ d.kind = .importAlias) ∧
    (∀ set members suffix id, defs.overloadSet set = .ok members →
      members.get? suffix = some id → ∃ d, defs.get id = .ok d ∧
        (d.kind = .func ∨ d.kind = .init ∨ d.kind = .importAlias)) ∧
    (∀ id module defs₁ defs₂ tree₂, defs.addModule id module = .ok defs₁ →
      TableOperations (defs₁, tree) (defs₂, tree₂) → defs₂.module? id = some module) ∧
    ∀ node module defs₁ defs₂ tree₂, defs.addBlock node module = .ok defs₁ →
      TableOperations (defs₁, tree) (defs₂, tree₂) → defs₂.blockModule? node = some module := by
  have indexed : defs.Indexed := reached.writes.indexed .empty
  have get_iff {id : DefId} {d : Definition} : defs.get id = .ok d ↔ defs.find? id = some d :=
    ⟨Definitions.find?_of_get, Definitions.get_of_find?⟩
  simp only [get_iff]
  refine ⟨fun i lt => ?_, fun node id => indexed.nodes, fun id => ?_,
    fun set members suffix id got mem => ?_, fun id module defs₁ defs₂ tree₂ made later => ?_,
    fun node module defs₁ defs₂ tree₂ made later => ?_⟩
  · have known : defs.Known ⟨i⟩ := lt
    obtain ⟨d, found⟩ := known.find?
    refine ⟨d, ?_, indexed.ids found, found, ?_⟩
    · rw [Definitions.toList, Array.getElem?_toList]
      exact found
    · rw [Definitions.isPub, Definitions.get_of_find? found]
      rfl
  · constructor
    · rintro ⟨target, named⟩
      obtain ⟨d, found, named⟩ := Option.bind_eq_some_iff.mp named
      exact ⟨d, found, (indexed.target_isSome found).mp (by rw [named]; rfl)⟩
    · rintro ⟨d, found, isAlias⟩
      have isSome := (indexed.target_isSome found).mpr isAlias
      obtain ⟨target, named⟩ := Option.isSome_iff_exists.mp isSome
      exact ⟨target, by rw [Definitions.target?, found, Option.bind_some, named]⟩
  · have held := Definitions.getElem?_of_overloadSet got
    obtain ⟨d, found, called⟩ := reached.setsCallable set suffix id
      (Definitions.member?_eq_some.mpr ⟨members, held, mem⟩)
    refine ⟨d, found, ?_⟩
    revert called
    cases d.kind <;> simp [DefKind.isCallable]
  · obtain ⟨-, rfl⟩ := Definitions.addModule_eq_ok.mp made
    exact later.writes.writeOnce.moduleOf Definitions.module?_withModule_self
  · obtain ⟨-, rfl⟩ := Definitions.addBlock_eq_ok.mp made
    exact later.writes.writeOnce.moduleOfBlock Definitions.blockModule?_withBlock_self

/-- A function in a set of its own. -/
def Definitions.grouped : Definitions :=
  (Definitions.empty.declared true ⟨1⟩ .func ⟨"f", ⟨4, 1⟩⟩).newOverloads.2.insertOverload ⟨0⟩
    "of:" ⟨0⟩

/-- The same, with a copy of the set in which an alias stands for the function. -/
def Definitions.copied : Definitions :=
  (Definitions.grouped.newOverloads.2.push false ⟨2⟩ .importAlias ⟨"f", ⟨4, 1⟩⟩
    (some ⟨0⟩)).insertOverload ⟨1⟩ "of:" ⟨1⟩

theorem reached_copied : TableOperations (.empty, .new) (.copied, .new) := by
  have declares : Definitions.empty.define true ⟨1⟩ .func ⟨"f", ⟨4, 1⟩⟩ =
      .ok (⟨0⟩, Definitions.empty.declared true ⟨1⟩ .func ⟨"f", ⟨4, 1⟩⟩) := rfl
  have adds : (Definitions.empty.declared true ⟨1⟩ .func ⟨"f", ⟨4, 1⟩⟩).addFunction ⟨0⟩ none
      "of:" = .ok (.added ⟨0⟩, .grouped) := rfl
  have imports : Definitions.grouped.importOverloads false ⟨2⟩ ⟨0⟩ none true =
      .ok (⟨1⟩, [], .copied) := rfl
  exact ((Relation.ReflTransGen.single (.define declares)).tail (.addFunction adds)).tail
    (.importOverloads imports)

theorem tables_agree_copied :
    TableOperations (.empty, .new) (.copied, .new) ∧
      (∃ members, Definitions.copied.overloadSet ⟨1⟩ = .ok members ∧
        members.get? "of:" = some ⟨1⟩) ∧
      ∃ d, Definitions.copied.get ⟨1⟩ = .ok d ∧
        (d.kind = .func ∨ d.kind = .init ∨ d.kind = .importAlias) := by
  have held : ∃ members, Definitions.copied.overloadSet ⟨1⟩ = .ok members ∧
      members.get? "of:" = some ⟨1⟩ := ⟨_, rfl, rfl⟩
  obtain ⟨members, got, mem⟩ := held
  refine ⟨reached_copied, ⟨members, got, mem⟩, ?_⟩
  exact (tables_agree reached_copied).2.2.2.1 ⟨1⟩ members "of:" ⟨1⟩ got mem

end NameResolution
