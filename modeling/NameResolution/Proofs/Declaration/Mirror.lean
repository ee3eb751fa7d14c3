import NameResolution.Proofs.Declaration.Steps
import NameResolution.Proofs.Tables.Overloads

/-! # Tables that mirror each other

    Two tables may hold the same program under other numbers. What tells a
    definition from others is the node it is made at, and what tells a module
    from others is its owner. Tables mirror each other if definitions that are
    made at one node are alike, and if names, parents and owners of modules lead
    to the same nodes and owners. -/

namespace NameResolution

/-! ## One result or none -/

section

variable {α β : Type} {r : α → β → Prop} {a : Option α} {b : Option β}

theorem rel_of_forall (left : ∀ x, a = some x → ∃ y, b = some y ∧ r x y)
    (right : ∀ y, b = some y → a.isSome) : Option.Rel r a b := by
  cases a with
  | none =>
    cases b with
    | none => exact .none
    | some y => cases right y rfl
  | some x =>
    obtain ⟨y, rfl, related⟩ := left x rfl
    exact .some related

theorem exists_right_of_rel {x : α} (h : Option.Rel r (some x) b) : ∃ y, b = some y ∧ r x y := by
  cases h with
  | some related => exact ⟨_, rfl, related⟩

theorem isSome_eq_of_rel (h : Option.Rel r a b) : a.isSome = b.isSome := by
  cases h <;> rfl

/-- What belongs together with a third is together. -/
theorem rel_of_common {γ : Type} {r' : γ → α → Prop} {r'' : γ → β → Prop} {c : Option γ}
    (h : Option.Rel r' c a) (h' : Option.Rel r'' c b) (imp : ∀ z x y, r' z x → r'' z y → r x y) :
    Option.Rel r a b := by
  cases h with
  | none =>
    cases h'
    exact .none
  | some related =>
    cases h' with
    | some related' => exact .some (imp _ _ _ related related')

theorem rel_bind {γ δ : Type} {r' : γ → δ → Prop} {f : α → Option γ} {g : β → Option δ}
    (h : Option.Rel r a b) (h' : ∀ x y, r x y → Option.Rel r' (f x) (g y)) :
    Option.Rel r' (a.bind f) (b.bind g) := by
  cases h with
  | none => exact .none
  | some related => exact h' _ _ related

theorem rel_map {γ δ : Type} {r' : γ → δ → Prop} {f : α → γ} {g : β → δ}
    (h : Option.Rel r a b) (h' : ∀ x y, r x y → r' (f x) (g y)) :
    Option.Rel r' (a.map f) (b.map g) := by
  cases h with
  | none => exact .none
  | some related => exact .some (h' _ _ related)

end

/-- The only member of a set is the one under its only suffix. -/
theorem OverloadSet.single?_eq_some_iff {set : OverloadSet} {id : DefId} :
    set.single? = some id ↔
      ∃ suffix, set.get? suffix = some id ∧ ∀ other, (set.get? other).isSome → other = suffix := by
  constructor
  · intro only
    unfold single? at only
    split at only
    · next suffix member listed =>
      cases only
      refine ⟨suffix, mem_toList.mp (by rw [listed]; exact List.mem_cons_self ..), ?_⟩
      intro other there
      obtain ⟨member', held⟩ := Option.isSome_iff_exists.mp there
      have mem : (other, member') ∈ set.toList := mem_toList.mpr held
      rw [listed, List.mem_singleton] at mem
      exact congrArg Prod.fst mem
    · cases only
  · rintro ⟨suffix, held, alone⟩
    -- members are listed in the order of their suffixes, so none is listed twice
    have sorted : List.Pairwise (fun p q => compare p.1 q.1 = .lt) set.toList :=
      Std.TreeMap.ordered_keys_toList
    have same : ∀ p ∈ set.toList, p = (suffix, id) := by
      rintro ⟨other, member⟩ mem
      have there := mem_toList.mp mem
      obtain rfl := alone other (by rw [there]; rfl)
      rw [held] at there
      cases there
      rfl
    have mem : (suffix, id) ∈ set.toList := mem_toList.mpr held
    unfold single?
    cases listed : set.toList with
    | nil =>
      rw [listed] at mem
      cases mem
    | cons first others =>
      rw [listed] at same sorted
      cases others with
      | nil =>
        rw [same first (List.mem_cons_self ..)]
      | cons second others =>
        have lt := (List.pairwise_cons.mp sorted).1 second (List.mem_cons_self ..)
        rw [same first (List.mem_cons_self ..),
          same second (List.mem_cons_of_mem _ (List.mem_cons_self ..))] at lt
        simp at lt

/-! ## What belongs together -/

namespace Definitions

/-- Two definitions that are made at one node, each in its own table. -/
def Twins (defs defs' : Definitions) (id id' : DefId) : Prop :=
  ∃ d d', defs.find? id = some d ∧ defs'.find? id' = some d' ∧ d.node = d'.node

/-- Two modules of one owner, each in its own table. -/
def SameModule (defs defs' : Definitions) (id id' : ModuleId) : Prop :=
  ∃ owner, defs.moduleOf owner = some id ∧ defs'.moduleOf owner = some id'

/-- No definition is an alias, and each is the one of its node. -/
structure Plain (defs : Definitions) : Prop where
  ofNode? : ∀ {id : DefId} {d : Definition}, defs.find? id = some d →
    defs.ofNode? d.node = some id
  target : ∀ {id : DefId} {d : Definition}, defs.find? id = some d → d.target = none

end Definitions

/-- Two bindings to what is made at the same nodes. -/
inductive Binding.Mirrored (defs defs' : Definitions) : Binding → Binding → Prop where
  | definition {id id' : DefId} (twins : defs.Twins defs' id id') :
      Mirrored defs defs' (.definition id) (.definition id')
  | overloads {set set' : OverloadId}
      (members : ∀ suffix,
        Option.Rel (defs.Twins defs') (defs.member? set suffix) (defs'.member? set' suffix)) :
      Mirrored defs defs' (.overloads set) (.overloads set')

/-- Two owners that are one in the text. -/
inductive ModuleOwner.Mirrored (defs defs' : Definitions) : ModuleOwner → ModuleOwner → Prop where
  | definition {id id' : DefId} (twins : defs.Twins defs' id id') :
      Mirrored defs defs' (.definition id) (.definition id')
  | block (node : NodeId) : Mirrored defs defs' (.block node) (.block node)

/-- Two modules whose names, parents and owners belong together. -/
structure Module.Mirrored (defs defs' : Definitions) (m m' : Module) : Prop where
  owner : m.owner.Mirrored defs defs' m'.owner
  parent : Option.Rel (defs.SameModule defs') m.parent m'.parent
  names : ∀ ns name, Option.Rel (Binding.Mirrored defs defs') (m.find? ns name) (m'.find? ns name)

/-- Two tables that hold the same, be it under other numbers. -/
structure Mirror (defs : Definitions) (tree : ModuleTree) (defs' : Definitions)
    (tree' : ModuleTree) : Prop where
  intact : Intact defs tree
  intact' : Intact defs' tree'
  plain : defs.Plain
  plain' : defs'.Plain
  kind : ∀ {id id' : DefId} {d d' : Definition}, defs.find? id = some d →
    defs'.find? id' = some d' → d.node = d'.node → d.kind = d'.kind
  ofNode? : ∀ node, Option.Rel (defs.Twins defs') (defs.ofNode? node) (defs'.ofNode? node)
  moduleOf : ∀ owner, Option.Rel (defs.SameModule defs') (defs.moduleOf owner)
    (defs'.moduleOf owner)
  modules : ∀ {id id' : ModuleId}, defs.SameModule defs' id id' →
    ∃ m m', tree.find? id = some m ∧ tree'.find? id' = some m' ∧ m.Mirrored defs defs' m'
  size : tree.size = tree'.size
  root : defs.Twins defs' .root .root
  rootModule : defs.SameModule defs' .root .root

namespace Definitions.Plain

variable {defs : Definitions}

theorem target? (plain : defs.Plain) (id : DefId) : defs.target? id = none := by
  unfold Definitions.target?
  cases found : defs.find? id with
  | none => rfl
  | some d => exact plain.target found

/-- Without aliases each definition stands for itself. -/
theorem resolveAlias (plain : defs.Plain) (id : DefId) : defs.resolveAlias id = .ok id := by
  unfold Definitions.resolveAlias Definitions.followTargets
  rw [plain.target? id]

end Definitions.Plain

namespace Mirror

variable {defs defs' : Definitions} {tree tree' : ModuleTree}

/-- Definitions of one node own modules of one owner. -/
theorem module? (mirror : Mirror defs tree defs' tree') {id id' : DefId}
    (twins : defs.Twins defs' id id') :
    Option.Rel (defs.SameModule defs') (defs.module? id) (defs'.module? id') := by
  obtain ⟨d, d', found, found', same⟩ := twins
  have owned := mirror.moduleOf (.item d.node)
  rw [Definitions.moduleOf, Definitions.moduleOf, mirror.plain.ofNode? found, same,
    mirror.plain'.ofNode? found'] at owned
  exact owned

theorem bindingAt? (mirror : Mirror defs tree defs' tree') {id id' : ModuleId}
    (same : defs.SameModule defs' id id') (ns : Namespace) (name : String) :
    Option.Rel (Binding.Mirrored defs defs') (tree.bindingAt? id ns name)
      (tree'.bindingAt? id' ns name) := by
  obtain ⟨m, m', found, found', mirrored⟩ := mirror.modules same
  rw [ModuleTree.bindingAt?_of_find? found, ModuleTree.bindingAt?_of_find? found']
  exact mirrored.names ns name

end Mirror

end NameResolution
