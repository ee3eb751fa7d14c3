import NameResolution.Proofs.Tables.Places
import NameResolution.Proofs.Tables.Shape
import NameResolution.Proofs.Tables.Sorts

/-! # The `mod`s around a module

    `self` and `super` see only the modules of a `mod`, and that of the program.
    Around each module there is a row of these, innermost first, which ends with
    the root. From one of them, the next one is the innermost `mod` around its
    parent. -/

namespace NameResolution

/-- What is done to the tables leaves the tree in shape. -/
theorem Passes.shaped {labels : NodeId → String → Prop} {tables tables' : Definitions × ModuleTree}
    (h : Passes labels tables tables') (shaped : tables.2.Shaped) : tables'.2.Shaped := by
  induction h with
  | refl => exact shaped
  | tail _ last ih =>
    cases last.1 with
    | define | defineAlias | addFunction | importOverloads | addModule | addBlock => exact ih
    | addNamed made => exact ih.operation (.addNamed made)
    | addAnonymous made => exact ih.operation (.addAnonymous made)
    | bind made => exact ih.operation (.bind made)

namespace ModuleTree

/-- Whether a module belongs to a `mod` or to the program. -/
def ofMod (tree : ModuleTree) (defs : Definitions) (id : ModuleId) : Bool :=
  ((tree.find? id).bind (·.owner.definition?)).any fun owner =>
    (defs.find? owner).any (·.kind == .mod)

/-- The modules around one that belong to a `mod` or to the program, innermost first. -/
def mods (tree : ModuleTree) (defs : Definitions) (id : ModuleId) : List ModuleId :=
  (tree.around id).filter (tree.ofMod defs)

variable {tree tree' : ModuleTree} {defs defs' : Definitions} {id outer : ModuleId} {m : Module}

/-! ## The modules around one -/

theorem WayOut.around_eq {ms : List Module} (way : tree.WayOut id ms) (shaped : tree.Shaped) :
    tree.around id = ms.map (·.id) := by
  obtain ⟨m, -, -, found⟩ := way.head
  obtain ⟨ms', ancestors, way'⟩ := shaped.ancestors found
  cases way.unique way'
  rw [around, ancestors]

/-- A module comes first, and then those around its parent. -/
theorem Shaped.around_cons (shaped : tree.Shaped) (found : tree.find? id = some m) :
    tree.around id = id :: m.parent.elim [] tree.around := by
  obtain ⟨ms, -, way⟩ := shaped.ancestors found
  rw [way.around_eq shaped]
  cases way with
  | ends found' noParent =>
    cases found.symm.trans found'
    rw [noParent, List.map_singleton, shaped.ids found]
    rfl
  | up found' inside further =>
    cases found.symm.trans found'
    rw [inside, List.map_cons, shaped.ids found, Option.elim_some, further.around_eq shaped]

theorem Shaped.root_mem_around (shaped : tree.Shaped) (known : tree.Known id) :
    .root ∈ tree.around id := by
  obtain ⟨m, found⟩ := known.find?
  obtain ⟨ms, -, way⟩ := shaped.ancestors found
  obtain ⟨root, last, isRoot⟩ := Option.map_eq_some_iff.mp (way.getLast? shaped)
  rw [way.around_eq shaped, ← isRoot]
  exact List.mem_map_of_mem (List.mem_of_getLast? last)

/-- What is around a module is there. -/
theorem Valid.known_of_mem_around (valid : tree.Valid) (mem : outer ∈ tree.around id) :
    tree.Known outer := by
  unfold around at mem
  cases around : tree.ancestors id with
  | error fault =>
    rw [around] at mem
    cases mem
  | ok ms =>
    rw [around] at mem
    obtain ⟨m, listed, rfl⟩ := List.mem_map.mp mem
    obtain ⟨m₀, found, -⟩ := ancestors_eq_ok.mp around
    have there := valid.ancestors found
    rw [around] at there
    exact known_of_find? (there.2 m listed)

/-! ## The row of `mod`s -/

/-- A `mod` comes first if the module belongs to one, and then those around its parent. -/
theorem Shaped.mods_cons (shaped : tree.Shaped) (found : tree.find? id = some m) :
    tree.mods defs id =
      (if tree.ofMod defs id then [id] else []) ++ m.parent.elim [] (tree.mods defs) := by
  rw [mods, shaped.around_cons found, List.filter_cons]
  cases m.parent with
  | none => split <;> rfl
  | some parent => split <;> rfl

/-- There is a `mod` around every module. -/
theorem Shaped.exists_mods (shaped : tree.Shaped) (root : tree.ofMod defs .root = true)
    (known : tree.Known id) : ∃ first others, tree.mods defs id = first :: others := by
  have mem : .root ∈ tree.mods defs id :=
    List.mem_filter.mpr ⟨shaped.root_mem_around known, root⟩
  cases row : tree.mods defs id with
  | nil =>
    rw [row] at mem
    cases mem
  | cons first others => exact ⟨first, others, rfl⟩

/-- Around the innermost `mod` there is the same row. -/
theorem Shaped.mods_first (shaped : tree.Shaped) (known : tree.Known id) {first : ModuleId}
    {others : List ModuleId} (row : tree.mods defs id = first :: others) :
    tree.ofMod defs first = true ∧ tree.Known first ∧ tree.mods defs first = first :: others := by
  -- a parent has a smaller id, so the way outward comes to an end
  obtain ⟨index⟩ := id
  induction index using Nat.strongRecOn with
  | _ index ih =>
    obtain ⟨m, found⟩ := known.find?
    have next := row
    rw [shaped.mods_cons found] at next
    by_cases isMod : tree.ofMod defs ⟨index⟩ = true
    · rw [if_pos isMod, List.singleton_append] at next
      cases next
      exact ⟨isMod, known, row⟩
    · rw [if_neg isMod, List.nil_append] at next
      cases inside : m.parent with
      | none =>
        rw [inside] at next
        cases next
      | some parent =>
        rw [inside] at next
        have lt : parent.index < index := shaped.valid.parents found inside
        exact ih parent.index lt (shaped.valid.known_parent found inside) next

/-- The `mod`s behind the first one are those around its parent. -/
theorem Shaped.mods_others (shaped : tree.Shaped) {first : ModuleId} {others : List ModuleId}
    (row : tree.mods defs first = first :: others) (isMod : tree.ofMod defs first = true)
    (found : tree.find? first = some m) : others = m.parent.elim [] (tree.mods defs) := by
  rw [shaped.mods_cons found, if_pos isMod, List.singleton_append] at row
  exact (List.cons.inj row).2.symm

/-! ## Which one comes first -/

theorem isMod_eq (intact : Intact defs tree) (found : tree.find? id = some m) :
    isMod defs m = .ok (tree.ofMod defs id) := by
  unfold isMod ofMod
  rw [found, Option.bind_some]
  cases owner : m.owner with
  | definition owner' =>
    obtain ⟨d, there⟩ := (intact.owners found owner).find?
    show (defs.get owner' >>= fun d => pure (d.kind == .mod)) = _
    rw [Definitions.get_of_find? there]
    show _ = Except.ok ((defs.find? owner').any _)
    rw [there]
    rfl
  | block node => rfl

theorem ofMod_eq_true_iff (intact : Intact defs tree) :
    tree.ofMod defs id = true ↔ ∃ m, tree.find? id = some m ∧ isMod defs m = .ok true := by
  constructor
  · intro ofMod'
    cases found : tree.find? id with
    | none => simp [ofMod, found] at ofMod'
    | some m => exact ⟨m, rfl, by rw [isMod_eq intact found, ofMod']⟩
  · rintro ⟨m, found, tested⟩
    rw [isMod_eq intact found] at tested
    exact Except.ok.inj tested

theorem findM?_isMod_eq (intact : Intact defs tree) (ms : List Module)
    (there : ∀ m ∈ ms, tree.find? m.id = some m) :
    ms.findM? (isMod defs) = .ok (ms.find? fun m => tree.ofMod defs m.id) := by
  induction ms with
  | nil => rfl
  | cons m ms ih =>
    obtain ⟨here, others⟩ := List.forall_mem_cons.mp there
    rw [List.findM?, isMod_eq intact here, List.find?_cons]
    cases tree.ofMod defs m.id with
    | true => rfl
    | false => exact ih others

/-- The innermost `mod` around a module is the first of the row. -/
theorem enclosingMod_of_mods (intact : Intact defs tree) {first : ModuleId}
    {others : List ModuleId} (known : tree.Known id) (row : tree.mods defs id = first :: others) :
    tree.enclosingMod defs id = .ok first := by
  obtain ⟨m, found⟩ := known.find?
  obtain ⟨ms, ancestors, -, there⟩ := Yields.false_iff.mp (intact.validTree.ancestors found)
  have head : (ms.find? fun m => tree.ofMod defs m.id).map (·.id) = some first := by
    have filtered : (tree.mods defs id).head? = some first := by rw [row]; rfl
    rw [mods, around, ancestors, List.head?_filter, List.find?_map] at filtered
    exact filtered
  obtain ⟨m', isFirst, rfl⟩ := Option.map_eq_some_iff.mp head
  refine Except.bind_eq_ok.mpr ⟨ms, ancestors, Except.bind_eq_ok.mpr ⟨some m', ?_, rfl⟩⟩
  rw [findM?_isMod_eq intact ms there, isFirst]

/-! ## Later tables -/

theorem ofMod_grows (intact : Intact defs tree) (grows : tree.Grows tree')
    (keeps : defs.Keeps defs') (known : tree.Known id) :
    tree'.ofMod defs' id = tree.ofMod defs id := by
  obtain ⟨m, found⟩ := known.find?
  obtain ⟨names, found'⟩ := grows.module found
  unfold ofMod
  rw [found, found', Option.bind_some, Option.bind_some]
  cases owner : m.owner with
  | definition owner' =>
    obtain ⟨d, there⟩ := (intact.owners found owner).find?
    show (defs'.find? owner').any _ = (defs.find? owner').any _
    rw [there, keeps.defined there]
  | block node => rfl

/-- Binding names moves no `mod`. -/
theorem Grows.mods (grows : tree.Grows tree') (intact : Intact defs tree)
    (keeps : defs.Keeps defs') (id : ModuleId) : tree'.mods defs' id = tree.mods defs id := by
  unfold ModuleTree.mods
  rw [grows.around]
  apply List.filter_congr
  intro other mem
  exact ofMod_grows intact grows keeps (intact.validTree.known_of_mem_around mem)

end ModuleTree

end NameResolution
