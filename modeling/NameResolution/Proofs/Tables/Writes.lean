import NameResolution.Proofs.Tables.Sorts

/-! # Writes

    What operations on the tables come to, entry by entry. An entry is written
    only where there has been none. So whatever is to hold of the tables at all
    times is shown of a single write, and nothing is asked of the operations but
    that they go through. -/

namespace NameResolution

/-- One entry is written into the tables, in a place that has been free. -/
inductive TableWrite : Definitions × ModuleTree → Definitions × ModuleTree → Prop where
  | definition {defs : Definitions} {tree : ModuleTree} {isPub : Bool} {node : NodeId}
      {kind : DefKind} {ident : Ident} (notAlias : kind ≠ .importAlias)
      (free : defs.ofNode? node = none) :
      TableWrite (defs, tree) (defs.declared isPub node kind ident, tree)
  | importAlias {defs : Definitions} {tree : ModuleTree} {isPub : Bool} {node : NodeId}
      {ident : Ident} {target : DefId} (known : defs.Known target) :
      TableWrite (defs, tree) (defs.push isPub node .importAlias ident (some target), tree)
  | overloads {defs : Definitions} {tree : ModuleTree} :
      TableWrite (defs, tree) (defs.newOverloads.2, tree)
  | member {defs : Definitions} {tree : ModuleTree} {into : OverloadId} {set : OverloadSet}
      {suffix : String} {id : DefId} (known : defs.Known id)
      (held : defs.overloads[into.index]? = some set) (free : set.get? suffix = none) :
      TableWrite (defs, tree) (defs.insertOverload into suffix id, tree)
  | moduleOf {defs : Definitions} {tree : ModuleTree} {id : DefId} {module : ModuleId}
      (free : defs.module? id = none) : TableWrite (defs, tree) (defs.withModule id module, tree)
  | moduleOfBlock {defs : Definitions} {tree : ModuleTree} {node : NodeId} {module : ModuleId}
      (free : defs.blockModule? node = none) :
      TableWrite (defs, tree) (defs.withBlock node module, tree)
  | module {defs : Definitions} {tree : ModuleTree} {parent : Module} {owner : ModuleOwner} :
      TableWrite (defs, tree) (defs, tree.push parent owner)
  | child {defs : Definitions} {tree : ModuleTree} {parent child : ModuleId} {m : Module}
      {name : String} (found : tree.find? parent = some m) (free : m.child? name = none) :
      TableWrite (defs, tree)
        (defs, tree.modify parent fun m => { m with named := m.named.insert name child })
  | anonymousChild {defs : Definitions} {tree : ModuleTree} {parent child : ModuleId} {m : Module}
      {node : NodeId} (found : tree.find? parent = some m) (free : m.anonymousChild? node = none) :
      TableWrite (defs, tree)
        (defs, tree.modify parent fun m => { m with anonymous := m.anonymous.insert node child })
  | name {defs : Definitions} {tree : ModuleTree} {module : ModuleId} {m : Module}
      {ns : Namespace} {name : String} {binding : Binding} (found : tree.find? module = some m)
      (free : m.find? ns name = none) :
      TableWrite (defs, tree) (defs, tree.modify module (·.bind ns name binding))

/-- Entries are written one after another. -/
def TableWrites : Definitions × ModuleTree → Definitions × ModuleTree → Prop :=
  Relation.ReflTransGen TableWrite

namespace TableWrites

variable {tables tables' tables'' : Definitions × ModuleTree}

theorem refl (tables : Definitions × ModuleTree) : TableWrites tables tables :=
  Relation.ReflTransGen.refl

theorem single (h : TableWrite tables tables') : TableWrites tables tables' :=
  Relation.ReflTransGen.single h

theorem trans (h : TableWrites tables tables') (h' : TableWrites tables' tables'') :
    TableWrites tables tables'' :=
  Relation.ReflTransGen.trans h h'

end TableWrites

/-! ## Definitions -/

section

variable {defs : Definitions} {tree : ModuleTree}

theorem writes_overloadsOrNew (set : Option OverloadId) :
    TableWrites (defs, tree) ((defs.overloadsOrNew set).2, tree) := by
  cases set with
  | none => exact .single .overloads
  | some id => exact .refl _

/-- A function that is taken over is an alias first, and then has its suffix. -/
theorem Definitions.JoinOutcome.writes {isPub : Bool} {node : NodeId} {into : OverloadId}
    {members taken : List (String × DefId)} {defs' : Definitions}
    (outcome : JoinOutcome isPub node into defs members taken defs') :
    TableWrites (defs, tree) (defs', tree) := by
  induction outcome with
  | nil => exact .refl _
  | stays _ _ ih => exact ih
  | @joins defs _ _ _ target d _ _ held free found _ ih =>
    have known : defs.Known target := known_of_find? found
    have made : (defs.push isPub node .importAlias d.ident (some target)).Known defs.nextId :=
      known_nextId_push ..
    exact .trans (.single (.importAlias known)) (.trans (.single (.member made held free)) ih)

theorem writes_importOverloads {isPub : Bool} {node : NodeId} {source into : OverloadId}
    {target : Option OverloadId} {publicOnly : Bool} {taken : List (String × DefId)}
    {defs' : Definitions}
    (made : defs.importOverloads isPub node source target publicOnly = .ok (into, taken, defs')) :
    TableWrites (defs, tree) (defs', tree) := by
  obtain ⟨-, outcome⟩ := Definitions.importOverloads_outcome made
  have opened : TableWrites (defs, tree) ((defs.overloadsOrNew target).2, tree) :=
    writes_overloadsOrNew target
  cases outcome with
  | itself _ => exact opened
  | joined _ _ _ outcome => exact opened.trans outcome.writes

/-- Only what is known is added to a set. -/
theorem writes_addFunction {id : DefId} {set : Option OverloadId} {suffix : String} :
    Yields True (defs.addFunction id set suffix) fun r => TableWrites (defs, tree) (r.2, tree) := by
  apply Yields.true_iff.mpr
  intro r made
  obtain ⟨d, got, -⟩ := Except.bind_eq_ok.mp made
  have known := Definitions.known_of_find? (Definitions.find?_of_get got)
  obtain ⟨members, held, outcome⟩ := Yields.true_iff.mp Definitions.addFunction_eq r made
  split at outcome
  · rw [outcome]
    exact writes_overloadsOrNew set
  · next free =>
    rw [outcome]
    have known' := (Definitions.keeps_overloadsOrNew set).known known
    exact (writes_overloadsOrNew set).trans (.single (.member known' held free))

end

/-! ## Modules -/

/-- A module is there before its parent knows it as a child. -/
theorem find?_parent_push {tree : ModuleTree} {parent : ModuleId} {m : Module}
    (found : tree.find? parent = some m) (owner : ModuleOwner) :
    (tree.push m owner).find? parent = some m :=
  (ModuleTree.find?_push_of_known (ModuleTree.known_of_find? found) m owner).trans found

/-! ## Operations -/

/-- Every operation only writes where there has been nothing. -/
theorem TableOperation.writes {tables tables' : Definitions × ModuleTree}
    (h : TableOperation tables tables') : TableWrites tables tables' := by
  cases h with
  | @define defs _ _ isPub node kind ident _ made =>
    obtain ⟨notAlias, free, eq⟩ := Definitions.define_eq_ok.mp made
    cases eq
    exact .single (.definition notAlias free)
  | defineAlias made =>
    obtain ⟨known, eq⟩ := Definitions.defineAlias_eq_ok.mp made
    cases eq
    exact .single (.importAlias known)
  | addFunction made => exact Yields.true_iff.mp writes_addFunction _ made
  | importOverloads made => exact writes_importOverloads made
  | addModule made =>
    obtain ⟨free, rfl⟩ := Definitions.addModule_eq_ok.mp made
    exact .single (.moduleOf free)
  | addBlock made =>
    obtain ⟨free, rfl⟩ := Definitions.addBlock_eq_ok.mp made
    exact .single (.moduleOfBlock free)
  | addNamed made =>
    obtain ⟨m, found, free, eq⟩ := ModuleTree.addNamed_eq_ok.mp made
    cases eq
    exact .trans (.single .module) (.single (.child (find?_parent_push found _) free))
  | addAnonymous made =>
    obtain ⟨m, found, free, eq⟩ := ModuleTree.addAnonymous_eq_ok.mp made
    cases eq
    exact .trans (.single .module) (.single (.anonymousChild (find?_parent_push found _) free))
  | bind made =>
    obtain ⟨m, found, -, free, rfl⟩ := ModuleTree.bind_eq_bound.mp made
    exact .single (.name found free)

end NameResolution
