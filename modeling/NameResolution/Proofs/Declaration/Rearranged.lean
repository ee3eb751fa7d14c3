import NameResolution.Proofs.Declaration.Clashes
import NameResolution.Proofs.Text.Rearranged
import Mathlib.Data.List.Nodup

/-! # The tables of a rearranged program

    After the first pass the tables are a picture of the program. If its items
    are rearranged the picture has the same parts in other places, and as long as
    no names clash the names stand for the same parts. So the tables of both
    programs mirror each other. -/

namespace NameResolution

variable {program : Program} {built built' : DeclareState} {log log' : Log}

/-! ## The picture of a program -/

/-- What the tables hold once the first pass has gone through a program. -/
structure Program.Pictured (program : Program) (built : DeclareState) : Prop where
  intact : Intact built.defs built.tree
  filed : program.FiledIn built.defs built.tree
  owned : Owned built.defs built.tree
  standsFor : ∀ module ns name,
    StandsFor built.defs (declaredAt built.defs program.declarations module ns name)
      (built.tree.bindingAt? module ns name)
  reports : Reports built.defs program.declarations built.diagnostics

theorem declareProgram_pictured
    (declared : declareProgram .empty .new program log = .ok built log') :
    program.Pictured built := by
  have outcome := declareProgram_outcome declared
  have files : Declaring.Files _ _ (Declaring.atRoot program) built :=
    outcome.files (Declaring.standing_atRoot program)
  have tally : Declaring.Tally _ program.declarations built :=
    outcome.tally (Declaring.tally_atRoot program)
  exact ⟨(declareProgram_passes declared).2.sound.intact, files.filedIn,
    declareProgram_owned declared, tally.standsFor, tally.reports⟩

namespace Program.FiledIn

variable {defs : Definitions} {tree : ModuleTree}

/-- A definition is that of an entry. -/
theorem exists_entry (h : program.FiledIn defs tree) {id : DefId} {d : Definition}
    (found : defs.find? id = some d) :
    ∃ entry, program.entries[id.index]? = some entry ∧ d = entry.definition id.index := by
  have listed : defs.toList[id.index]? = some d := by
    rw [Definitions.toList, Array.getElem?_toList]
    exact found
  rw [h.definitions, List.getElem?_mapIdx] at listed
  obtain ⟨entry, at_id, rfl⟩ := Option.map_eq_some_iff.mp listed
  exact ⟨entry, at_id, rfl⟩

theorem plain (h : program.FiledIn defs tree) : defs.Plain where
  ofNode? found := by
    obtain ⟨entry, at_id, rfl⟩ := h.exists_entry found
    exact h.ofNode? _ entry at_id
  target found := by
    obtain ⟨entry, -, rfl⟩ := h.exists_entry found
    rfl

/-- The nodes with a definition are those of the entries. -/
theorem isSome_ofNode?_iff (h : program.FiledIn defs tree) (valid : defs.Valid) (node : NodeId) :
    (defs.ofNode? node).isSome ↔ node ∈ program.entries.map (·.node) := by
  constructor
  · intro there
    obtain ⟨id, ofNode⟩ := Option.isSome_iff_exists.mp there
    obtain ⟨d, found, rfl⟩ := valid.nodes ofNode
    obtain ⟨entry, at_id, rfl⟩ := h.exists_entry found
    exact List.mem_map.mpr ⟨entry, List.mem_of_getElem? at_id, rfl⟩
  · intro mem
    obtain ⟨entry, listed, rfl⟩ := List.mem_map.mp mem
    obtain ⟨i, at_i⟩ := List.mem_iff_getElem?.mp listed
    rw [h.ofNode? i entry at_i]
    rfl

end Program.FiledIn

namespace Program.Pictured

theorem separate (h : program.Pictured built) : built.defs.Separate :=
  h.owned.separate h.intact.validDefs

theorem ofNode?_root (h : program.Pictured built) :
    built.defs.ofNode? program.id = some .root :=
  h.filed.ofNode? 0 program.entry (by rw [program.entries_eq]; rfl)

/-- A module is that of the program, or the one of a site. -/
theorem root_or_hosts (h : program.Pictured built) {owner : RegionOwner} {id : ModuleId}
    (held : built.defs.moduleOf owner = some id) :
    (owner = .item program.id ∧ id = .root) ∨
      ∃ site ∈ program.sites, site.owner = owner ∧ Hosts built.defs built.tree site id := by
  have known : id.index < built.tree.size := by
    cases owner with
    | none => cases held
    | item node =>
      obtain ⟨_, -, held⟩ := Option.bind_eq_some_iff.mp held
      exact h.intact.modules held
    | block node => exact h.intact.blocks held
  obtain ⟨index⟩ := id
  cases index with
  | zero => exact .inl ⟨h.separate held h.filed.root.1, rfl⟩
  | succ i =>
    have lt : i < program.sites.length := by
      have size := h.filed.modules
      have known : i + 1 < built.tree.size := known
      omega
    have hosts := h.filed.hosts i program.sites[i] (List.getElem?_eq_getElem lt)
    exact .inr ⟨_, List.getElem_mem lt, h.separate hosts.moduleOf held, hosts⟩

/-- The owners with a module are the program and those of the sites. -/
theorem isSome_moduleOf_iff (h : program.Pictured built) (owner : RegionOwner) :
    (built.defs.moduleOf owner).isSome ↔
      owner = .item program.id ∨ owner ∈ program.sites.map (·.owner) := by
  constructor
  · intro there
    obtain ⟨id, held⟩ := Option.isSome_iff_exists.mp there
    rcases h.root_or_hosts held with ⟨rfl, -⟩ | ⟨site, mem, rfl, -⟩
    · exact .inl rfl
    · exact .inr (List.mem_map_of_mem mem)
  · rintro (rfl | mem)
    · rw [h.filed.root.1]
      rfl
    · obtain ⟨site, listed, rfl⟩ := List.mem_map.mp mem
      obtain ⟨i, at_i⟩ := List.mem_iff_getElem?.mp listed
      rw [(h.filed.hosts i site at_i).moduleOf]
      rfl

end Program.Pictured

/-! ## Programs without imports -/

/-- Whether a piece is a `use` item. -/
def Piece.isUse : Piece → Bool
  | .item (.useDecl _ _) => true
  | _ => false

/-- No item anywhere in a program is a `use` item. -/
def Program.UseFree (program : Program) : Prop := ∀ p ∈ program.pieces, p.2.isUse = false

theorem Piece.forall_within_nil {holds : RegionOwner × Piece → Prop} {home : RegionOwner} :
    (∀ p ∈ ([] : List Piece).flatMap (fun part => part.within home), holds p) ↔ True := by
  simp

/-- What is to be checked of a piece and all that is in it, spelled out a piece at a time. -/
theorem Piece.forall_within_cons {holds : RegionOwner × Piece → Prop} {home : RegionOwner}
    {piece : Piece} {rest : List Piece} :
    (∀ p ∈ (piece :: rest).flatMap (fun part => part.within home), holds p) ↔
      holds (home, piece) ∧
        (∀ p ∈ piece.children.flatMap (fun part => part.within (piece.owner?.getD home)),
          holds p) ∧
        ∀ p ∈ rest.flatMap (fun part => part.within home), holds p := by
  rw [List.flatMap_cons, List.forall_mem_append, within_eq, List.forall_mem_cons, and_assoc]

theorem Outline.imports_append (first second : Outline) :
    imports (first ++ second) = imports first ++ imports second := List.filterMap_append

theorem Outline.imports_flatMap {α : Type} (parts : List α) (f : α → Outline) :
    imports (parts.flatMap f) = parts.flatMap fun part => imports (f part) :=
  List.filterMap_flatMap

/-- Only a `use` item makes imports itself. -/
theorem Piece.imports_opening {piece : Piece} (other : piece.isUse = false) :
    piece.opening.imports = [] := by
  cases piece with
  | block block =>
    obtain ⟨id, stmts⟩ := block
    unfold opening
    dsimp only
    split <;> rfl
  | genericParam param => cases param <;> rfl
  | variant variant =>
    obtain ⟨id, name, types⟩ := variant
    rfl
  | item item =>
    cases item with
    | useDecl head tree => cases other
    | func head kind name generics params ret body =>
      unfold opening
      dsimp only
      split <;> rfl
    | const | enum | impl | mod | struct | trait | typeAlias => rfl
  | genericArg | ty | expr | arg | fieldInit | arm | param | stmt | pat | fieldPat => rfl

theorem Piece.imports_outline (piece : Piece) (home : RegionOwner)
    (free : ∀ p ∈ piece.within home, p.2.isUse = false) : piece.outline.imports = [] := by
  induction piece using Piece.induct generalizing home with
  | step piece ih =>
    rw [within_eq, List.forall_mem_cons] at free
    obtain ⟨here, inside⟩ := free
    have parts : piece.children.flatMap (fun part => part.outline.imports) = [] := by
      refine List.flatMap_eq_nil_iff.mpr fun part mem => ?_
      refine ih part mem (piece.owner?.getD home) fun p within => ?_
      exact inside p (List.mem_flatMap.mpr ⟨part, mem, within⟩)
    have closing : piece.closing.imports = [] := by
      unfold Piece.closing
      split <;> rfl
    rw [outline_eq, Outline.imports_append, Outline.imports_append, Outline.imports_flatMap, parts,
      imports_opening here, closing]
    rfl

/-- Without `use` items there is nothing to import. -/
theorem Program.UseFree.imports (free : program.UseFree) :
    (Outline.ofProgram program).imports = [] := by
  rw [Program.ofProgram_eq, Outline.imports_flatMap]
  refine List.flatMap_eq_nil_iff.mpr fun item mem => ?_
  refine (Piece.item item).imports_outline (.item program.id) fun p within => ?_
  exact free p (List.mem_flatMap.mpr ⟨item, mem, within⟩)

/-- Where an outline has no imports, none are put aside. -/
theorem declareProgram_directives
    (declared : declareProgram .empty .new program log = .ok built log')
    (none : (Outline.ofProgram program).imports = []) : built.directives = [] := by
  have collects : Declaring.Collects (Outline.ofProgram program).imports
      (Declaring.atRoot program) built := (declareProgram_outcome declared).collects
  have empty := collects.directives
  rw [none, List.append_nil] at empty
  exact List.map_eq_nil_iff.mp empty

/-! ## Two pictures of the same parts -/

theorem Outline.declarations_eq_filterMap (homes : List RegionOwner) (outline : Outline) :
    outline.declarations homes =
      (outline.placed homes).filterMap fun p => p.2.declaration? p.1 := by
  induction outline generalizing homes with
  | nil => rfl
  | cons step outline ih =>
    rw [declarations, placed, List.filterMap_cons, ih]
    cases step.declaration? (homes.headD .none) <;> rfl

theorem Arrangement.perm_declarations (a : Arrangement) (program : Program) :
    (a.ofProgram program).declarations.Perm program.declarations := by
  rw [Program.declarations, Program.declarations, Outline.declarations_eq_filterMap,
    Outline.declarations_eq_filterMap]
  exact (a.placed_program program _).filterMap _

theorem Arrangement.perm_imports (a : Arrangement) (program : Program) :
    (Outline.ofProgram (a.ofProgram program)).imports.Perm (Outline.ofProgram program).imports :=
  (a.perm_outline program).filterMap _

section

variable {a : Arrangement} (pictured : program.Pictured built)
  (pictured' : (a.ofProgram program).Pictured built')

include pictured pictured'

/-- Nothing is reported about a rearranged program if nothing is about the program. -/
theorem Program.Pictured.diagnostics_eq_nil (silent : built.diagnostics = []) :
    built'.diagnostics = [] := by
  have reports := pictured.reports
  rw [silent] at reports
  exact reports.eq_nil_of_perm pictured'.reports pictured.separate pictured'.separate
    (a.perm_declarations program)

/-- Definitions made at one node are of one kind. -/
theorem Program.Pictured.kind_eq {id id' : DefId} {d d' : Definition}
    (found : built.defs.find? id = some d) (found' : built'.defs.find? id' = some d')
    (same : d.node = d'.node) : d.kind = d'.kind := by
  obtain ⟨entry, at_id, rfl⟩ := pictured.filed.exists_entry found
  obtain ⟨entry', at_id', rfl⟩ := pictured'.filed.exists_entry found'
  have mem' : entry' ∈ program.entries :=
    (a.perm_entries program).subset (List.mem_of_getElem? at_id')
  have eq : entry = entry' := List.inj_on_of_nodup_map pictured.filed.nodup_nodes
    (List.mem_of_getElem? at_id) mem' same
  exact congrArg Entry.kind eq

theorem Program.Pictured.rel_ofNode? (node : NodeId) :
    Option.Rel (built.defs.Twins built'.defs) (built.defs.ofNode? node)
      (built'.defs.ofNode? node) := by
  have valid := pictured.intact.validDefs
  have valid' := pictured'.intact.validDefs
  have isSome_iff : (built'.defs.ofNode? node).isSome ↔ (built.defs.ofNode? node).isSome := by
    rw [pictured.filed.isSome_ofNode?_iff valid, pictured'.filed.isSome_ofNode?_iff valid',
      ((a.perm_entries program).map _).mem_iff]
  refine rel_of_forall (fun id ofNode => ?_) fun id' ofNode' => isSome_iff.mp (by rw [ofNode']; rfl)
  obtain ⟨id', ofNode'⟩ := Option.isSome_iff_exists.mp (isSome_iff.mpr (by rw [ofNode]; rfl))
  obtain ⟨d, found, isHere⟩ := valid.nodes ofNode
  obtain ⟨d', found', isHere'⟩ := valid'.nodes ofNode'
  exact ⟨id', ofNode', d, d', found, found', isHere.trans isHere'.symm⟩

theorem Program.Pictured.rel_moduleOf (owner : RegionOwner) :
    Option.Rel (built.defs.SameModule built'.defs) (built.defs.moduleOf owner)
      (built'.defs.moduleOf owner) := by
  have isSome_iff :
      (built'.defs.moduleOf owner).isSome ↔ (built.defs.moduleOf owner).isSome := by
    rw [pictured.isSome_moduleOf_iff, pictured'.isSome_moduleOf_iff,
      ((a.perm_sites program).map _).mem_iff]
    rfl
  refine rel_of_forall (fun id held => ?_) fun id' held' => isSome_iff.mp (by rw [held']; rfl)
  obtain ⟨id', held'⟩ := Option.isSome_iff_exists.mp (isSome_iff.mpr (by rw [held]; rfl))
  exact ⟨id', held', owner, held, held'⟩

/-- Whoever owns the module of an owner owns it in both pictures. -/
theorem Program.Pictured.mirrored_ownerOf {owner : RegionOwner} {o o' : ModuleOwner}
    (owned : built.defs.ownerOf owner = some o) (owned' : built'.defs.ownerOf owner = some o') :
    o.Mirrored built.defs built'.defs o' := by
  cases owner with
  | none => cases owned
  | item node =>
    obtain ⟨id, ofNode, rfl⟩ := Option.map_eq_some_iff.mp owned
    obtain ⟨id', ofNode', rfl⟩ := Option.map_eq_some_iff.mp owned'
    have rel := pictured.rel_ofNode? pictured' node
    rw [ofNode, ofNode'] at rel
    cases rel with
    | some twins => exact .definition twins
  | block node =>
    cases owned
    cases owned'
    exact .block node

theorem Program.Pictured.twins_root : built.defs.Twins built'.defs .root .root := by
  have rel := pictured.rel_ofNode? pictured' program.id
  rw [pictured.ofNode?_root, show built'.defs.ofNode? program.id = some .root from
    pictured'.ofNode?_root] at rel
  cases rel with
  | some twins => exact twins

/-- The modules of one owner are alike, as long as no names clash. -/
theorem Program.Pictured.exists_mirrored (silent : built.diagnostics = []) {id id' : ModuleId}
    (same : built.defs.SameModule built'.defs id id') :
    ∃ m m', built.tree.find? id = some m ∧ built'.tree.find? id' = some m' ∧
      m.Mirrored built.defs built'.defs m' := by
  have reports := pictured.reports
  rw [silent] at reports
  have free := (reports.eq_nil_iff pictured.separate).mp rfl
  -- names stand for the same in both, whatever the modules are
  have names {m m' : Module} (found : built.tree.find? id = some m)
      (found' : built'.tree.find? id' = some m') (ns : Namespace) (name : String) :
      Option.Rel (Binding.Mirrored built.defs built'.defs) (m.find? ns name)
        (m'.find? ns name) := by
    rw [← ModuleTree.bindingAt?_of_find? found, ← ModuleTree.bindingAt?_of_find? found']
    exact (pictured.standsFor id ns name).mirrored (pictured'.standsFor id' ns name)
      (perm_declaredAt (a.perm_declarations program) pictured.separate pictured'.separate same
        ns name) (apart_of_clashFree free pictured.separate)
  obtain ⟨owner, held, held'⟩ := same
  rcases pictured.root_or_hosts held with ⟨rfl, rfl⟩ | ⟨site, mem, rfl, hosts⟩
  · obtain ⟨home, m, found, owned, alone⟩ := pictured.filed.root
    obtain ⟨home', m', found', owned', alone'⟩ := pictured'.filed.root
    cases held'.symm.trans home'
    refine ⟨m, m', found, found', ?_, ?_, names found found'⟩
    · rw [owned, owned']
      exact .definition (pictured.twins_root pictured')
    · rw [alone, alone']
      exact .none
  · -- the site is one of the rearranged program as well
    obtain ⟨i, at_i⟩ := List.mem_iff_getElem?.mp ((a.perm_sites program).symm.subset mem)
    have hosts' := pictured'.filed.hosts i site at_i
    cases held'.symm.trans hosts'.moduleOf
    obtain ⟨m, parent, found, owned, inside, home⟩ := hosts.inTree
    obtain ⟨m', parent', found', owned', inside', home'⟩ := hosts'.inTree
    refine ⟨m, m', found, found', pictured.mirrored_ownerOf pictured' owned owned', ?_,
      names found found'⟩
    rw [inside, inside']
    exact .some ⟨site.home, home, home'⟩

/-- The tables of a program and those of a rearrangement of it mirror each other if nothing has
    been reported. -/
theorem Program.Pictured.mirror (silent : built.diagnostics = []) :
    Mirror built.defs built.tree built'.defs built'.tree where
  intact := pictured.intact
  intact' := pictured'.intact
  plain := pictured.filed.plain
  plain' := pictured'.filed.plain
  kind := pictured.kind_eq pictured'
  ofNode? := pictured.rel_ofNode? pictured'
  moduleOf := pictured.rel_moduleOf pictured'
  modules := pictured.exists_mirrored pictured' silent
  size := by
    rw [pictured.filed.modules, pictured'.filed.modules, (a.perm_sites program).length_eq]
  root := pictured.twins_root pictured'
  rootModule := ⟨_, pictured.filed.root.1, pictured'.filed.root.1⟩

end

end NameResolution
