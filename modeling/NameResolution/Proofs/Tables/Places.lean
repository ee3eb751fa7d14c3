import NameResolution.Proofs.Tables.Aliases
import NameResolution.Proofs.Tables.Modules
import Mathlib.Data.List.Forall2

/-! # Where modules stand

    Binding names moves no module. So whatever is read off the places of the
    modules and off what they belong to is read off any later tables as well. -/

namespace NameResolution

variable {tree tree' : ModuleTree} {defs defs' : Definitions}

/-- The same module with other names. -/
def Module.SamePlace (m m' : Module) : Prop := ∃ names, m' = { m with names }

theorem map_id_of_samePlace {ms ms' : List Module} (same : List.Forall₂ Module.SamePlace ms ms') :
    ms'.map (·.id) = ms.map (·.id) := by
  induction same with
  | nil => rfl
  | cons first _ ih =>
    obtain ⟨names, rfl⟩ := first
    rw [List.map_cons, List.map_cons, ih]

/-- A module and those around it, innermost first. -/
def ModuleTree.around (tree : ModuleTree) (id : ModuleId) : List ModuleId :=
  match tree.ancestors id with
  | .ok ms => ms.map (·.id)
  | .error _ => []

namespace ModuleTree.Grows

theorem outward (h : tree.Grows tree') (steps : Nat) {m m' : Module} (same : m.SamePlace m') :
    List.Forall₂ Module.SamePlace (tree.outward steps m) (tree'.outward steps m') := by
  -- the way outward only looks at parents, which are as they were
  induction steps generalizing m m' with
  | zero => exact .cons same .nil
  | succ steps ih =>
    obtain ⟨names, rfl⟩ := same
    refine .cons ⟨names, rfl⟩ ?_
    cases inside : m.parent with
    | none => exact .nil
    | some parent =>
      rw [Option.bind_some, Option.bind_some]
      cases found : tree.find? parent with
      | some around =>
        obtain ⟨names', found'⟩ := h.module found
        rw [found']
        exact ih ⟨names', rfl⟩
      | none =>
        cases found' : tree'.find? parent with
        | none => exact .nil
        | some around' =>
          obtain ⟨_, _, found'', -⟩ := h.module_of found'
          rw [found] at found''
          cases found''

theorem ancestors (h : tree.Grows tree') {id : ModuleId} {ms : List Module}
    (around : tree.ancestors id = .ok ms) :
    ∃ ms', tree'.ancestors id = .ok ms' ∧ List.Forall₂ Module.SamePlace ms ms' := by
  rw [ModuleTree.ancestors] at around ⊢
  cases found : tree.find? id with
  | none =>
    rw [get, found] at around
    cases around
  | some m =>
    obtain ⟨names, found'⟩ := h.module found
    rw [get_of_find? found] at around
    rw [get_of_find? found', h.size]
    cases around
    exact ⟨_, rfl, h.outward _ ⟨names, rfl⟩⟩

/-- A module and those around it are the same ones. -/
theorem around (h : tree.Grows tree') (id : ModuleId) : tree'.around id = tree.around id := by
  unfold ModuleTree.around
  cases around : tree.ancestors id with
  | ok ms =>
    obtain ⟨ms', around', same⟩ := h.ancestors around
    rw [around']
    exact map_id_of_samePlace same
  | error fault =>
    -- a module that is not there is not there later either
    cases around' : tree'.ancestors id with
    | error fault' => rfl
    | ok ms' =>
      obtain ⟨m', found', -⟩ := ModuleTree.ancestors_eq_ok.mp around'
      obtain ⟨m, _, found, -⟩ := h.module_of found'
      rw [ModuleTree.ancestors, get_of_find? found] at around
      cases around

theorem isWithin (h : tree.Grows tree') {inner outer : ModuleId} {inside : Bool}
    (within : tree.isWithin inner outer = .ok inside) :
    tree'.isWithin inner outer = .ok inside := by
  obtain ⟨ms, around, eq⟩ := Except.bind_eq_ok.mp within
  obtain ⟨ms', around', same⟩ := h.ancestors around
  refine Except.bind_eq_ok.mpr ⟨ms', around', ?_⟩
  -- whether the outer one is among them is a matter of their ids
  have ids (ms : List Module) : ms.any (·.id == outer) = (ms.map (·.id)).any (· == outer) := by
    rw [List.any_map]
    rfl
  rw [← eq, ids, ids, map_id_of_samePlace same]

end ModuleTree.Grows

namespace Definitions.Keeps

theorem get (h : defs.Keeps defs') {id : DefId} {d : Definition} (got : defs.get id = .ok d) :
    defs'.get id = .ok d := get_of_find? (h.defined (find?_of_get got))

theorem isPub (h : defs.Keeps defs') {id : DefId} {pub : Bool} (got : defs.isPub id = .ok pub) :
    defs'.isPub id = .ok pub := by
  obtain ⟨d, first, eq⟩ := Except.bind_eq_ok.mp got
  exact Except.bind_eq_ok.mpr ⟨d, h.get first, eq⟩

/-- Nor was it another one before. -/
theorem isPub_of_known (h : defs.Keeps defs') {id : DefId} {pub : Bool} (known : defs.Known id)
    (got : defs'.isPub id = .ok pub) : defs.isPub id = .ok pub := by
  obtain ⟨before, gotBefore, -⟩ := Yields.false_iff.mp known.isPub
  rw [h.isPub gotBefore] at got
  rw [gotBefore, got]

/-- A module is called after its owner, who has the same name. -/
theorem moduleName (h : defs.Keeps defs') {m m' : Module} (same : m.SamePlace m') {name : String}
    (named : m.name defs = .ok name) : m'.name defs' = .ok name := by
  obtain ⟨names, rfl⟩ := same
  unfold Module.name at named ⊢
  split at named
  · next id owned =>
    obtain ⟨d, first, eq⟩ := Except.bind_eq_ok.mp named
    rw [owned]
    exact Except.bind_eq_ok.mpr ⟨d, h.get first, eq⟩
  · next node owned =>
    rw [owned]
    exact named

theorem isMod (h : defs.Keeps defs') {m m' : Module} (same : m.SamePlace m') {isMod : Bool}
    (got : ModuleTree.isMod defs m = .ok isMod) : ModuleTree.isMod defs' m' = .ok isMod := by
  obtain ⟨names, rfl⟩ := same
  unfold ModuleTree.isMod at got ⊢
  split at got
  · next id owned =>
    obtain ⟨d, first, eq⟩ := Except.bind_eq_ok.mp got
    rw [owned]
    exact Except.bind_eq_ok.mpr ⟨d, h.get first, eq⟩
  · next node owned =>
    rw [owned]
    exact got

/-- The first module of a kind stands where it stood. -/
theorem findM?_isMod (h : defs.Keeps defs') {ms ms' : List Module}
    (same : List.Forall₂ Module.SamePlace ms ms') {found : Option Module}
    (got : ms.findM? (ModuleTree.isMod defs) = .ok found) :
    ∃ found', ms'.findM? (ModuleTree.isMod defs') = .ok found' ∧
      found'.map (·.id) = found.map (·.id) := by
  induction same with
  | nil =>
    cases got
    exact ⟨none, rfl, rfl⟩
  | @cons m m' _ _ first _ ih =>
    obtain ⟨isMod, tested, rest⟩ := Except.bind_eq_ok.mp got
    have tested' := h.isMod first tested
    cases isMod with
    | true =>
      cases rest
      obtain ⟨names, rfl⟩ := first
      exact ⟨_, Except.bind_eq_ok.mpr ⟨true, tested', rfl⟩, rfl⟩
    | false =>
      obtain ⟨found', later, ids⟩ := ih rest
      exact ⟨found', Except.bind_eq_ok.mpr ⟨false, tested', later⟩, ids⟩

end Definitions.Keeps

theorem ModuleTree.Grows.enclosingMod (h : tree.Grows tree') (keeps : defs.Keeps defs')
    {id current : ModuleId} (got : tree.enclosingMod defs id = .ok current) :
    tree'.enclosingMod defs' id = .ok current := by
  obtain ⟨ms, around, rest⟩ := Except.bind_eq_ok.mp got
  obtain ⟨found, first, eq⟩ := Except.bind_eq_ok.mp rest
  obtain ⟨ms', around', same⟩ := h.ancestors around
  obtain ⟨found', first', ids⟩ := keeps.findM?_isMod same first
  refine Except.bind_eq_ok.mpr ⟨ms', around', Except.bind_eq_ok.mpr ⟨found', first', ?_⟩⟩
  rw [← eq]
  cases found with
  | none =>
    cases found' with
    | none => rfl
    | some _ => cases ids
  | some m =>
    cases found' with
    | none => cases ids
    | some m' => exact congrArg Except.ok (Option.some.inj ids)

end NameResolution
