import NameResolution.Proofs.Import.State
import NameResolution.Proofs.Tables.Overloads
import NameResolution.Proofs.Tables.Places

/-! # What an import finds

    The path of an import is followed in the middle of other imports. What has
    been found on its way is there at that moment. What has been missed may come
    later, but only by a glob: whoever else binds the name there has come to its
    end. So it is said of one state what an import finds, and it holds of all
    later ones as well. -/

namespace NameResolution

variable {n : Nat}

/-! ## Who may still bind a name -/

/-- A directive that has come to its end. -/
def ImportState.Finished (s : ImportState n) (i : Fin n) : Prop :=
  s.statusOf i ≠ .pending ∧ s.statusOf i ≠ .inProgress

theorem ImportState.finished_withStatus {s : ImportState n} {i : Fin n} {status : ImportStatus}
    (opened : status ≠ .pending) (closed : status ≠ .inProgress) :
    (s.withStatus i status).Finished i := by
  unfold ImportState.Finished
  rw [ImportState.statusOf_withStatus_self]
  exact ⟨opened, closed⟩

/-- What an import has made at its node: an alias, or a set of functions that has one from there. -/
def Binding.MadeAt (defs : Definitions) (node : NodeId) : Binding → Prop
  | .definition _ => False
  | .imported id => ∃ target, defs.AliasAt node id target
  | .overloads set => ∃ suffix id target, defs.member? set suffix = some id ∧
      defs.AliasAt node id target

instance (defs : Definitions) (node : NodeId) (binding : Binding) :
    Decidable (binding.MadeAt defs node) :=
  match binding with
  | .definition _ => .isFalse id
  | .imported _ => decidable_of_iff _ Definitions.exists_aliasAt_iff.symm
  | .overloads set => decidable_of_iff
    ((defs.overloads[set.index]?).any (fun members => members.toList.any fun member =>
      (defs.find? member.2).any fun d => d.node == node && d.target.isSome) = true)
    (by
      rw [Option.any_eq_true]
      simp only [List.any_eq_true, ← Definitions.exists_aliasAt_iff]
      constructor
      · rintro ⟨members, held, ⟨suffix, id⟩, mem, target, made⟩
        exact ⟨suffix, id, target, Definitions.member?_eq_some.mpr
          ⟨members, held, OverloadSet.mem_toList.mp mem⟩, made⟩
      · rintro ⟨suffix, id, target, mem, made⟩
        obtain ⟨members, held, mem⟩ := Definitions.member?_eq_some.mp mem
        exact ⟨members, held, ⟨suffix, id⟩, OverloadSet.mem_toList.mpr mem, target, made⟩)

theorem Binding.MadeAt.keeps {defs defs' : Definitions} {node : NodeId} {binding : Binding}
    (h : binding.MadeAt defs node) (keeps : defs.Keeps defs') : binding.MadeAt defs' node := by
  cases binding with
  | definition id => exact h
  | imported id =>
    obtain ⟨target, made⟩ := h
    exact ⟨target, keeps.aliasAt made⟩
  | overloads set =>
    obtain ⟨suffix, id, target, mem, made⟩ := h
    exact ⟨suffix, id, target, keeps.member? mem, keeps.aliasAt made⟩

namespace Importing

/-- Nobody has still to bind a name in a module, one import perhaps left out. -/
def Settled (imports : Imports n) (s : ImportState n) (but : Fin n) (module : ModuleId)
    (name : String) : Prop :=
  ∀ j, (imports.get j).slot? = some (module, name) → j ≠ but → s.Finished j

/-- Nobody at all has. -/
def AllSettled (imports : Imports n) (s : ImportState n) (module : ModuleId) (name : String) :
    Prop := ∀ j, (imports.get j).slot? = some (module, name) → s.Finished j

/-- In some namespace a name is bound neither in a module nor in any around the directive. -/
def MissedIn (imports : Imports n) (s : ImportState n) (i : Fin n) (module : ModuleId)
    (name : String) : Prop :=
  ∃ ns, s.tree.bindingAt? module ns name = none ∧
    ∀ around ∈ s.tree.around (imports.get i).module, s.tree.bindingAt? around ns name = none

/-- What a module has under a name has been made by one of its globs. -/
def BroughtIn (imports : Imports n) (defs : Definitions) (module : ModuleId) (binding : Binding) :
    Prop :=
  ∃ j, (imports.get j).isGlob = true ∧ (imports.get j).module = module ∧
    binding.MadeAt defs (imports.get j).node

instance (imports : Imports n) (defs : Definitions) (module : ModuleId) (binding : Binding) :
    Decidable (BroughtIn imports defs module binding) :=
  decidable_of_iff
    (∃ j ∈ List.finRange n, (imports.get j).isGlob = true ∧ (imports.get j).module = module ∧
      binding.MadeAt defs (imports.get j).node)
    (by simp [BroughtIn])

/-! ## Names -/

/-- A name is missing from a module. Nobody has still to bind it there, the asking directive
    perhaps left out, and if it is bound all the same a glob has brought it in. -/
structure Missing (imports : Imports n) (i : Fin n) (s : ImportState n) (module : ModuleId)
    (ns : Namespace) (name : String) : Prop where
  settled : Settled imports s i module name
  broughtIn : ∀ binding, s.tree.bindingAt? module ns name = some binding →
    BroughtIn imports s.defs module binding

/-- The first of some modules that has a name, with what it is bound to there. -/
inductive FoundAmong (imports : Imports n) (i : Fin n) (s : ImportState n) (ns : Namespace)
    (name : String) : List ModuleId → Option (ModuleId × Binding) → Prop where
  | nowhere : FoundAmong imports i s ns name [] none
  | here {module : ModuleId} {binding : Binding} {modules : List ModuleId}
      (bound : s.tree.bindingAt? module ns name = some binding) :
      FoundAmong imports i s ns name (module :: modules) (some (module, binding))
  | further {module : ModuleId} {modules : List ModuleId} {found : Option (ModuleId × Binding)}
      (missing : Missing imports i s module ns name)
      (others : FoundAmong imports i s ns name modules found) :
      FoundAmong imports i s ns name (module :: modules) found

namespace FoundAmong

variable {imports : Imports n} {i : Fin n} {s : ImportState n} {ns : Namespace} {name : String}
  {modules : List ModuleId} {found : Option (ModuleId × Binding)}

/-- What has been found is there, in one of the modules. -/
theorem bound (h : FoundAmong imports i s ns name modules found) {p : ModuleId × Binding}
    (isFound : found = some p) :
    p.1 ∈ modules ∧ s.tree.bindingAt? p.1 ns name = some p.2 := by
  induction h with
  | nowhere => cases isFound
  | here bound =>
    cases isFound
    exact ⟨List.mem_cons_self .., bound⟩
  | further _ _ ih =>
    obtain ⟨mem, bound⟩ := ih isFound
    exact ⟨List.mem_cons_of_mem _ mem, bound⟩

/-- If nothing has been found, the name is missing from all of the modules. -/
theorem missing (h : FoundAmong imports i s ns name modules found) (notFound : found = none)
    {module : ModuleId} (mem : module ∈ modules) : Missing imports i s module ns name := by
  induction h with
  | nowhere => exact absurd mem List.not_mem_nil
  | here _ => cases notFound
  | further missing _ ih =>
    rcases List.mem_cons.mp mem with rfl | mem
    · exact missing
    · exact ih notFound mem

end FoundAmong

/-! ## Modules -/

/-- What a binding finally names has a module. -/
def LeadsTo (s : ImportState n) (binding : Binding) (next : ModuleId) : Prop :=
  ∃ id, definitionOf s.defs binding = .ok id ∧ s.defs.module? id = some next

/-- The `mod` around the one that encloses a module. -/
def OuterMod (s : ImportState n) (module next : ModuleId) : Prop :=
  ∃ current m parent, s.tree.enclosingMod s.defs module = .ok current ∧
    s.tree.get current = .ok m ∧ m.parent = some parent ∧
    s.tree.enclosingMod s.defs parent = .ok next

/-- Segments of an import path lead from a module to a module. -/
inductive Arrives (imports : Imports n) (i : Fin n) (s : ImportState n) :
    PathPosition → ModuleId → List Segment → ModuleId → Prop where
  | here {position : PathPosition} {module : ModuleId} :
      Arrives imports i s position module [] module
  | selfModule {module next final : ModuleId} {segment : Segment} {segments : List Segment}
      (isSelf : segment.kind = .selfModule)
      (enclosing : s.tree.enclosingMod s.defs module = .ok next)
      (others : Arrives imports i s .inside next segments final) :
      Arrives imports i s .start module (segment :: segments) final
  | super {position : PathPosition} {module next final : ModuleId} {segment : Segment}
      {segments : List Segment} (isSuper : segment.kind = .super) (before : position ≠ .inside)
      (outer : OuterMod s module next)
      (others : Arrives imports i s .climbing next segments final) :
      Arrives imports i s position module (segment :: segments) final
  /-- The first name is looked for outward -/
  | outward {module next final : ModuleId} {segment : Segment} {segments : List Segment}
      {name : String} {found : ModuleId × Binding} (isName : segment.kind = .name name)
      (among : FoundAmong imports i s .type name (s.tree.around module) (some found))
      (leadsTo : LeadsTo s found.2 next)
      (others : Arrives imports i s .inside next segments final) :
      Arrives imports i s .start module (segment :: segments) final
  | member {position : PathPosition} {module next final : ModuleId} {segment : Segment}
      {segments : List Segment} {name : String} {binding : Binding}
      (isName : segment.kind = .name name) (behind : position ≠ .start)
      (bound : s.tree.bindingAt? module .type name = some binding)
      (leadsTo : LeadsTo s binding next)
      (others : Arrives imports i s .inside next segments final) :
      Arrives imports i s position module (segment :: segments) final

theorem Arrives.eq_of_nil {imports : Imports n} {i : Fin n} {s : ImportState n}
    {position : PathPosition} {module final : ModuleId}
    (h : Arrives imports i s position module [] final) : final = module := by
  cases h
  rfl

/-! ## Targets -/

/-- What has been found of a name in each of some namespaces, in some places. -/
structure TargetsAmong (imports : Imports n) (i : Fin n) (s : ImportState n) (name : String)
    (places : List ModuleId) (namespaces : List Namespace)
    (found : List (Namespace × ModuleId × Binding)) : Prop where
  here : ∀ p ∈ found, p.1 ∈ namespaces ∧ FoundAmong imports i s p.1 name places (some p.2)
  missed : ∀ ns ∈ namespaces, (∀ p ∈ found, p.1 ≠ ns) → FoundAmong imports i s ns name places none

theorem TargetsAmong.cons {imports : Imports n} {i : Fin n} {s : ImportState n} {ns : Namespace}
    {others : List Namespace} {name : String} {places : List ModuleId}
    {first : Option (ModuleId × Binding)} {rest : List (Namespace × ModuleId × Binding)}
    (h : FoundAmong imports i s ns name places first)
    (h' : TargetsAmong imports i s name places others rest) :
    TargetsAmong imports i s name places (ns :: others) (first.toList.map (ns, ·) ++ rest) := by
  constructor
  · intro p mem
    rcases List.mem_append.mp mem with mem | mem
    · obtain ⟨q, isFirst, rfl⟩ := List.mem_map.mp mem
      have isFirst : first = some q := Option.mem_toList.mp isFirst
      subst isFirst
      exact ⟨List.mem_cons_self .., h⟩
    · obtain ⟨mem', among⟩ := h'.here p mem
      exact ⟨List.mem_cons_of_mem _ mem', among⟩
  · intro ns' mem notFound
    by_cases same : ns' = ns
    · subst same
      cases first with
      | none => exact h
      | some q =>
        have inFront : (ns', q) ∈ (some q).toList.map (ns', ·) ++ rest :=
          List.mem_append_left _ (by simp)
        exact absurd rfl (notFound _ inFront)
    · have mem := (List.mem_cons.mp mem).resolve_left same
      exact h'.missed ns' mem fun p mem' => notFound p (List.mem_append_right _ mem')

/-- Where a path that is not absolute starts, and where an absolute one does. -/
def firstPosition (directive : Directive) : PathPosition :=
  if directive.path.global then .inside else .start

/-- The module from which the path of a directive is followed. -/
def firstModule (directive : Directive) : ModuleId :=
  if directive.path.global then .root else directive.module

/-- Where the last name of a path is looked for: a bare name outward from the directive. -/
def places (tree : ModuleTree) (directive : Directive) (target : ImportTarget)
    (module : ModuleId) : List ModuleId :=
  if target.lead.isEmpty && !directive.path.global then tree.around directive.module else [module]

theorem not_bare {directive : Directive} {target : ImportTarget}
    (lead : directive.path.global = true ∨ target.lead ≠ []) :
    (target.lead.isEmpty && !directive.path.global) = false := by
  rcases lead with global | notEmpty
  · simp [global]
  · simp [notEmpty]

/-- What a single import finds, in the module that its path leads to. -/
structure SingleFound (imports : Imports n) (i : Fin n) (s : ImportState n) (target : ImportTarget)
    (module : ModuleId) (found : List (Namespace × ModuleId × Binding)) : Prop where
  arrives : Arrives imports i s (firstPosition (imports.get i)) (firstModule (imports.get i))
    target.lead module
  targets : TargetsAmong imports i s target.last.name (places s.tree (imports.get i) target module)
    (if target.typesOnly then [.type] else Namespace.all) found

namespace SingleFound

variable {imports : Imports n} {i : Fin n} {s : ImportState n} {target : ImportTarget}
  {module : ModuleId} {found : List (Namespace × ModuleId × Binding)}

theorem there (h : SingleFound imports i s target module found) :
    ∀ p ∈ found, s.tree.bindingAt? p.2.1 p.1 target.last.name = some p.2.2 :=
  fun p mem => ((h.targets.here p mem).2.bound rfl).2

/-- Behind another segment or `::` a name is looked for in one module only. -/
theorem eq_of_lead (h : SingleFound imports i s target module found)
    (lead : (imports.get i).path.global = true ∨ target.lead ≠ [])
    {p : Namespace × ModuleId × Binding} (isFound : p ∈ found) : p.2.1 = module := by
  have place := ((h.targets.here p isFound).2.bound rfl).1
  unfold places at place
  rw [not_bare lead, if_neg Bool.false_ne_true, List.mem_singleton] at place
  exact place

/-- Where it has found functions, and in some namespace nothing of the name, nobody else has still
    to bind the name there. -/
theorem settled (h : SingleFound imports i s target module found) :
    ∀ p ∈ found, p.1 = .value →
      MissedIn imports s i p.2.1 target.last.name → Settled imports s i p.2.1 target.last.name := by
  rintro p mem isValue ⟨ns, freeThere, freeAround⟩
  obtain ⟨inNamespaces, among⟩ := h.targets.here p mem
  have place := (among.bound rfl).1
  -- who looks among values looks everywhere, and in the same places
  have everywhere : ns ∈ if target.typesOnly then [.type] else Namespace.all := by
    rw [isValue] at inNamespaces
    split at inNamespaces
    · cases List.mem_singleton.mp inNamespaces
    · next all =>
      rw [if_neg all]
      exact Namespace.mem_all _
  have free : ∀ other ∈ places s.tree (imports.get i) target module,
      s.tree.bindingAt? other ns target.last.name = none := by
    intro other mem'
    unfold places at mem' place
    split at mem'
    · exact freeAround other mem'
    · next notBare =>
      rw [if_neg notBare] at place
      rw [List.mem_singleton.mp mem', ← List.mem_singleton.mp place]
      exact freeThere
  have notFound : ∀ q ∈ found, q.1 ≠ ns := by
    intro q mem' same
    obtain ⟨place', bound⟩ := (h.targets.here q mem').2.bound rfl
    rw [same, free _ place'] at bound
    cases bound
  exact ((h.targets.missed ns everywhere notFound).missing rfl place).settled

end SingleFound

end Importing

end NameResolution
