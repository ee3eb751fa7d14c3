import NameResolution.Proofs.Import.Trail

/-! # One import in two runs

    The same import may come to its end at one moment in one run of the import
    phase and at quite another in a second run. It finds the same in both, in
    the same places, as long as names that both have bound by then stand for the
    same, and neither has bound a name that the other has given up. -/

namespace NameResolution

/-- Two names that stand for the same declared definition in the end, each in its own tables, or
    else both for functions. -/
inductive Binding.Alike (declared defs defs' : Definitions) : Binding → Binding → Prop where
  | single {binding binding' : Binding} {final : DefId} (known : declared.Known final)
      (stands : Importing.definitionOf defs binding = .ok final)
      (stands' : Importing.definitionOf defs' binding' = .ok final) :
      Alike declared defs defs' binding binding'
  | overloads {set set' : OverloadId} : Alike declared defs defs' (.overloads set) (.overloads set')

namespace Binding.Alike

variable {declared declared' defs defs' defs'' : Definitions} {binding binding' binding'' : Binding}

theorem symm (h : binding.Alike declared defs defs' binding') :
    binding'.Alike declared defs' defs binding := by
  cases h with
  | single known stands stands' => exact .single known stands' stands
  | overloads => exact .overloads

theorem trans (h : binding.Alike declared defs defs' binding')
    (h' : binding'.Alike declared' defs' defs'' binding'') :
    binding.Alike declared defs defs'' binding'' := by
  cases h with
  | single known stands same =>
    cases h' with
    | single _ same' stands' =>
      rw [same] at same'
      cases same'
      exact .single known stands stands'
    | overloads => cases same
  | overloads =>
    cases h' with
    | single _ same' _ => cases same'
    | overloads => exact .overloads

/-- What both stand for, if one of them does. -/
theorem eq_of_stands (h : binding.Alike declared defs defs' binding') {final final' : DefId}
    (stands : Importing.definitionOf defs binding = .ok final)
    (stands' : Importing.definitionOf defs' binding' = .ok final') : final' = final := by
  cases h with
  | single _ same same' =>
    rw [stands] at same
    rw [stands'] at same'
    cases same
    cases same'
    rfl
  | overloads => cases stands

end Binding.Alike

namespace Importing

variable {n n' : Nat} {labels : NodeId → String → Prop} {imports : Imports n}
  {imports' : Imports n'} {i : Fin n} {i' : Fin n'} {s t e : ImportState n}
  {s' t' e' : ImportState n'} {declared : Definitions} {ns : Namespace} {name : String}
  {module next next' final final' : ModuleId} {binding binding' : Binding}

/-- What was there from the start stands for the same in all later tables. -/
theorem alike_of_sorted (sound : Sound labels (s.defs, s.tree))
    (sound' : Sound labels (s'.defs, s'.tree)) (same : s'.defs = s.defs)
    (later : Later labels s e) (later' : Later labels s' e')
    (sorted : binding.Sorted s.defs ns) : binding.Alike s.defs e.defs e'.defs binding := by
  have single {target : DefId} (names : binding = .definition target ∨ binding = .imported target) :
      binding.Alike s.defs e.defs e'.defs binding := by
    obtain ⟨final, stands, namesFinal⟩ :=
      exists_definitionOf sound.intact.validDefs sound.sorted.defs sorted names
    have sorted' := sorted
    have stands' := stands
    rw [← same] at sorted' stands'
    exact .single namesFinal.known_final (later_definitionOf sound later sorted.good stands)
      (later_definitionOf sound' later' sorted'.good stands')
  cases binding with
  | definition target => exact single (.inl rfl)
  | imported target => exact single (.inr rfl)
  | overloads set => exact .overloads

/-- Where there are no globs, what is missing is not there. -/
theorem Missing.free (h : Missing imports i t module ns name)
    (single : ∀ j, (imports.get j).isGlob = false) :
    t.tree.bindingAt? module ns name = none := by
  cases bound : t.tree.bindingAt? module ns name with
  | none => rfl
  | some binding =>
    obtain ⟨j, isGlob, -⟩ := h.broughtIn binding bound
    rw [single j] at isGlob
    cases isGlob

/-- Two runs, each at a moment of its own, with what becomes of their tables. In both the modules
    are the same ones. -/
structure Abreast (labels : NodeId → String → Prop) (declared : Definitions) (imports : Imports n)
    (i : Fin n) (t e : ImportState n) (imports' : Imports n') (i' : Fin n')
    (t' e' : ImportState n') : Prop where
  inOrder : InOrder labels imports t
  inOrder' : InOrder labels imports' t'
  later : Later labels t e
  later' : Later labels t' e'
  module? : ∀ id, t'.defs.module? id = t.defs.module? id
  around : ∀ module, t'.tree.around module = t.tree.around module
  parent : ∀ {module : ModuleId} {m m' : Module}, t.tree.get module = .ok m →
    t'.tree.get module = .ok m' → m'.parent = m.parent
  enclosing : ∀ {module next next' : ModuleId}, t.tree.enclosingMod t.defs module = .ok next →
    t'.tree.enclosingMod t'.defs module = .ok next' → next' = next
  /-- What both have bound stands for the same in the end -/
  alike : ∀ {module : ModuleId} {ns : Namespace} {name : String} {binding binding' : Binding},
    t.tree.bindingAt? module ns name = some binding →
    t'.tree.bindingAt? module ns name = some binding' →
      binding.Alike declared e.defs e'.defs binding'
  /-- Neither misses for good what the other has -/
  missed : ∀ {module : ModuleId} {ns : Namespace} {name : String} {binding : Binding},
    Missing imports i t module ns name →
      t'.tree.bindingAt? module ns name ≠ some binding
  missed' : ∀ {module : ModuleId} {ns : Namespace} {name : String} {binding : Binding},
    Missing imports' i' t' module ns name →
      t.tree.bindingAt? module ns name ≠ some binding

section

variable (abreast : Abreast labels declared imports i t e imports' i' t' e')

include abreast

/-- Both find a name in the same place, or neither does anywhere. -/
theorem FoundAmong.agrees {modules : List ModuleId} {found found' : Option (ModuleId × Binding)}
    (h : FoundAmong imports i t ns name modules found)
    (h' : FoundAmong imports' i' t' ns name modules found') :
    found'.map Prod.fst = found.map Prod.fst := by
  induction h generalizing found' with
  | nowhere =>
    cases h'
    rfl
  | here bound =>
    cases h' with
    | here _ => rfl
    | further missing' _ => exact absurd bound (abreast.missed' missing')
  | further missing _ ih =>
    cases h' with
    | here bound' => exact absurd bound' (abreast.missed missing)
    | further _ others' => exact ih others'

theorem LeadsTo.agrees (h : LeadsTo t binding next) (h' : LeadsTo t' binding' next')
    (bound : t.tree.bindingAt? module ns name = some binding)
    (bound' : t'.tree.bindingAt? module ns name = some binding') : next' = next := by
  obtain ⟨id, stands, there⟩ := h
  obtain ⟨id', stands', there'⟩ := h'
  have good := abreast.inOrder.sound.intact.bindings bound
  have good' := abreast.inOrder'.sound.intact.bindings bound'
  have same := (abreast.alike bound bound').eq_of_stands
    (later_definitionOf abreast.inOrder.sound abreast.later good stands)
    (later_definitionOf abreast.inOrder'.sound abreast.later' good' stands')
  rw [same, abreast.module?, there] at there'
  exact (Option.some.inj there').symm

theorem OuterMod.agrees (h : OuterMod t module next) (h' : OuterMod t' module next') :
    next' = next := by
  obtain ⟨current, m, parent, enclosing, got, inside, outer⟩ := h
  obtain ⟨current', m', parent', enclosing', got', inside', outer'⟩ := h'
  obtain rfl := abreast.enclosing enclosing enclosing'
  rw [abreast.parent got got', inside] at inside'
  cases inside'
  exact abreast.enclosing outer outer'

/-- In both runs the path of an import leads to the same module. -/
theorem Arrives.agrees {position : PathPosition} {segments : List Segment}
    (h : Arrives imports i t position module segments final)
    (h' : Arrives imports' i' t' position module segments final') : final' = final := by
  induction h with
  | here => exact h'.eq_of_nil
  | selfModule isSelf enclosing _ ih =>
    cases h' with
    | selfModule _ enclosing' others' =>
      obtain rfl := abreast.enclosing enclosing enclosing'
      exact ih others'
    | super isSuper _ _ _ => cases isSelf.symm.trans isSuper
    | outward isName _ _ _ => cases isSelf.symm.trans isName
    | member _ behind _ _ _ => exact absurd rfl behind
  | super isSuper _ outer _ ih =>
    cases h' with
    | selfModule isSelf _ _ => cases isSuper.symm.trans isSelf
    | super _ _ outer' others' =>
      obtain rfl := outer.agrees abreast outer'
      exact ih others'
    | outward isName _ _ _ => cases isSuper.symm.trans isName
    | member isName _ _ _ _ => cases isSuper.symm.trans isName
  | outward isName among leadsTo _ ih =>
    cases h' with
    | selfModule isSelf _ _ => cases isName.symm.trans isSelf
    | super isSuper _ _ _ => cases isName.symm.trans isSuper
    | outward isName' among' leadsTo' others' =>
      cases isName.symm.trans isName'
      rw [abreast.around] at among'
      have place := Option.some.inj (among.agrees abreast among')
      have bound := (among.bound rfl).2
      have bound' := (among'.bound rfl).2
      rw [place] at bound'
      obtain rfl := leadsTo.agrees abreast leadsTo' bound bound'
      exact ih others'
    | member _ behind _ _ _ => exact absurd rfl behind
  | member isName behind bound leadsTo _ ih =>
    cases h' with
    | selfModule _ _ _ => exact absurd rfl behind
    | super isSuper _ _ _ => cases isName.symm.trans isSuper
    | outward _ _ _ _ => exact absurd rfl behind
    | member isName' _ bound' leadsTo' others' =>
      cases isName.symm.trans isName'
      obtain rfl := leadsTo.agrees abreast leadsTo' bound bound'
      exact ih others'

end

/-- In each namespace something has been found in the same place, or nothing. -/
def SamePlaces (found found' : List (Namespace × ModuleId × Binding)) : Prop :=
  ∀ ns source, (∃ binding, (ns, source, binding) ∈ found) ↔
    ∃ binding, (ns, source, binding) ∈ found'

theorem TargetsAmong.sub_of_agrees {places : List ModuleId} {namespaces : List Namespace}
    {found found' : List (Namespace × ModuleId × Binding)}
    (h : TargetsAmong imports i t name places namespaces found)
    (h' : TargetsAmong imports' i' t' name places namespaces found')
    (agrees : ∀ {ns : Namespace} {r r' : Option (ModuleId × Binding)},
      FoundAmong imports i t ns name places r → FoundAmong imports' i' t' ns name places r' →
        r'.map Prod.fst = r.map Prod.fst)
    {ns : Namespace} {source : ModuleId} {binding : Binding}
    (mem : (ns, source, binding) ∈ found) : ∃ binding', (ns, source, binding') ∈ found' := by
  obtain ⟨inNamespaces, among⟩ := h.here _ mem
  by_cases finds : ∃ p ∈ found', p.1 = ns
  · obtain ⟨⟨ns', source', binding'⟩, mem', same⟩ := finds
    have same : ns' = ns := same
    subst same
    have place : source' = source := Option.some.inj (agrees among (h'.here _ mem').2)
    subst place
    exact ⟨binding', mem'⟩
  · -- the other one would have missed what this one has found
    have missed := h'.missed ns inNamespaces fun p mem' same => finds ⟨p, mem', same⟩
    cases agrees among missed

/-- The same import finds the same in both runs, as far as namespaces and places go. -/
theorem SingleFound.agrees (abreast : Abreast labels declared imports i t e imports' i' t' e')
    (same : imports'.get i' = imports.get i) {target : ImportTarget}
    {found found' : List (Namespace × ModuleId × Binding)}
    (h : SingleFound imports i t target final found)
    (h' : SingleFound imports' i' t' target final' found') : SamePlaces found found' := by
  have arrives' := h'.arrives
  have targets' := h'.targets
  rw [same] at arrives' targets'
  obtain rfl := h.arrives.agrees abreast arrives'
  have places : places t'.tree (imports.get i) target final' =
      places t.tree (imports.get i) target final' := by
    unfold Importing.places
    rw [abreast.around]
  rw [places] at targets'
  intro ns source
  constructor
  · rintro ⟨binding, mem⟩
    exact h.targets.sub_of_agrees targets' (fun r r' => r.agrees abreast r') mem
  · rintro ⟨binding, mem⟩
    exact targets'.sub_of_agrees h.targets (fun r r' => (r'.agrees abreast r).symm) mem

end Importing

end NameResolution
