import NameResolution.Proofs.Import.Abreast
import NameResolution.Proofs.Import.Ending

/-! # The order of imports

    Imports are resolved inside each other, so their order decides which lookup
    opens which import, and what the tables hold at that moment. Without globs
    and without errors it decides nothing else. Whatever an import finds, and
    whatever it misses, is settled by imports that have come to their end before
    it in any order. So along one run, import by import, each finds what it
    finds in the other run. -/

namespace NameResolution

/-- That a name is taken is an error. -/
theorem hasErrors_of_redefinition {defs : Definitions} {text : String} {span : Span}
    {first : Binding} {report : Diagnostic}
    (reported : redefinition defs text span first = .ok report) : hasErrors [report] = true := by
  cases first with
  | definition id | imported id =>
    obtain ⟨_, -, last⟩ := Except.bind_eq_ok.mp reported
    cases last
    rfl
  | overloads set =>
    obtain ⟨_, -, last⟩ := Except.bind_eq_ok.mp reported
    cases last
    rfl

namespace Importing

variable {n n' : Nat} {labels : NodeId → String → Prop} {imports : Imports n}
  {imports' : Imports n'} {start s s' t e : ImportState n} {start' t' e' : ImportState n'}
  {i j : Fin n} {i' : Fin n'} {directive : Directive} {name : Ident} {ns ns' : Namespace}
  {module source : ModuleId} {text : String} {binding bound' : Binding} {publicOnly : Bool}
  {found : List (Namespace × ModuleId × Binding)}

/-! ## What is found and what is bound -/

/-- A name that an import binds is not refused. -/
theorem Outcome.not_refuses (outcome : Outcome directive ns name publicOnly s binding s')
    (sorted : binding.Sorted s.defs ns) (free : s.tree.bindingAt? module ns' text = none)
    (bound : s'.tree.bindingAt? module ns' text = some bound') :
    (module, ns', text) = (directive.module, ns, name.name) ∧ ¬ Refuses s.tree module ns' := by
  rcases outcome.made sorted bound with before | ⟨same, -, -⟩
  · rw [free] at before
    cases before
  · refine ⟨same, ?_⟩
    cases same
    rintro ⟨lifetime, m, found, block⟩
    cases outcome with
    | refused _ _ _ =>
      rw [free] at bound
      cases bound
    | aliased _ _ found' takes _ =>
      rw [found] at found'
      cases found'
      exact takes ⟨lifetime, block⟩
    | aliasTaken _ _ _ _ =>
      rw [free] at bound
      cases bound
    | joined _ _ _ =>
      obtain ⟨rfl, -⟩ := sorted
      cases lifetime
    | blocked _ _ _ =>
      obtain ⟨rfl, -⟩ := sorted
      cases lifetime
    | opened _ _ =>
      obtain ⟨rfl, -⟩ := sorted
      cases lifetime

/-- An import binds its own name only, and in a namespace in which it has found something. -/
theorem BringsAll.exists_found (brings : BringsAll directive name found s s')
    (prepared : Prepared labels directive found s)
    (free : s.tree.bindingAt? module ns text = none)
    (bound : s'.tree.bindingAt? module ns text = some bound') :
    module = directive.module ∧ text = name.name ∧ (∃ p ∈ found, p.1 = ns) ∧
      ¬ Refuses s.tree module ns := by
  induction brings with
  | nil =>
    rw [free] at bound
    cases bound
  | @cons _ _ _ _ s s₁ _ first others ih =>
    obtain ⟨later, rest⟩ := prepared.first first
    cases mid : s₁.tree.bindingAt? module ns text with
    | none =>
      obtain ⟨home, own, ⟨p, mem, same⟩, takes⟩ := ih rest mid bound
      exact ⟨home, own, ⟨p, List.mem_cons_of_mem _ mem, same⟩,
        fun refuses => takes (refuses.grows later.tree)⟩
    | some b =>
      obtain ⟨_, _, _, outcome⟩ := first
      have sorted := prepared.sorted _ (List.mem_cons_self ..)
      obtain ⟨same, takes⟩ := outcome.not_refuses sorted free mid
      cases same
      exact ⟨rfl, rfl, ⟨_, List.mem_cons_self .., rfl⟩, takes⟩

/-- Without an error the name comes to stand for what has been found. -/
theorem Outcome.alike (outcome : Outcome directive ns name publicOnly s binding s')
    (home : s.tree.Known directive.module) (sorted : binding.Sorted s.defs ns)
    (noErrors : hasErrors s'.diagnostics = false) (later : Later labels s' e)
    (sorted' : binding.Sorted e.defs ns) :
    Refuses s'.tree directive.module ns ∨
      ∃ b, s'.tree.bindingAt? directive.module ns name.name = some b ∧
        binding.Alike e.defs e.defs e.defs b := by
  have taken {P : Prop} {defs : Definitions} {text : String} {first : Binding}
      {report : Diagnostic} (reported : redefinition defs text name.span first = .ok report)
      (noErrors : hasErrors (s.diagnostics ++ [report]) = false) : P := by
    rw [hasErrors_append, hasErrors_of_redefinition reported, Bool.or_true] at noErrors
    cases noErrors
  cases outcome with
  | refused found lifetime block => exact .inl ⟨lifetime, _, found, block⟩
  | aliased names made _ _ _ =>
    obtain ⟨isAlias, -, -⟩ := Definitions.aliasAt_of_defineAlias made
    obtain ⟨_, known, stands, same⟩ := exists_definitionOf_alias later.sound.intact.validDefs
      later.sound.sorted.defs sorted' names (later.defs_keeps.aliasAt isAlias)
    exact .inr ⟨_, ModuleTree.bindingAt?_bind_self home, .single known stands same⟩
  | aliasTaken _ _ _ reported => exact taken reported noErrors
  | joined bound _ _ =>
    obtain ⟨rfl, -⟩ := sorted
    exact .inr ⟨_, bound, .overloads⟩
  | blocked _ _ reported => exact taken reported noErrors
  | opened _ _ =>
    obtain ⟨rfl, -⟩ := sorted
    exact .inr ⟨_, ModuleTree.bindingAt?_bind_self home, .overloads⟩

theorem BringsAll.alike (brings : BringsAll directive name found s s')
    (prepared : Prepared labels directive found s) (noErrors : hasErrors s'.diagnostics = false)
    (later : Later labels s' e) {p : Namespace × ModuleId × Binding} (mem : p ∈ found) :
    Refuses s'.tree directive.module p.1 ∨
      ∃ b, s'.tree.bindingAt? directive.module p.1 name.name = some b ∧
        p.2.2.Alike e.defs e.defs e.defs b := by
  induction brings with
  | nil => cases mem
  | @cons ns _ _ _ s s₁ s' first others ih =>
    obtain ⟨later₀, rest⟩ := prepared.first first
    have later₁ := others.later rest
    rcases List.mem_cons.mp mem with rfl | mem
    · obtain ⟨more, eq⟩ := others.diagnostics
      rw [eq, hasErrors_append] at noErrors
      have noErrors₁ := (Bool.or_eq_false_iff.mp noErrors).1
      obtain ⟨_, _, _, outcome⟩ := first
      have sorted := prepared.sorted _ (List.mem_cons_self ..)
      have all := later₀.trans (later₁.trans later)
      have sorted' := sorted.keeps all.defs_keeps prepared.sound.intact.validDefs
        later.sound.intact.validDefs
      rcases outcome.alike prepared.home sorted noErrors₁ (later₁.trans later) sorted' with
        refuses | ⟨b, bound, alike⟩
      · exact .inl (refuses.grows later₁.tree)
      · exact .inr ⟨b, later₁.tree_keeps.bound bound, alike⟩
    · exact ih rest noErrors later mem

/-! ## A run without errors -/

/-- A run of the import phase without globs and without errors: all imports have found something. -/
structure Smooth (labels : NodeId → String → Prop) (imports : Imports n)
    (start s : ImportState n) : Prop where
  inOrder : InOrder labels imports start
  pending : ∀ i, start.statusOf i = .pending
  single : ∀ i, (imports.get i).isGlob = false
  done : ∀ i, ∃ source, s.statusOf i = .done source
  noErrors : hasErrors s.diagnostics = false

theorem Smooth.finished (h : Smooth labels imports start s) (i : Fin n) : s.Finished i := by
  obtain ⟨source, done⟩ := h.done i
  unfold ImportState.Finished
  rw [done]
  exact ⟨by simp, by simp⟩

/-- A moment of such a run, with what has been done by then. -/
structure Partway (labels : NodeId → String → Prop) (imports : Imports n)
    (start s : ImportState n) (earlier : List (Occasion n)) (t : ImportState n) : Prop where
  smooth : Smooth labels imports start s
  trail : Trail imports start earlier t
  rest : Steps imports [] t s

variable {earlier : List (Occasion n)} {earlier' : List (Occasion n')} {o : Occasion n}
  {o' : Occasion n'} {target target' : ImportTarget} {home home' : ModuleId}
  {found' : List (Namespace × ModuleId × Binding)}

namespace Partway

theorem sinceStart (h : Partway labels imports start s earlier t) : Later labels start t :=
  h.smooth.inOrder.path h.trail.steps

theorem inOrder (h : Partway labels imports start s earlier t) : InOrder labels imports t :=
  h.sinceStart.inOrder h.smooth.inOrder

theorem toEnd (h : Partway labels imports start s earlier t) : Later labels t s :=
  h.inOrder.path h.rest

/-- The moment before one of the things that have been done. -/
theorem before (h : Partway labels imports start s earlier t) (mem : o ∈ earlier) :
    ∃ sooner, sooner ⊆ earlier ∧ Partway labels imports start s sooner o.before := by
  obtain ⟨sooner, later, eq, first, move, others⟩ := h.trail.split mem
  refine ⟨sooner, ?_, h.smooth, first, ?_⟩
  · rw [eq]
    exact List.subset_append_left ..
  · exact (Steps.single (.moves List.not_mem_nil move)).trans (others.steps.trans h.rest)

/-- Whoever has come to its end has found something. -/
theorem exists_resolves (h : Partway labels imports start s earlier t) (finished : t.Finished j) :
    ∃ o ∈ earlier, o.index = j ∧ ∃ target home found, o.Resolves imports target home found := by
  obtain ⟨source, done⟩ := h.smooth.done j
  rw [h.rest.statusOf_of_finished finished] at done
  exact h.trail.exists_resolves h.smooth.pending (h.smooth.single j) done

/-- A name stands for what the import of the name has found. -/
theorem alike_of_found (h : Partway labels imports start s earlier t) (mem : o ∈ earlier)
    (resolves : o.Resolves imports target home found) {p : Namespace × ModuleId × Binding}
    (isFound : p ∈ found) :
    Refuses start.tree (imports.get o.index).module p.1 ∨
      ∃ b, t.tree.bindingAt? (imports.get o.index).module p.1 target.name.name = some b ∧
        p.2.2.Alike s.defs s.defs s.defs b := by
  have inOrder₀ := h.trail.inOrder_before h.smooth.inOrder mem
  have inOrder₁ := h.trail.inOrder_after h.smooth.inOrder mem
  have prepared := inOrder₀.prepared resolves.finds
  have path := h.trail.after mem
  have later := inOrder₁.path path
  have sinceStart := h.smooth.inOrder.path (h.trail.before mem)
  obtain ⟨s₁, brings, eq⟩ := resolves.brings
  have later₁ : Later labels s₁ o.after := by
    rw [eq]
    exact .of_eq (brings.later prepared).sound rfl rfl
  have noErrors : hasErrors s₁.diagnostics = false := by
    obtain ⟨more, eq'⟩ := (path.trans h.rest).diagnostics
    have noErrors := h.smooth.noErrors
    rw [eq', eq, hasErrors_append] at noErrors
    exact (Bool.or_eq_false_iff.mp noErrors).1
  rcases brings.alike prepared noErrors (later₁.trans (later.trans h.toEnd)) isFound with
    refuses | ⟨b, bound, alike⟩
  · exact .inl (refuses.of_grows (sinceStart.tree.trans (brings.later prepared).tree))
  · exact .inr ⟨b, (later₁.trans later).tree_keeps.bound bound, alike⟩

end Partway

/-- A name that comes to be bound a single import binds, in coming to its end. -/
theorem Move.exists_resolves (move : Move imports i s s') (inOrder : InOrder labels imports s)
    (single : (imports.get i).isGlob = false)
    (free : s.tree.bindingAt? module ns text = none)
    (bound : s'.tree.bindingAt? module ns text = some binding) :
    s'.Finished i ∧ module = (imports.get i).module ∧ ¬ Refuses s.tree module ns ∧
      ∃ target home found, Occasion.Resolves imports ⟨i, s, s'⟩ target home found ∧
        text = target.name.name ∧ ∃ p ∈ found, p.1 = ns := by
  have unbound {P : Prop} (same : s.tree.bindingAt? module ns text = some binding) : P := by
    rw [free] at same
    cases same
  cases move with
  | opens _ => exact unbound bound
  | fails _ _ => exact unbound bound
  | reads _ isGlob =>
    rw [single] at isGlob
    cases isGlob
  | @binds target home found _ inProgress hasTarget finds brings =>
    obtain ⟨own, name, isFound, takes⟩ := brings.exists_found (inOrder.prepared finds) free bound
    exact ⟨ImportState.finished_withStatus (by simp) (by simp), own, takes, target, home, found,
      ⟨inProgress, hasTarget, finds, _, brings, rfl⟩, name, isFound⟩
  | spreads isGlob _ _ _ _ _ _ =>
    rw [single] at isGlob
    cases isGlob

/-- What has been bound since the start an import has bound that has come to its end. -/
theorem exists_binder (h : Trail imports start earlier t)
    (inOrder : InOrder labels imports start) (single : ∀ i, (imports.get i).isGlob = false)
    (free : start.tree.bindingAt? module ns text = none)
    (bound : t.tree.bindingAt? module ns text = some binding) :
    ∃ o ∈ earlier, t.Finished o.index ∧ module = (imports.get o.index).module ∧
      ¬ Refuses start.tree module ns ∧ ∃ target home found, o.Resolves imports target home found ∧
        text = target.name.name ∧ ∃ p ∈ found, p.1 = ns := by
  induction h with
  | start =>
    rw [free] at bound
    cases bound
  | @moves soFar i s₀ s₁ trail move ih =>
    have later := inOrder.path trail.steps
    have inOrder₀ := later.inOrder inOrder
    cases before : s₀.tree.bindingAt? module ns text with
    | some b =>
      rw [(inOrder₀.move move).tree_keeps.bound before] at bound
      cases bound
      obtain ⟨o, mem, finished, rest⟩ := ih before
      have step : Steps imports [] s₀ s₁ := .single (.moves List.not_mem_nil move)
      exact ⟨o, List.mem_append_left _ mem, step.finished finished, rest⟩
    | none =>
      obtain ⟨finished, own, takes, rest⟩ := move.exists_resolves inOrder₀ (single i) before bound
      exact ⟨_, List.mem_append_right _ (List.mem_singleton_self _), finished, own,
        fun refuses => takes (refuses.grows later.tree), rest⟩
  | reports _ _ ih => exact ih bound

/-! ## Two runs of the same imports -/

/-- The same imports over the same tables, in another order. -/
structure Rearranged (imports : Imports n) (start : ImportState n) (imports' : Imports n')
    (start' : ImportState n') (σ : Fin n ≃ Fin n') : Prop where
  get : ∀ i, imports'.get (σ i) = imports.get i
  defs : start'.defs = start.defs
  tree : start'.tree = start.tree

/-- What an import has found in one run it has found in the other one as well, in the same
    namespaces and places. -/
def FindAlike (imports : Imports n) (imports' : Imports n') (σ : Fin n ≃ Fin n')
    (earlier : List (Occasion n)) (earlier' : List (Occasion n')) : Prop :=
  ∀ o ∈ earlier, ∀ o' ∈ earlier', o'.index = σ o.index →
    ∀ {target target' : ImportTarget} {home home' : ModuleId}
      {found found' : List (Namespace × ModuleId × Binding)},
      o.Resolves imports target home found → o'.Resolves imports' target' home' found' →
        SamePlaces found found'

/-- What has been bound in one run the other run leaves bound, to what stands for the same. -/
def Carried (declared : Definitions) (t e : ImportState n) (e' : ImportState n') : Prop :=
  ∀ {module : ModuleId} {ns : Namespace} {text : String} {binding : Binding},
    t.tree.bindingAt? module ns text = some binding →
      ∃ binding', e'.tree.bindingAt? module ns text = some binding' ∧
        binding.Alike declared e.defs e'.defs binding'

variable {σ : Fin n ≃ Fin n'}

theorem Rearranged.symm (h : Rearranged imports start imports' start' σ) :
    Rearranged imports' start' imports start σ.symm where
  get i' := by rw [← h.get, Equiv.apply_symm_apply]
  defs := h.defs.symm
  tree := h.tree.symm

/-- What an import looks for is the same in both runs. -/
theorem Rearranged.same (h : Rearranged imports start imports' start' σ)
    (index : o'.index = σ o.index) (resolves : o.Resolves imports target home found)
    (resolves' : o'.Resolves imports' target' home' found') :
    imports'.get o'.index = imports.get o.index ∧ target' = target := by
  have same : imports'.get o'.index = imports.get o.index := by rw [index, h.get]
  have hasTarget := resolves'.hasTarget
  rw [same, resolves.hasTarget] at hasTarget
  exact ⟨same, (Option.some.inj hasTarget).symm⟩

theorem SamePlaces.symm (h : SamePlaces found found') : SamePlaces found' found :=
  fun ns source => (h ns source).symm

theorem FindAlike.symm (h : FindAlike imports imports' σ earlier earlier') :
    FindAlike imports' imports σ.symm earlier' earlier := by
  intro o' mem' o mem same _ _ _ _ _ _ resolves' resolves
  have index : o'.index = σ o.index := by rw [same, Equiv.apply_symm_apply]
  exact (h o mem o' mem' index resolves resolves').symm

theorem FindAlike.mono {sooner : List (Occasion n')}
    (h : FindAlike imports imports' σ earlier earlier') (subset : sooner ⊆ earlier') :
    FindAlike imports imports' σ earlier sooner :=
  fun o mem o' mem' => h o mem o' (subset mem')

/-- What one run misses for good the other one has not bound: it would have been bound by an import
    that has come to its end in both, and has found the same. -/
theorem Partway.not_missing (h : Partway labels imports start e earlier t)
    (h' : Partway labels imports' start' e' earlier' t')
    (rearranged : Rearranged imports start imports' start' σ)
    (alike : FindAlike imports imports' σ earlier earlier')
    (inProgress : t.statusOf i = .inProgress)
    (missing : Missing imports' (σ i) t' module ns text) :
    t.tree.bindingAt? module ns text ≠ some binding := by
  intro bound
  have free' := missing.free h'.smooth.single
  cases before : start.tree.bindingAt? module ns text with
  | some b =>
    rw [← rearranged.tree] at before
    rw [h'.sinceStart.tree_keeps.bound before] at free'
    cases free'
  | none =>
    obtain ⟨o, mem, finished, rfl, takes, target, _, _, resolves, rfl, p, isFound, rfl⟩ :=
      exists_binder h.trail h.smooth.inOrder h.smooth.single before bound
    have other : σ o.index ≠ σ i := by
      intro same
      rw [σ.injective same] at finished
      exact finished.2 inProgress
    have slot : (imports'.get (σ o.index)).slot? =
        some ((imports.get o.index).module, target.name.name) := by
      rw [rearranged.get]
      exact resolves.slot
    obtain ⟨o', mem', index, _, _, _, resolves'⟩ :=
      h'.exists_resolves (missing.settled _ slot other)
    obtain ⟨binding', isFound'⟩ :=
      (alike o mem o' mem' index resolves resolves' p.1 p.2.1).mp ⟨p.2.2, isFound⟩
    obtain ⟨sameImport, sameTarget⟩ := rearranged.same index resolves resolves'
    rcases h'.alike_of_found mem' resolves' isFound' with refuses | ⟨_, bound', -⟩
    · rw [sameImport, rearranged.tree] at refuses
      exact takes refuses
    · rw [sameImport, sameTarget, free'] at bound'
      cases bound'

/-- Two such moments, when the same import is in progress in both runs. -/
theorem Partway.abreast (h : Partway labels imports start e earlier t)
    (h' : Partway labels imports' start' e' earlier' t')
    (rearranged : Rearranged imports start imports' start' σ)
    (alike : FindAlike imports imports' σ earlier earlier')
    (carried : Carried start.defs t e e')
    (inProgress : t.statusOf i = .inProgress) (inProgress' : t'.statusOf (σ i) = .inProgress) :
    Abreast labels start.defs imports i t e imports' (σ i) t' e' where
  inOrder := h.inOrder
  inOrder' := h'.inOrder
  later := h.toEnd
  later' := h'.toEnd
  module? id := by
    rw [h'.sinceStart.defs.module?, h.sinceStart.defs.module?, rearranged.defs]
  around module := by
    rw [h'.sinceStart.tree.around, h.sinceStart.tree.around, rearranged.tree]
  parent {module m m'} got got' := by
    obtain ⟨m₀, _, found₀, rfl⟩ := h.sinceStart.tree.module_of (ModuleTree.find?_of_get got)
    obtain ⟨m₁, _, found₁, rfl⟩ := h'.sinceStart.tree.module_of (ModuleTree.find?_of_get got')
    rw [rearranged.tree, found₀] at found₁
    cases found₁
    rfl
  enclosing {module next next'} enclosing enclosing' := by
    have known : start.tree.Known module :=
      h.sinceStart.tree.known_iff.mp (ModuleTree.known_of_enclosingMod enclosing)
    obtain ⟨next₀, enclosing₀, -⟩ :=
      Yields.false_iff.mp (h.smooth.inOrder.sound.intact.enclosingMod known)
    have same := h.sinceStart.tree.enclosingMod h.sinceStart.defs_keeps enclosing₀
    rw [← rearranged.tree, ← rearranged.defs] at enclosing₀
    have same' := h'.sinceStart.tree.enclosingMod h'.sinceStart.defs_keeps enclosing₀
    rw [enclosing] at same
    rw [enclosing'] at same'
    cases same
    cases same'
    rfl
  alike {module ns text binding binding'} bound bound' := by
    obtain ⟨b, bound₁, stands⟩ := carried bound
    rw [h'.toEnd.tree_keeps.bound bound'] at bound₁
    cases bound₁
    exact stands
  missed missing := by
    refine h'.not_missing h rearranged.symm alike.symm inProgress' ?_
    rw [Equiv.symm_apply_apply]
    exact missing
  missed' missing := h.not_missing h' rearranged alike inProgress missing

/-- An import finds what it finds in the other run, whenever it comes to its end there. -/
theorem Partway.finds_alike {trail' : List (Occasion n')}
    (h : Partway labels imports start e earlier o.before)
    (h' : Partway labels imports' start' e' trail' e')
    (rearranged : Rearranged imports start imports' start' σ)
    (alike : FindAlike imports imports' σ earlier trail')
    (carried : Carried start.defs o.before e e') (mem' : o' ∈ trail') (same : o'.index = σ o.index)
    (resolves : o.Resolves imports target home found)
    (resolves' : o'.Resolves imports' target' home' found') : SamePlaces found found' := by
  obtain ⟨-, rfl⟩ := rearranged.same same resolves resolves'
  obtain ⟨sooner, subset, before⟩ := h'.before mem'
  have inProgress' := resolves'.inProgress
  have finds' := resolves'.finds
  rw [same] at inProgress' finds'
  have abreast := h.abreast before rearranged (alike.mono subset) carried resolves.inProgress
    inProgress'
  exact resolves.finds.agrees abreast (rearranged.get o.index) finds'

/-- What an import binds in one run it binds in the other one, to what stands for the same: both
    have found it in the same place. -/
theorem Partway.carries {trail' : List (Occasion n')} {source : ModuleId}
    (h : Partway labels imports start e earlier t)
    (h' : Partway labels imports' start' e' trail' e')
    (rearranged : Rearranged imports start imports' start' σ)
    (mem : o ∈ earlier) (mem' : o' ∈ trail') (same : o'.index = σ o.index)
    (resolves : o.Resolves imports target home found)
    (resolves' : o'.Resolves imports' target' home' found')
    (carried : Carried start.defs o.before e e') (alike : SamePlaces found found')
    (isFound : (ns, source, binding) ∈ found)
    (takes : ¬ Refuses start.tree (imports.get o.index).module ns)
    (bound : t.tree.bindingAt? (imports.get o.index).module ns target.name.name = some bound') :
    ∃ b, e'.tree.bindingAt? (imports.get o.index).module ns target.name.name = some b ∧
      bound'.Alike start.defs e.defs e'.defs b := by
  obtain ⟨sameImport, rfl⟩ := rearranged.same same resolves resolves'
  obtain ⟨binding', isFound'⟩ := (alike ns source).mp ⟨binding, isFound⟩
  -- both stand for what they have found, and that stands for the same in both runs
  have own : binding.Alike e.defs e.defs e.defs bound' := by
    rcases h.alike_of_found mem resolves isFound with refuses | ⟨_, bound₁, stands⟩
    · exact absurd refuses takes
    · rw [bound] at bound₁
      cases bound₁
      exact stands
  have across : binding.Alike start.defs e.defs e'.defs binding' := by
    obtain ⟨_, bound₀, stands⟩ := carried (resolves.finds.there _ isFound)
    obtain ⟨_, -, before⟩ := h'.before mem'
    rw [before.toEnd.tree_keeps.bound (resolves'.finds.there _ isFound')] at bound₀
    cases bound₀
    exact stands
  rcases h'.alike_of_found mem' resolves' isFound' with refuses | ⟨b, bound₂, other⟩
  · rw [sameImport, rearranged.tree] at refuses
    exact absurd refuses takes
  · rw [sameImport] at bound₂
    exact ⟨b, bound₂, ((across.trans other).symm.trans own).symm⟩

/-- Import by import, one run finds what the other one finds. -/
theorem Partway.agrees {trail' : List (Occasion n')}
    (h : Partway labels imports start e earlier t)
    (h' : Partway labels imports' start' e' trail' e')
    (rearranged : Rearranged imports start imports' start' σ) :
    FindAlike imports imports' σ earlier trail' ∧ Carried start.defs t e e' := by
  have complete := h
  obtain ⟨smooth, trail, rest⟩ := h
  induction trail with
  | start =>
    refine ⟨fun o mem => absurd mem List.not_mem_nil, fun {module ns text binding} bound => ?_⟩
    have sorted := smooth.inOrder.sound.sorted.bindings bound
    have later := smooth.inOrder.path rest
    have alike := alike_of_sorted smooth.inOrder.sound h'.smooth.inOrder.sound rearranged.defs
      later h'.sinceStart sorted
    rw [← rearranged.tree] at bound
    exact ⟨binding, h'.sinceStart.tree_keeps.bound bound, alike⟩
  | reports soFar others ih =>
    have rest' := (Steps.single (.reports others)).trans rest
    exact ih ⟨smooth, soFar, rest'⟩ rest'
  | @moves soFar i t₀ t trail move ih =>
    have rest' : Steps imports [] t₀ e := (Steps.single (.moves List.not_mem_nil move)).trans rest
    have sofar : Partway labels imports start e soFar t₀ := ⟨smooth, trail, rest'⟩
    obtain ⟨alike, carried⟩ := ih sofar rest'
    have alike' : FindAlike imports imports' σ (soFar ++ [⟨i, t₀, t⟩]) trail' := by
      intro o mem o' mem' same _ _ _ _ _ _ resolves resolves'
      rcases List.mem_append.mp mem with mem | mem
      · exact alike o mem o' mem' same resolves resolves'
      · obtain rfl := List.mem_singleton.mp mem
        exact sofar.finds_alike h' rearranged alike carried mem' same resolves resolves'
    refine ⟨alike', fun {module ns text binding} bound => ?_⟩
    cases before : t₀.tree.bindingAt? module ns text with
    | some b =>
      rw [(sofar.inOrder.move move).tree_keeps.bound before] at bound
      cases bound
      exact carried before
    | none =>
      obtain ⟨-, rfl, takes, _, _, _, resolves, rfl, ⟨_, source, _⟩, isFound, rfl⟩ :=
        move.exists_resolves sofar.inOrder (smooth.single i) before bound
      have mem : (⟨i, t₀, t⟩ : Occasion n) ∈ soFar ++ [⟨i, t₀, t⟩] :=
        List.mem_append_right _ (List.mem_singleton_self _)
      obtain ⟨o', mem', same, _, _, _, resolves'⟩ := h'.exists_resolves (h'.smooth.finished (σ i))
      exact complete.carries h' rearranged mem mem' same resolves resolves' carried
        (alike' _ mem o' mem' same resolves resolves') isFound
        (fun refuses => takes (refuses.grows sofar.sinceStart.tree)) bound

end Importing

open Importing

theorem smooth_of_resolveImports {program : Program} {built : DeclareState}
    {log log' : Log} (declared : declareProgram .empty .new program log = .ok built log')
    {directives : List Directive} (reordered : directives.Perm built.directives)
    (noGlobs : ∀ d ∈ built.directives, d.isGlob = false) {lint : Bool}
    {s : ImportState directives.length} {log₀ log₁ : Log}
    (run : resolveImports built.defs built.tree lint directives log₀ = .ok s log₁)
    (noErrors : hasErrors s.diagnostics = false) :
    Smooth program.DeclaresFunc (Imports.ofList directives lint) (.start _ built.defs built.tree)
      s := by
  obtain ⟨inOrder, goes⟩ := resolveImports_goes declared reordered run
  have single (i : Fin directives.length) : (directives.get i).isGlob = false :=
    noGlobs _ (reordered.mem_iff.mp (List.get_mem directives i))
  refine ⟨inOrder, ImportState.statusOf_start built.defs built.tree, single, fun i => ?_, noErrors⟩
  obtain ⟨opened, closed⟩ := finished_of_resolveImports inOrder run i
  -- who fails is reported
  have notFailed : ¬ (s.statusOf i = .failed ∨ s.statusOf i = .cycleFailed) := by
    intro failed
    rw [goes.course.reported i failed] at noErrors
    cases noErrors
  cases status : s.statusOf i with
  | pending => exact absurd status opened
  | inProgress => exact absurd status closed
  | done source => exact ⟨source, rfl⟩
  | failed => exact absurd (.inl status) notFailed
  | cycleFailed => exact absurd (.inr status) notFailed

/-- Each directive of one order is one of the other order. -/
theorem exists_rearranged {directives directives' : List Directive}
    (reordered : directives.Perm directives') (lint : Bool) (defs : Definitions)
    (tree : ModuleTree) :
    ∃ σ, Rearranged (Imports.ofList directives lint) (.start _ defs tree)
      (Imports.ofList directives' lint) (.start _ defs tree) σ := by
  let σ : Fin directives.length ≃ Fin directives'.length :=
    ⟨reordered.idxBij, reordered.symm.idxBij, reordered.idxBij_rightInverse_idxBij_symm,
      reordered.idxBij_leftInverse_idxBij_symm⟩
  exact ⟨σ, fun i => reordered.getElem_idxBij_eq_getElem i, rfl, rfl⟩

/-- Over what the first pass makes of any program without globs, and with its imports in any two
    orders: if neither run of the import phase reports an error, each name is bound in both or in
    neither, to what stands for the same declared definition, or else to functions in both. -/
theorem import_order_is_immaterial {program : Program} {built : DeclareState}
    {log log' : Log} (declared : declareProgram .empty .new program log = .ok built log')
    (noGlobs : ∀ d ∈ built.directives, d.isGlob = false)
    {directives directives' : List Directive} (reordered : directives.Perm built.directives)
    (reordered' : directives'.Perm built.directives) {lint : Bool}
    {s : ImportState directives.length} {s' : ImportState directives'.length}
    {log₀ log₁ log₀' log₁' : Log}
    (run : resolveImports built.defs built.tree lint directives log₀ = .ok s log₁)
    (run' : resolveImports built.defs built.tree lint directives' log₀' = .ok s' log₁')
    (noErrors : hasErrors s.diagnostics = false) (noErrors' : hasErrors s'.diagnostics = false)
    (module : ModuleId) (ns : Namespace) (name : String) :
    Option.Rel (Binding.Alike built.defs s.defs s'.defs) (s.tree.bindingAt? module ns name)
      (s'.tree.bindingAt? module ns name) := by
  obtain ⟨-, goes⟩ := resolveImports_goes declared reordered run
  obtain ⟨-, goes'⟩ := resolveImports_goes declared reordered' run'
  obtain ⟨trail, trails⟩ := goes.steps.exists_trail
  obtain ⟨trail', trails'⟩ := goes'.steps.exists_trail
  have smooth := smooth_of_resolveImports declared reordered noGlobs run noErrors
  have smooth' := smooth_of_resolveImports declared reordered' noGlobs run' noErrors'
  have whole : Partway _ _ _ s trail s := ⟨smooth, trails, .refl s⟩
  have whole' : Partway _ _ _ s' trail' s' := ⟨smooth', trails', .refl s'⟩
  obtain ⟨σ, rearranged⟩ :=
    exists_rearranged (reordered.trans reordered'.symm) lint built.defs built.tree
  obtain ⟨-, carried⟩ := whole.agrees whole' rearranged
  obtain ⟨-, carried'⟩ := whole'.agrees whole rearranged.symm
  cases bound : s.tree.bindingAt? module ns name with
  | some binding =>
    obtain ⟨binding', bound', alike⟩ := carried bound
    rw [bound']
    exact .some alike
  | none =>
    cases bound' : s'.tree.bindingAt? module ns name with
    | none => exact .none
    | some binding' =>
      obtain ⟨binding, same, -⟩ := carried' bound'
      rw [bound] at same
      cases same

/-- An import shadows the name that it starts from, and waits for a later one:

        mod a { use x::x; }
        mod x { pub use ::b::x; }
        mod b { pub struct x; } -/
def shadowing : Program :=
  ⟨⟨0⟩, ⟨0, 9⟩,
    [.mod ⟨⟨1⟩, true, ⟨1, 1⟩⟩ ⟨"a", ⟨1, 1⟩⟩
      [.useDecl ⟨⟨2⟩, false, ⟨2, 1⟩⟩
        (.path ⟨3⟩ ⟨3, 1⟩ ⟨false, [⟨.name "x", ⟨3, 1⟩⟩, ⟨.name "x", ⟨3, 1⟩⟩]⟩ none)],
    .mod ⟨⟨4⟩, true, ⟨4, 1⟩⟩ ⟨"x", ⟨4, 1⟩⟩
      [.useDecl ⟨⟨5⟩, true, ⟨5, 1⟩⟩
        (.path ⟨6⟩ ⟨6, 1⟩ ⟨true, [⟨.name "b", ⟨6, 1⟩⟩, ⟨.name "x", ⟨6, 1⟩⟩]⟩ none)],
    .mod ⟨⟨7⟩, true, ⟨7, 1⟩⟩ ⟨"b", ⟨7, 1⟩⟩ [.struct ⟨⟨8⟩, true, ⟨8, 1⟩⟩ ⟨"x", ⟨8, 1⟩⟩ [] []]]⟩

theorem import_order_is_immaterial_shadowing :
    ∃ built log', declareProgram .empty .new shadowing .empty = .ok built log' ∧
      (∀ d ∈ built.directives, d.isGlob = false) ∧ built.directives.length = 2 ∧
      ∃ s log₁ s' log₁', resolveImports built.defs built.tree true built.directives .empty =
          .ok s log₁ ∧
        resolveImports built.defs built.tree true built.directives.reverse .empty = .ok s' log₁' ∧
        hasErrors s.diagnostics = false ∧ hasErrors s'.diagnostics = false ∧
        (s.tree.bindingAt? ⟨1⟩ .type "x").isSome ∧
        ∀ module ns name, Option.Rel (Binding.Alike built.defs s.defs s'.defs)
          (s.tree.bindingAt? module ns name) (s'.tree.bindingAt? module ns name) := by
  let reversed (built : DeclareState) : Bool :=
    (resolveImports built.defs built.tree true built.directives.reverse).passes .empty fun s' =>
      !hasErrors s'.diagnostics
  obtain ⟨built, log', declared, s, log₁, run, checked⟩ := exists_resolved_of_check shadowing
    (fun built s => built.directives.all (fun d => !d.isGlob) && built.directives.length == 2 &&
      !hasErrors s.diagnostics && (s.tree.bindingAt? ⟨1⟩ .type "x").isSome && reversed built)
    (by decide +kernel)
  simp only [Bool.and_eq_true, List.all_eq_true, Bool.not_eq_true', beq_iff_eq] at checked
  obtain ⟨⟨⟨⟨noGlobs, two⟩, noErrors⟩, isBound⟩, others⟩ := checked
  obtain ⟨s', log₁', run', noErrors'⟩ := Logged.exists_of_check others
  rw [Bool.not_eq_true'] at noErrors'
  exact ⟨built, log', declared, noGlobs, two, s, log₁, s', log₁', run, run', noErrors, noErrors',
    isBound, import_order_is_immaterial declared noGlobs (.refl _) (List.reverse_perm _) run run'
      noErrors noErrors'⟩

end NameResolution
