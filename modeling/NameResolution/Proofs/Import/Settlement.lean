import NameResolution.Proofs.Import.Balance
import NameResolution.Proofs.Import.Precedence

/-! # No import fails silently

    When all imports have been resolved each of them is done, or has failed and
    is reported, or leads back to a cycle that is reported. Only those that are
    done have made anything. A single import that is done has its name bound
    wherever it has found something, and where the name was taken it has said
    so: once for each namespace, and of functions once for each suffix. -/

namespace NameResolution

variable {n : Nat} {labels : NodeId → String → Prop} {imports : Imports n}
  {start s s' : ImportState n} {directive : Directive} {name : Ident} {ns : Namespace}
  {source module : ModuleId} {binding : Binding} {suffix : String}
  {found : List (Namespace × ModuleId × Binding)} {id : DefId}

/-- What an import finds held by something else when it binds one of the things it has found: its
    name, or a suffix where functions meet those of another set. -/
inductive Held (defs : Definitions) (tree : ModuleTree) (directive : Directive) (name : Ident) :
    Namespace × ModuleId × Binding → String → Prop where
  | name {ns : Namespace} {source : ModuleId} {binding first : Binding}
      (takes : ¬ Importing.Refuses tree directive.module ns)
      (bound : tree.bindingAt? directive.module ns name.name = some first)
      (clash : ∀ f g, first = .overloads f → binding ≠ .overloads g) :
      Held defs tree directive name (ns, source, binding) ""
  | suffix {source : ModuleId} {f g : OverloadId} {suffix : String} {member first : DefId}
      (bound : tree.bindingAt? directive.module .value name.name = some (.overloads f))
      (apart : f ≠ g) (offered : defs.member? g suffix = some member)
      (may : Importing.MayTake defs tree directive source g member)
      (taken : defs.member? f suffix = some first) :
      Held defs tree directive name (.value, source, .overloads g) suffix

/-- It is reported at a name that the name, with a suffix perhaps, is taken. -/
def ReportsHeld (name : Ident) (held : Namespace × String) (d : Diagnostic) : Prop :=
  ∃ previous kind, d = .redefinition (name.name ++ held.2) name.span previous kind

namespace Importing

/-! ## Reports -/

theorem reportsHeld_of_redefinition {defs : Definitions} {first : Binding} {d : Diagnostic}
    (ns : Namespace)
    (reported : redefinition defs (name.name ++ suffix) name.span first = .ok d) :
    ReportsHeld name (ns, suffix) d := by
  cases first with
  | definition _ | imported _ | overloads _ =>
    obtain ⟨_, -, last⟩ := Except.bind_eq_ok.mp reported
    cases last
    exact ⟨_, _, rfl⟩

theorem filter_reports {reports : List Diagnostic} {held : List (Namespace × String)}
    (h : List.Forall₂ (ReportsHeld name) held reports) :
    reports.filter (·.isRedefinition) = reports := by
  apply List.filter_eq_self.mpr
  intro d mem
  obtain ⟨k, lt, rfl⟩ := List.getElem_of_mem mem
  obtain ⟨previous, kind, eq⟩ := h.get (by rw [h.length_eq]; exact lt) lt
  rw [List.get_eq_getElem] at eq
  rw [eq]
  rfl

/-- From outside, what an import may take is `pub` if anything in the set is. -/
theorem MayTake.isPub {defs : Definitions} {tree : ModuleTree} {g : OverloadId} {member : DefId}
    (may : MayTake defs tree directive source g member) {inside pub : Bool}
    (within : tree.isWithin directive.module source = .ok inside)
    (isPub : isPub defs (.overloads g) = .ok pub) (stocked : defs.Stocked g)
    (only : (!inside && pub) = true) : defs.isPub member = .ok true := by
  obtain ⟨outside, somePub⟩ := (Bool.and_eq_true _ _).mp only
  rcases may with isWithin | memberPub | ⟨-, nonePub⟩
  · rw [isWithin] at within
    cases within
    cases outside
  · exact memberPub
  · obtain ⟨members, _, _, held, -⟩ := stocked
    subst somePub
    obtain ⟨⟨suffix, other⟩, mem, otherPub⟩ := Definitions.exists_isPub held isPub
    have mem := Definitions.member?_eq_some.mpr ⟨members, held, OverloadSet.mem_toList.mp mem⟩
    rw [nonePub suffix other mem] at otherPub
    cases otherPub

/-- Whatever is held in the way of one thing that an import binds is reported. -/
theorem Outcome.reportsHeld {inside pub : Bool}
    (outcome : Outcome directive ns name (!inside && pub) s binding s')
    (sorted : binding.Sorted s.defs ns)
    (within : s.tree.isWithin directive.module source = .ok inside)
    (isPub : Importing.isPub s.defs binding = .ok pub) :
    ∃ held reports, s'.diagnostics = s.diagnostics ++ reports ∧
      List.Forall₂ (ReportsHeld name) held reports ∧
      ∀ suffix, Held s.defs s.tree directive name (ns, source, binding) suffix →
        (ns, suffix) ∈ held := by
  have whole : name.name = name.name ++ "" := String.append_empty.symm
  have nothing (none : ∀ suffix,
      ¬ Held s.defs s.tree directive name (ns, source, binding) suffix) :
      ∃ held reports, s.diagnostics = s.diagnostics ++ reports ∧
        List.Forall₂ (ReportsHeld name) held reports ∧
        ∀ suffix, Held s.defs s.tree directive name (ns, source, binding) suffix →
          (ns, suffix) ∈ held :=
    ⟨[], [], (List.append_nil _).symm, .nil, fun _ h => absurd h (none _)⟩
  cases outcome with
  | refused found lifetime block =>
    refine nothing fun suffix h => ?_
    cases h with
    | name takes _ _ => exact takes ⟨lifetime, _, found, block⟩
    | suffix _ _ _ _ _ => cases lifetime
  | aliased names _ _ _ free =>
    refine nothing fun suffix h => ?_
    cases h with
    | name _ bound _ =>
      rw [free] at bound
      cases bound
    | suffix _ _ _ _ _ => rcases names with names | names <;> cases names
  | opened free _ =>
    obtain ⟨rfl, -⟩ := sorted
    refine nothing fun suffix h => ?_
    cases h with
    | name _ bound _ | suffix bound _ _ _ _ =>
      rw [free] at bound
      cases bound
  | aliasTaken names _ _ reported =>
    rw [whole] at reported
    refine ⟨[(ns, "")], _, rfl, .cons (reportsHeld_of_redefinition ns reported) .nil, ?_⟩
    intro suffix h
    cases h with
    | name _ _ _ => exact List.mem_singleton_self _
    | suffix _ _ _ _ _ => rcases names with names | names <;> cases names
  | blocked taken other reported =>
    obtain ⟨rfl, -⟩ := sorted
    rw [whole] at reported
    refine ⟨[(.value, "")], _, rfl, .cons (reportsHeld_of_redefinition .value reported) .nil, ?_⟩
    intro suffix h
    cases h with
    | name _ _ _ => exact List.mem_singleton_self _
    | suffix bound _ _ _ _ =>
      rw [taken] at bound
      exact absurd (Option.some.inj bound) (other _)
  | @joined g f merged taken defs reports there made reported =>
    obtain ⟨rfl, stocked⟩ := sorted
    refine ⟨taken.map fun t => (.value, t.1), reports, rfl, ?_, fun suffix h => ?_⟩
    · rw [List.forall₂_map_left_iff]
      exact reported.imp fun t report => reportsHeld_of_redefinition .value
    · cases h with
      | name _ bound clash =>
        rw [there] at bound
        exact absurd rfl (clash f g (Option.some.inj bound).symm)
      | suffix bound apart offered may held =>
        rw [there] at bound
        cases bound
        obtain ⟨t, mem, rfl⟩ := Yields.true_iff.mp (Definitions.importOverloads_returns apart) _
          made _ _ _ offered (may.isPub within isPub stocked) held
        exact List.mem_map.mpr ⟨t, mem, rfl⟩

/-- What is held in the way of something else is held still when the first has been bound. -/
theorem Brings.held {p : Namespace × ModuleId × Binding}
    (brings : Brings directive name ns source binding s s') (later : Later labels s s')
    (sorted : binding.Sorted s.defs ns) (h : Held s.defs s.tree directive name p suffix) :
    Held s'.defs s'.tree directive name p suffix := by
  cases h with
  | name takes bound clash =>
    exact .name (fun refuses => takes (refuses.of_grows later.tree)) (later.tree_keeps.bound bound)
      clash
  | @suffix source' f g _ member first bound apart offered may taken =>
    -- nothing has joined the functions that are offered, as the name has others
    have notOffered : s.tree.bindingAt? directive.module .value name.name ≠
        some (.overloads g) := by
      rw [bound]
      rintro ⟨⟩
      exact apart rfl
    have same := brings.member?_eq sorted (Definitions.stocked_iff.mpr ⟨_, _, offered⟩)
      fun _ => notOffered
    refine .suffix (later.tree_keeps.bound bound) apart (later.defs_keeps.member? offered) ?_
      (later.defs_keeps.member? taken)
    rcases may with isWithin | memberPub | ⟨single, nonePub⟩
    · exact .inl (later.tree.isWithin isWithin)
    · exact .inr (.inl (later.defs_keeps.isPub memberPub))
    · refine .inr (.inr ⟨single, fun suffix' other mem => ?_⟩)
      rw [same] at mem
      exact later.defs_keeps.isPub (nonePub suffix' other mem)

/-- Whatever is held in the way of the things that an import binds is reported, each of it once. -/
theorem BringsAll.reportsHeld (brings : BringsAll directive name found s s')
    (prepared : Prepared labels directive found s) :
    ∃ held more, s'.diagnostics = s.diagnostics ++ more ∧
      List.Forall₂ (ReportsHeld name) held (more.filter (·.isRedefinition)) ∧
      ∀ p ∈ found, ∀ suffix, Held s.defs s.tree directive name p suffix → (p.1, suffix) ∈ held := by
  induction brings with
  | nil => exact ⟨[], [], (List.append_nil _).symm, .nil, List.forall_mem_nil _⟩
  | @cons ns source binding others s s₁ s' first rest ih =>
    have sorted := prepared.sorted _ (List.mem_cons_self ..)
    obtain ⟨later, prepared'⟩ := prepared.first first
    obtain ⟨held', more', eq', reports', all'⟩ := ih prepared'
    have brings := first
    obtain @⟨inside, pub, warnings, within, isPub, noRedefinition, outcome⟩ := first
    obtain ⟨held, reports, eq, reported, all⟩ := outcome.reportsHeld sorted within isPub
    refine ⟨held ++ held', warnings ++ reports ++ more', ?_, ?_, fun p mem suffix h => ?_⟩
    · rw [eq', eq, List.append_assoc, List.append_assoc, List.append_assoc]
    · have none : warnings.filter (·.isRedefinition) = [] := by
        apply List.filter_eq_nil_iff.mpr
        intro d mem
        simp [noRedefinition d mem]
      rw [List.filter_append, List.filter_append, none, List.nil_append, filter_reports reported]
      exact List.rel_append reported reports'
    · rcases List.mem_cons.mp mem with rfl | mem
      · exact List.mem_append_left _ (all suffix h)
      · exact List.mem_append_right _ (all' p mem suffix (brings.held later sorted h))

/-! ## What is made -/

theorem BringsAll.addsAt (brings : BringsAll directive name found s s') :
    Definitions.AddsAt directive.node s.defs s'.defs := by
  induction brings with
  | nil => exact .refl _ _
  | cons first _ ih =>
    obtain ⟨_, _, _, outcome⟩ := first
    exact outcome.addsAt.trans ih

/-- A directive makes whatever it makes at its own node. -/
theorem Move.addsAt {i : Fin n} (move : Move imports i s s') :
    Definitions.AddsAt (imports.get i).node s.defs s'.defs := by
  cases move with
  | opens _ => exact .refl _ _
  | fails _ _ => exact .refl _ _
  | reads _ _ => exact .refl _ _
  | binds _ _ _ brings => exact brings.addsAt
  | spreads _ _ _ _ _ _ brings =>
    obtain ⟨_, _, _, outcome⟩ := brings
    exact outcome.addsAt

/-- Only who is done has made anything. -/
theorem Move.done_of_new {i : Fin n} (move : Move imports i s s') (unknown : ¬ s.defs.Known id)
    (known : s'.defs.Known id) : ∃ source, s'.statusOf i = .done source := by
  cases move with
  | opens _ => exact absurd known unknown
  | fails _ _ => exact absurd known unknown
  | reads _ _ => exact absurd known unknown
  | binds _ _ _ _ => exact ⟨none, ImportState.statusOf_withStatus_self ..⟩
  | spreads _ done _ _ _ _ brings => exact ⟨_, by rw [brings.statusOf, done]⟩

end Importing

theorem Definitions.AddsAt.node_of_new {node : NodeId} {defs defs' : Definitions}
    (h : Definitions.AddsAt node defs defs') (unknown : ¬ defs.Known id) (known : defs'.Known id) :
    ∃ d, defs'.find? id = some d ∧ d.node = node := by
  obtain ⟨added, eq, at_node⟩ := h
  obtain ⟨d, found⟩ := known.find?
  refine ⟨d, found, at_node d ?_⟩
  have listed : defs'.toList[id.index]? = some d := by
    rw [Definitions.toList, Array.getElem?_toList]
    exact found
  rw [eq, List.getElem?_append_right] at listed
  · exact List.mem_of_getElem? listed
  · rw [Definitions.toList, Array.length_toList]
    exact Nat.le_of_not_lt unknown

/-! ## On the trail -/

open Importing

/-- What the imports have come to when all of them have been resolved, on a trail that leads
    there. -/
structure Settlement (imports : Imports n) (start : ImportState n) (trail : List (Occasion n))
    (s : ImportState n) : Prop where
  finished : ∀ i, (∃ source, s.statusOf i = .done source) ∨ s.statusOf i = .failed ∨
    s.statusOf i = .cycleFailed
  /-- The reports about paths that lead nowhere and the directives that have failed are in one to
      one correspondence -/
  unresolved : ∃ failed : List (Fin n), failed.Nodup ∧
    (∀ i, i ∈ failed ↔ s.statusOf i = .failed) ∧ ReportsFailures imports s.diagnostics failed
  cyclic : ∀ i, s.statusOf i = .cycleFailed → ∃ d ∈ s.diagnostics, d.isImportCycle = true
  /-- Whatever is new has been made by a directive that is done, and at its node -/
  made : ∀ id, ¬ start.defs.Known id → s.defs.Known id → ∃ o ∈ trail, o.Makes id ∧
    (∃ source, s.statusOf o.index = .done source) ∧
    ∃ d, s.defs.find? id = some d ∧ d.node = (imports.get o.index).node
  /-- Who has failed has made nothing -/
  idle : ∀ i, s.statusOf i = .failed ∨ s.statusOf i = .cycleFailed →
    ∀ o ∈ trail, o.index = i → ∀ id, ¬ o.Makes id
  /-- A single import that is done has come to its end on some occasion -/
  resolved : ∀ i source, (imports.get i).isGlob = false → s.statusOf i = .done source →
    ∃ o ∈ trail, o.index = i ∧ ∃ target module found, o.Resolves imports target module found
  /-- Where it has found something its name is bound -/
  bound : ∀ o ∈ trail, ∀ target module found, o.Resolves imports target module found →
    ∀ p ∈ found, Refuses s.tree (imports.get o.index).module p.1 ∨
      ∃ binding, s.tree.bindingAt? (imports.get o.index).module p.1 target.name.name = some binding
  /-- And whatever it has found held on that occasion it has reported, each of it once -/
  held : ∀ o ∈ trail, ∀ target module found, o.Resolves imports target module found →
    ∃ held more later, s.diagnostics = o.before.diagnostics ++ more ++ later ∧
      List.Forall₂ (ReportsHeld target.name) held (more.filter (·.isRedefinition)) ∧
      ∀ p ∈ found, ∀ suffix,
        Held o.before.defs o.before.tree (imports.get o.index) target.name p suffix →
          (p.1, suffix) ∈ held

variable {trail : List (Occasion n)} {o : Occasion n} {target : ImportTarget}

namespace Trail

/-- Whatever is new has been made on some occasion. -/
theorem exists_makes (h : Trail imports start trail s) (unknown : ¬ start.defs.Known id)
    (known : s.defs.Known id) : ∃ o ∈ trail, o.Makes id := by
  induction h with
  | start => exact absurd known unknown
  | @moves trail i s s' _ move ih =>
    by_cases before : s.defs.Known id
    · obtain ⟨o, mem, makes⟩ := ih before
      exact ⟨o, List.mem_append_left _ mem, makes⟩
    · exact ⟨⟨i, s, s'⟩, List.mem_append_right _ (List.mem_singleton_self _), before, known⟩
  | reports _ _ ih => exact ih known

/-- Who has made something is done, and is so in the end. -/
theorem done_of_makes (h : Trail imports start trail s) (mem : o ∈ trail) (makes : o.Makes id) :
    ∃ source, s.statusOf o.index = .done source := by
  obtain ⟨source, done⟩ := (h.move mem).done_of_new makes.1 makes.2
  refine ⟨source, ?_⟩
  rw [(h.after mem).statusOf_of_finished ⟨by simp [done], by simp [done]⟩, done]

theorem node_of_makes (h : Trail imports start trail s) (inOrder : InOrder labels imports start)
    (mem : o ∈ trail) (makes : o.Makes id) :
    ∃ d, s.defs.find? id = some d ∧ d.node = (imports.get o.index).node := by
  obtain ⟨d, found, node⟩ := (h.move mem).addsAt.node_of_new makes.1 makes.2
  have later := (h.inOrder_after inOrder mem).path (h.after mem)
  exact ⟨d, later.defs_keeps.defined found, node⟩

/-- On the occasion on which a single import comes to its end it reports whatever is held in its
    way. -/
theorem reports_held (h : Trail imports start trail s) (inOrder : InOrder labels imports start)
    (mem : o ∈ trail) (resolves : o.Resolves imports target module found) :
    ∃ held more later, s.diagnostics = o.before.diagnostics ++ more ++ later ∧
      List.Forall₂ (ReportsHeld target.name) held (more.filter (·.isRedefinition)) ∧
      ∀ p ∈ found, ∀ suffix,
        Held o.before.defs o.before.tree (imports.get o.index) target.name p suffix →
          (p.1, suffix) ∈ held := by
  have prepared := (h.inOrder_before inOrder mem).prepared resolves.finds
  obtain ⟨s₁, brings, eq⟩ := resolves.brings
  obtain ⟨held, more, own, reports, all⟩ := brings.reportsHeld prepared
  obtain ⟨later, rest⟩ := (h.after mem).diagnostics
  have same : o.after.diagnostics = s₁.diagnostics := by
    rw [eq]
    rfl
  exact ⟨held, more, later, by rw [rest, same, own], reports, all⟩

theorem settlement (h : Trail imports start trail s) (inOrder : InOrder labels imports start)
    (pending : ∀ i, start.statusOf i = .pending) (finished : ∀ i, s.Finished i)
    (balanced : Balanced imports s) : Settlement imports start trail s where
  finished i := by
    obtain ⟨opened, closed⟩ := finished i
    cases status : s.statusOf i with
    | pending => exact absurd status opened
    | inProgress => exact absurd status closed
    | done source => exact .inl ⟨source, rfl⟩
    | failed => exact .inr (.inl rfl)
    | cycleFailed => exact .inr (.inr rfl)
  unresolved := balanced.failed
  cyclic := balanced.cyclic
  made id unknown known := by
    obtain ⟨o, mem, makes⟩ := h.exists_makes unknown known
    exact ⟨o, mem, makes, h.done_of_makes mem makes, h.node_of_makes inOrder mem makes⟩
  idle := by
    rintro i failed o mem rfl id makes
    obtain ⟨source, done⟩ := h.done_of_makes mem makes
    rw [done] at failed
    rcases failed with failed | failed <;> cases failed
  resolved i source single done := h.exists_resolves pending single done
  bound o mem target module found resolves p isFound := by
    rcases h.bound_of_resolves inOrder mem resolves isFound with refuses | ⟨binding, bound, -⟩
    · exact .inl refuses
    · exact .inr ⟨binding, bound⟩
  held o mem target module found resolves := h.reports_held inOrder mem resolves

end Trail

/-! ## The whole phase -/

/-- Over what the first pass makes of any program, and with its imports in any order: the import
    phase goes through and leaves a trail, and on each that leads to its result no import has
    failed silently. -/
theorem no_import_fails_silently {program : Program} {built : DeclareState}
    {log log' : Log} (declared : declareProgram .empty .new program log = .ok built log')
    {directives : List Directive} (reordered : directives.Perm built.directives) (lint : Bool)
    (log₀ : Log) :
    ∃ s log₁, resolveImports built.defs built.tree lint directives log₀ = .ok s log₁ ∧
      (∃ trail, Trail (Imports.ofList directives lint) (.start _ built.defs built.tree) trail s) ∧
      ∀ trail, Trail (Imports.ofList directives lint) (.start _ built.defs built.tree) trail s →
        Settlement (Imports.ofList directives lint) (.start _ built.defs built.tree) trail s := by
  obtain ⟨s, log₁, run⟩ := exists_resolved declared reordered lint log₀
  obtain ⟨inOrder, goes⟩ := resolveImports_goes declared reordered run
  refine ⟨s, log₁, run, goes.steps.exists_trail, fun trail h => ?_⟩
  exact h.settlement inOrder (ImportState.statusOf_start built.defs built.tree)
    (finished_of_resolveImports inOrder run) (balanced_of_resolveImports run)

/-- Imports of a name that is taken, of a function whose suffix is taken, of a name that is missing,
    and of two names that lead to each other:

        mod a { pub struct x; pub func f(); }
        mod b { struct x; func f(); use super::a::x; use super::a::f; use super::a::y; }
        mod c { use super::d::z; }
        mod d { use super::c::z; } -/
def mixedEndings : Program :=
  ⟨⟨0⟩, ⟨0, 24⟩,
    [.mod ⟨⟨1⟩, true, ⟨1, 1⟩⟩ ⟨"a", ⟨1, 1⟩⟩
      [.struct ⟨⟨2⟩, true, ⟨2, 1⟩⟩ ⟨"x", ⟨2, 1⟩⟩ [] [],
      .func ⟨⟨3⟩, true, ⟨3, 1⟩⟩ .func ⟨"f", ⟨3, 1⟩⟩ [] [] none none],
    .mod ⟨⟨4⟩, true, ⟨4, 1⟩⟩ ⟨"b", ⟨4, 1⟩⟩
      [.struct ⟨⟨5⟩, false, ⟨5, 1⟩⟩ ⟨"x", ⟨5, 1⟩⟩ [] [],
      .func ⟨⟨6⟩, false, ⟨6, 1⟩⟩ .func ⟨"f", ⟨6, 1⟩⟩ [] [] none none,
      .useDecl ⟨⟨7⟩, false, ⟨7, 1⟩⟩ (.path ⟨8⟩ ⟨8, 1⟩
        ⟨false, [⟨.super, ⟨8, 1⟩⟩, ⟨.name "a", ⟨8, 1⟩⟩, ⟨.name "x", ⟨8, 1⟩⟩]⟩ none),
      .useDecl ⟨⟨9⟩, false, ⟨9, 1⟩⟩ (.path ⟨10⟩ ⟨10, 1⟩
        ⟨false, [⟨.super, ⟨10, 1⟩⟩, ⟨.name "a", ⟨10, 1⟩⟩, ⟨.name "f", ⟨10, 1⟩⟩]⟩ none),
      .useDecl ⟨⟨11⟩, false, ⟨11, 1⟩⟩ (.path ⟨12⟩ ⟨12, 1⟩
        ⟨false, [⟨.super, ⟨12, 1⟩⟩, ⟨.name "a", ⟨12, 1⟩⟩, ⟨.name "y", ⟨12, 1⟩⟩]⟩ none)],
    .mod ⟨⟨13⟩, true, ⟨13, 1⟩⟩ ⟨"c", ⟨13, 1⟩⟩
      [.useDecl ⟨⟨14⟩, false, ⟨14, 1⟩⟩ (.path ⟨15⟩ ⟨15, 1⟩
        ⟨false, [⟨.super, ⟨15, 1⟩⟩, ⟨.name "d", ⟨15, 1⟩⟩, ⟨.name "z", ⟨15, 1⟩⟩]⟩ none)],
    .mod ⟨⟨16⟩, true, ⟨16, 1⟩⟩ ⟨"d", ⟨16, 1⟩⟩
      [.useDecl ⟨⟨17⟩, false, ⟨17, 1⟩⟩ (.path ⟨18⟩ ⟨18, 1⟩
        ⟨false, [⟨.super, ⟨18, 1⟩⟩, ⟨.name "c", ⟨18, 1⟩⟩, ⟨.name "z", ⟨18, 1⟩⟩]⟩ none)]]⟩

theorem no_import_fails_silently_of_mixedEndings :
    ∃ built log', declareProgram .empty .new mixedEndings .empty = .ok built log' ∧
      ∃ s log₁, resolveImports built.defs built.tree true built.directives .empty = .ok s log₁ ∧
        s.statuses.toList = [.done none, .done none, .failed, .cycleFailed, .cycleFailed] ∧
        (∃ trail, Trail (Imports.ofList built.directives true)
          (.start _ built.defs built.tree) trail s) ∧
        ∀ trail, Trail (Imports.ofList built.directives true)
            (.start _ built.defs built.tree) trail s →
          Settlement (Imports.ofList built.directives true)
            (.start _ built.defs built.tree) trail s := by
  obtain ⟨built, log', declared, s, log₁, run, rest⟩ := exists_resolved_of_check mixedEndings
    (fun _ s => decide (s.statuses.toList =
      [.done none, .done none, .failed, .cycleFailed, .cycleFailed])) (by decide +kernel)
  obtain ⟨s', log₂, run', settled⟩ :=
    no_import_fails_silently declared (List.Perm.refl _) true .empty
  rw [run] at run'
  cases run'
  exact ⟨built, log', declared, s, log₁, run, of_decide_eq_true rest, settled⟩

end NameResolution
