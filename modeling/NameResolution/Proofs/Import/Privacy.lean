import NameResolution.Proofs.Import.Trail
import NameResolution.Proofs.Resolution.Warnings

/-! # Private items that imports reach

    The path of an import is linted at its end. What a single import finds in
    the module that its path leads to is checked as the last segment of any
    other path is. What it meets on the way there is not checked at all: it
    reaches through a private module without a word, where the same path in the
    second pass is warned of that module. -/

namespace NameResolution

variable {n : Nat} {labels : NodeId → String → Prop} {imports : Imports n}
  {start s s' : ImportState n} {i : Fin n} {ns : Namespace} {source : ModuleId}
  {binding : Binding} {d : Diagnostic}

/-- Whatever is bound stands for something. -/
theorem Binding.Good.exists_refers {defs : Definitions} (good : binding.Good defs ns) :
    ∃ id, binding.Refers defs id := by
  cases binding with
  | definition id | imported id => exact ⟨id, rfl⟩
  | overloads set =>
    obtain ⟨suffix, id, mem⟩ := Definitions.stocked_iff.mp good.1
    exact ⟨id, suffix, mem⟩

namespace Importing

/-- An import is outside of something that is not `pub` if it trespasses on all that the name
    stands for. -/
theorem Flagged.of_trespasses {config : Config} {directive : Directive} {text : String}
    (valid : s.defs.Valid) (good : binding.Good s.defs ns)
    (trespasses : ∀ id, binding.Refers s.defs id →
      Tables.Trespasses ⟨s.defs, s.tree, config⟩ directive.module source id
        ⟨text, directive.span⟩ d) (linted : imports.lintPrivateAccess = config.lintPrivateAccess) :
    Flagged imports directive text source binding s d := by
  obtain ⟨id, refers⟩ := good.exists_refers
  obtain ⟨lints, outside, -, m, owner, found, named, eq⟩ := trespasses id refers
  refine ⟨linted.trans lints, outside, ?_, m, owner, found, named, eq⟩
  obtain ⟨pub, isPub, -⟩ := Yields.false_iff.mp (valid.isPub good)
  cases pub with
  | false => exact isPub
  | true =>
    -- what makes the whole `pub` cannot be trespassed on
    have visible : ∃ id, binding.Refers s.defs id ∧ s.defs.isPub id = .ok true := by
      cases binding with
      | definition id | imported id => exact ⟨id, rfl, isPub⟩
      | overloads set =>
        obtain ⟨members, got, -⟩ := Except.bind_eq_ok.mp isPub
        have held := Definitions.getElem?_of_overloadSet got
        obtain ⟨⟨suffix, id⟩, mem, visible⟩ := Definitions.exists_isPub held isPub
        exact ⟨id, ⟨suffix, Definitions.member?_eq_some.mpr
          ⟨members, held, OverloadSet.mem_toList.mp mem⟩⟩, visible⟩
    obtain ⟨id, refers, visible⟩ := visible
    have hidden := (trespasses id refers).hidden
    rw [visible] at hidden
    cases hidden

/-- It came to its end on some occasion. -/
theorem Linted.exists_occasion (h : Linted imports start i s) :
    ∃ trail o target module found, Trail imports start trail s ∧ o ∈ trail ∧ o.index = i ∧
      o.Resolves imports target module found ∧ found ≠ [] ∧
      ((target.lead.isEmpty && !(imports.get i).path.global) = false →
        Warned imports (imports.get i) target.last.name found o.after) := by
  obtain @⟨target, module, found, before, after, hasTarget, reached, inProgress, finds, notEmpty,
    brings, warned, since⟩ := h
  obtain ⟨earlier, first⟩ := reached.exists_trail
  obtain ⟨later, whole⟩ := (first.moves (.binds inProgress hasTarget finds brings)).extend since
  exact ⟨_, ⟨i, before, after.withStatus i (.done none)⟩, target, module, found, whole,
    List.mem_append_left _ (List.mem_append_right _ (List.mem_singleton_self _)), rfl,
    ⟨inProgress, hasTarget, finds, after, brings, rfl⟩, notEmpty,
    fun notBare => (warned notBare).withStatus i (.done none)⟩

end Importing

open Importing

/-- Over what the first pass makes of any program, with its imports in any order: a single import
    that is done has come to its end on some occasion, with something that it has found. All that it
    has found in a module, and not outward of itself, is bound there still; and where it trespasses
    on whatever the name stands for there, as the last segment of any other path would, it has been
    warned of that. -/
theorem single_imports_are_linted {program : Program} {built : DeclareState}
    {log log' : Log} (declared : declareProgram .empty .new program log = .ok built log')
    {directives : List Directive} (reordered : directives.Perm built.directives) {config : Config}
    {s : ImportState directives.length} {log₀ log₁ : Log}
    (run : resolveImports built.defs built.tree config.lintPrivateAccess directives log₀ =
      .ok s log₁)
    {i : Fin directives.length} (single : (directives.get i).isGlob = false)
    {source : Option ModuleId} (done : s.statusOf i = .done source) :
    ∃ trail o target module found,
      Trail (Imports.ofList directives config.lintPrivateAccess)
        (.start _ built.defs built.tree) trail s ∧ o ∈ trail ∧ o.index = i ∧
      o.Resolves (Imports.ofList directives config.lintPrivateAccess) target module found ∧
      found ≠ [] ∧
      ((directives.get i).path.global = true ∨ target.lead ≠ [] → ∀ p ∈ found, p.2.1 = module ∧
        s.tree.bindingAt? module p.1 target.last.name = some p.2.2 ∧
        ∀ d, (∀ id, p.2.2.Refers s.defs id →
          Tables.Trespasses ⟨s.defs, s.tree, config⟩ (directives.get i).module module id
            ⟨target.last.name, (directives.get i).span⟩ d) → d ∈ s.diagnostics) := by
  obtain ⟨inOrder, goes⟩ := resolveImports_goes declared reordered run
  obtain ⟨trail, o, target, module, found, h, mem, rfl, resolves, notEmpty, warned⟩ :=
    (goes.course.linted i source single done).exists_occasion
  refine ⟨trail, o, target, module, found, h, mem, rfl, resolves, notEmpty,
    fun lead p isFound => ?_⟩
  have inModule : p.2.1 = module := resolves.finds.eq_of_lead lead isFound
  have inOrder₀ := h.inOrder_before inOrder mem
  have inOrder₁ := h.inOrder_after inOrder mem
  have later₀ := inOrder₀.move (h.move mem)
  have later₁ := inOrder₁.path (h.after mem)
  have bound : o.after.tree.bindingAt? p.2.1 p.1 target.last.name = some p.2.2 :=
    later₀.tree_keeps.bound (resolves.finds.there p isFound)
  refine ⟨inModule, ?_, fun d trespasses => ?_⟩
  · rw [← inModule]
    exact later₁.tree_keeps.bound bound
  · have good : p.2.2.Good s.defs p.1 :=
      later₁.sound.intact.bindings (later₁.tree_keeps.bound bound)
    have flagged : Flagged (Imports.ofList directives config.lintPrivateAccess)
        (directives.get o.index) target.last.name p.2.1 p.2.2 s d := by
      rw [inModule]
      exact .of_trespasses later₁.sound.intact.validDefs good trespasses rfl
    have before := flagged.of_later later₁ inOrder₁.sound (inOrder₁.homes o.index)
      (inOrder₁.sound.intact.bindings bound)
    obtain ⟨more, eq⟩ := (h.after mem).diagnostics
    rw [eq]
    exact List.mem_append_left _ (warned (not_bare lead) p isFound d before)

/-- A private structure that is imported from outside of its module:

        mod a { struct S; }
        use a::S; -/
def fetched : Program :=
  ⟨⟨0⟩, ⟨0, 9⟩,
    [.mod ⟨⟨1⟩, false, ⟨1, 1⟩⟩ ⟨"a", ⟨1, 1⟩⟩
      [.struct ⟨⟨2⟩, false, ⟨2, 1⟩⟩ ⟨"S", ⟨2, 1⟩⟩ [] []],
    .useDecl ⟨⟨3⟩, false, ⟨3, 1⟩⟩
      (.path ⟨4⟩ ⟨4, 1⟩ ⟨false, [⟨.name "a", ⟨4, 1⟩⟩, ⟨.name "S", ⟨4, 1⟩⟩]⟩ none)]⟩

/-- The import of the structure is done, and has been warned of it. -/
theorem single_imports_are_linted_fetched :
    ∃ built log', declareProgram .empty .new fetched .empty = .ok built log' ∧
      ∃ s log₁, resolveImports built.defs built.tree true built.directives .empty = .ok s log₁ ∧
      ∃ i, (built.directives.get i).isGlob = false ∧ s.statusOf i = .done none ∧
        s.diagnostics = [.privateAccess "S" "a" (built.directives.get i).span] ∧
        ∃ trail o target module found,
          Trail (Imports.ofList built.directives true) (.start _ built.defs built.tree) trail s ∧
          o ∈ trail ∧ o.index = i ∧
          o.Resolves (Imports.ofList built.directives true) target module found ∧ found ≠ [] ∧
          ((built.directives.get i).path.global = true ∨ target.lead ≠ [] → ∀ p ∈ found,
            p.2.1 = module ∧ s.tree.bindingAt? module p.1 target.last.name = some p.2.2 ∧
            ∀ d, (∀ id, p.2.2.Refers s.defs id →
              Tables.Trespasses ⟨s.defs, s.tree, {}⟩ (built.directives.get i).module module id
                ⟨target.last.name, (built.directives.get i).span⟩ d) → d ∈ s.diagnostics) := by
  obtain ⟨built, log', declared, s, log₁, run, rest⟩ := exists_resolved_of_check fetched
    (fun built s => (List.finRange _).any fun i => decide ((built.directives.get i).isGlob = false ∧
      s.statusOf i = .done none ∧
      s.diagnostics = [.privateAccess "S" "a" (built.directives.get i).span]))
    (by decide +kernel)
  simp only [List.any_eq_true, decide_eq_true_eq] at rest
  obtain ⟨i, -, single, done, reported⟩ := rest
  have run' : resolveImports built.defs built.tree ({} : Config).lintPrivateAccess
      built.directives .empty = .ok s log₁ := run
  exact ⟨built, log', declared, s, log₁, run, i, single, done, reported,
    single_imports_are_linted declared (.refl _) run' single done⟩

/-- A structure that is visible to all, in a module that is not:

        mod a { mod b { pub struct S; } }
        use a::b::S; -/
def reachedThrough : Program :=
  ⟨⟨0⟩, ⟨0, 9⟩,
    [.mod ⟨⟨1⟩, false, ⟨1, 1⟩⟩ ⟨"a", ⟨1, 1⟩⟩
      [.mod ⟨⟨2⟩, false, ⟨2, 1⟩⟩ ⟨"b", ⟨2, 1⟩⟩
        [.struct ⟨⟨3⟩, true, ⟨3, 1⟩⟩ ⟨"S", ⟨3, 1⟩⟩ [] []]],
    .useDecl ⟨⟨4⟩, false, ⟨4, 1⟩⟩
      (.path ⟨5⟩ ⟨5, 1⟩
        ⟨false, [⟨.name "a", ⟨5, 1⟩⟩, ⟨.name "b", ⟨5, 1⟩⟩, ⟨.name "S", ⟨5, 1⟩⟩]⟩ none)]⟩

/-- The import is done, and trespasses on `b` without being warned of it. The same path as a type is
    warned. -/
theorem import_reaches_through_private_module :
    ∃ built log', declareProgram .empty .new reachedThrough .empty = .ok built log' ∧
      ∃ s log₁, resolveImports built.defs built.tree true built.directives .empty = .ok s log₁ ∧
      ∃ i, s.statusOf i = .done none ∧
        (built.directives.get i).path.segments.map (·.kind) = [.name "a", .name "b", .name "S"] ∧
        s.tree.bindingAt? .root .type "a" = some (.definition ⟨1⟩) ∧
        s.defs.module? ⟨1⟩ = some ⟨1⟩ ∧
        s.tree.bindingAt? ⟨1⟩ .type "b" = some (.definition ⟨2⟩) ∧
        Tables.Trespasses ⟨s.defs, s.tree, {}⟩ (built.directives.get i).module ⟨1⟩ ⟨2⟩
          ⟨"b", (built.directives.get i).span⟩
          (.privateAccess "b" "a" (built.directives.get i).span) ∧
        .privateAccess "b" "a" (built.directives.get i).span ∉ s.diagnostics ∧
        (Tables.resolvePath ⟨s.defs, s.tree, {}⟩ .new .type
            ⟨⟨6⟩, false, (built.directives.get i).path.segments, false⟩ none).run.run [] =
          .ok (.ok (.definition ⟨3⟩), [.privateAccess "b" "a" (built.directives.get i).span]) := by
  obtain ⟨built, log', declared, s, log₁, run, rest⟩ := exists_resolved_of_check reachedThrough
    (fun built s => (List.finRange _).any fun i => decide (s.statusOf i = .done none ∧
      (built.directives.get i).path.segments.map (·.kind) = [.name "a", .name "b", .name "S"] ∧
      s.tree.bindingAt? .root .type "a" = some (.definition ⟨1⟩) ∧
      s.defs.module? ⟨1⟩ = some ⟨1⟩ ∧
      s.tree.bindingAt? ⟨1⟩ .type "b" = some (.definition ⟨2⟩) ∧
      s.tree.isWithin (built.directives.get i).module ⟨1⟩ = .ok false ∧
      s.defs.isPub ⟨2⟩ = .ok false ∧
      (s.tree.find? ⟨1⟩).map (·.name s.defs) = some (.ok "a") ∧ s.diagnostics = [] ∧
      (Tables.resolvePath ⟨s.defs, s.tree, {}⟩ .new .type
          ⟨⟨6⟩, false, (built.directives.get i).path.segments, false⟩ none).run.run [] =
        .ok (.ok (.definition ⟨3⟩), [.privateAccess "b" "a" (built.directives.get i).span])))
    (by decide +kernel)
  simp only [List.any_eq_true, decide_eq_true_eq] at rest
  obtain ⟨i, -, done, path, first, leads, second, outside, hidden, owner, nothing, asType⟩ := rest
  obtain ⟨m, found, named⟩ := Option.map_eq_some_iff.mp owner
  exact ⟨built, log', declared, s, log₁, run, i, done, path, first, leads, second,
    ⟨rfl, outside, hidden, m, "a", found, named, rfl⟩, by simp [nothing], asType⟩

end NameResolution
