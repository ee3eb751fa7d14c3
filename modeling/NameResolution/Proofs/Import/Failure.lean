import NameResolution.Proofs.Import.Ending
import NameResolution.Proofs.Import.Run

/-! # Imports that fail

    Whoever fails has missed a name. It is decided once, in the middle of other
    imports, and not taken back when the name turns up later. Still it holds in
    the end, with two exceptions. A glob may bring in the name when the import
    has failed already; and an import that has failed for a cycle may have
    passed by something that was there all the time. -/

namespace NameResolution

/-- On its way the path of an import comes upon a name that a glob has brought in. -/
def Importing.MeetsGlob {n : Nat} (imports : Imports n) (i : Fin n) (s : ImportState n) : Prop :=
  (Lookup.followPath imports (Lookup.explicit imports) i).Stops s

/-- Over what the first pass makes of any program, and with its imports in any order: the path of
    an import that has failed, not for a cycle, leads nowhere in the finished tables either, unless
    it comes upon a name that a glob has brought in. Who has failed for a cycle may lead somewhere
    although there is no glob at all (`cyclic_import_leads_somewhere`). -/
theorem failed_import_leads_nowhere {program : Program} {built : DeclareState}
    {log log' : Log} (declared : declareProgram .empty .new program log = .ok built log')
    {directives : List Directive} (reordered : directives.Perm built.directives) {lint : Bool}
    {s : ImportState directives.length} {log₀ log₁ : Log}
    (run : resolveImports built.defs built.tree lint directives log₀ = .ok s log₁)
    {i : Fin directives.length} (failed : s.statusOf i = .failed)
    (explicitly : ¬ Importing.MeetsGlob (Imports.ofList directives lint) i s) :
    ∃ failure, (Lookup.followPath (Imports.ofList directives lint) Lookup.plain i).Reads s
      (.error failure) := by
  obtain ⟨-, goes⟩ := resolveImports_goes declared reordered run
  have lost : Importing.Lost (Imports.ofList directives lint) i s := goes.course.lost i failed
  rcases lost s (.refl s) with stops | ⟨failure, reads⟩
  · exact absurd stops explicitly
  · exact ⟨failure, (Lookup.cuts_explicit.followPath i).reads reads⟩

/-- The name that neither of two modules has stays missing, although they import everything from
    one another. -/
theorem failed_import_leads_nowhere_both_ways :
    ∃ built log', declareProgram .empty .new bothWays .empty = .ok built log' ∧
      ∃ s log₁, resolveImports built.defs built.tree true built.directives .empty = .ok s log₁ ∧
        ∃ i, s.statusOf i = .failed ∧
          ¬ Importing.MeetsGlob (Imports.ofList built.directives true) i s ∧
          ∃ failure, (Lookup.followPath (Imports.ofList built.directives true)
            Lookup.plain i).Reads s (.error failure) := by
  obtain ⟨built, log', declared, s, log₁, run, rest⟩ := exists_resolved_of_check bothWays
    (fun built s => (List.finRange _).any fun i => s.statusOf i == .failed &&
      ((Lookup.followPath (Imports.ofList built.directives true)
        (Lookup.explicit (Imports.ofList built.directives true)) i).run s).passes .empty fun _ => true)
    (by decide +kernel)
  simp only [List.any_eq_true, Bool.and_eq_true, beq_iff_eq] at rest
  obtain ⟨i, -, failed, rest⟩ := rest
  obtain ⟨_, _, follows, -⟩ := Logged.exists_of_check rest
  have explicitly : ¬ Importing.MeetsGlob (Imports.ofList built.directives true) i s := by
    intro stops
    obtain ⟨_, _, fault⟩ := stops .empty
    rw [follows] at fault
    cases fault
  exact ⟨built, log', declared, s, log₁, run, i, failed, explicitly,
    failed_import_leads_nowhere declared (List.Perm.refl _) run failed explicitly⟩

/-! ## Imports that fail too early -/

/-- Whether the path of an import leads somewhere in some tables. -/
def leadsSomewhere (built : DeclareState) (s : ImportState built.directives.length)
    (i : Fin built.directives.length) : Bool :=
  ((Lookup.followPath (Imports.ofList built.directives true) Lookup.plain i).run s).passes .empty
    (·.1.isOk)

theorem follows_of_leadsSomewhere {built : DeclareState}
    {s : ImportState built.directives.length} {i : Fin built.directives.length}
    (leads : leadsSomewhere built s i = true) :
    ∃ s' log, (Lookup.followPath (Imports.ofList built.directives true) Lookup.plain i).run s .empty =
      .ok (.ok (), s') log := by
  obtain ⟨⟨r, s'⟩, log, follows, isOk⟩ := Logged.exists_of_check leads
  cases r with
  | ok _ => exact ⟨s', log, follows⟩
  | error failure => cases isOk

/-- A glob of a module waits for an import that looks into the module:

        use a::x;
        mod a { pub use ::b::*; }
        mod b { pub struct y; pub use ::a::y as x; } -/
def lookedBackInto : Program :=
  ⟨⟨0⟩, ⟨0, 12⟩,
    [.useDecl ⟨⟨1⟩, true, ⟨1, 1⟩⟩
      (.path ⟨2⟩ ⟨2, 1⟩ ⟨false, [⟨.name "a", ⟨2, 1⟩⟩, ⟨.name "x", ⟨2, 1⟩⟩]⟩ none),
    .mod ⟨⟨3⟩, true, ⟨3, 1⟩⟩ ⟨"a", ⟨3, 1⟩⟩
      [.useDecl ⟨⟨4⟩, true, ⟨4, 1⟩⟩
        (.glob ⟨5⟩ ⟨5, 1⟩ (some ⟨true, [⟨.name "b", ⟨5, 1⟩⟩]⟩))],
    .mod ⟨⟨6⟩, true, ⟨6, 1⟩⟩ ⟨"b", ⟨6, 1⟩⟩
      [.struct ⟨⟨7⟩, true, ⟨7, 1⟩⟩ ⟨"y", ⟨7, 1⟩⟩ [] [],
      .useDecl ⟨⟨8⟩, true, ⟨8, 1⟩⟩
        (.path ⟨9⟩ ⟨9, 1⟩ ⟨true, [⟨.name "a", ⟨9, 1⟩⟩, ⟨.name "y", ⟨9, 1⟩⟩]⟩
          (some ⟨"x", ⟨9, 1⟩⟩))]]⟩

/-- The glob is not asked again while it is being searched, so it brings in `y` only when
    `y` has been missed. -/
theorem failed_import_leads_somewhere :
    ∃ built log', declareProgram .empty .new lookedBackInto .empty = .ok built log' ∧
      ∃ s log₁, resolveImports built.defs built.tree true built.directives .empty = .ok s log₁ ∧
        ∃ i, s.statusOf i = .failed ∧ (built.directives.get i).pathText = "::a::y" ∧
          ∃ s' log₂, (Lookup.followPath (Imports.ofList built.directives true)
            Lookup.plain i).run s .empty = .ok (.ok (), s') log₂ := by
  obtain ⟨built, log', declared, s, log₁, run, rest⟩ := exists_resolved_of_check lookedBackInto
    (fun built s => (List.finRange _).any fun i => s.statusOf i == .failed &&
      ((built.directives.get i).pathText == "::a::y" && leadsSomewhere built s i))
    (by decide +kernel)
  simp only [List.any_eq_true, Bool.and_eq_true, beq_iff_eq] at rest
  obtain ⟨i, -, failed, path, leads⟩ := rest
  exact ⟨built, log', declared, s, log₁, run, i, failed, path, follows_of_leadsSomewhere leads⟩

/-- A structure that is imported from where an import of its name leads back to it:

        mod r { pub use ::m::f; }
        mod m { pub struct f; pub use ::r::f; } -/
def importedAround : Program :=
  ⟨⟨0⟩, ⟨0, 9⟩,
    [.mod ⟨⟨1⟩, true, ⟨1, 1⟩⟩ ⟨"r", ⟨1, 1⟩⟩
      [.useDecl ⟨⟨2⟩, true, ⟨2, 1⟩⟩
        (.path ⟨3⟩ ⟨3, 1⟩ ⟨true, [⟨.name "m", ⟨3, 1⟩⟩, ⟨.name "f", ⟨3, 1⟩⟩]⟩ none)],
    .mod ⟨⟨4⟩, true, ⟨4, 1⟩⟩ ⟨"m", ⟨4, 1⟩⟩
      [.struct ⟨⟨5⟩, true, ⟨5, 1⟩⟩ ⟨"f", ⟨5, 1⟩⟩ [] [],
      .useDecl ⟨⟨6⟩, true, ⟨6, 1⟩⟩
        (.path ⟨7⟩ ⟨7, 1⟩ ⟨true, [⟨.name "r", ⟨7, 1⟩⟩, ⟨.name "f", ⟨7, 1⟩⟩]⟩ none)]]⟩

/-- Without any glob, an import fails for a cycle that is about values, although there is a type
    of the name. -/
theorem cyclic_import_leads_somewhere :
    ∃ built log', declareProgram .empty .new importedAround .empty = .ok built log' ∧
      (∀ d ∈ built.directives, d.isGlob = false) ∧
      ∃ s log₁, resolveImports built.defs built.tree true built.directives .empty = .ok s log₁ ∧
        ∃ i, s.statusOf i = .cycleFailed ∧ (built.directives.get i).pathText = "::m::f" ∧
          ∃ s' log₂, (Lookup.followPath (Imports.ofList built.directives true)
            Lookup.plain i).run s .empty = .ok (.ok (), s') log₂ := by
  obtain ⟨built, log', declared, s, log₁, run, rest⟩ := exists_resolved_of_check importedAround
    (fun built s => built.directives.all (fun d => d.isGlob == false) &&
      (List.finRange _).any fun i => s.statusOf i == .cycleFailed &&
        ((built.directives.get i).pathText == "::m::f" && leadsSomewhere built s i))
    (by decide +kernel)
  simp only [List.any_eq_true, List.all_eq_true, Bool.and_eq_true, beq_iff_eq] at rest
  obtain ⟨noGlobs, i, -, failed, path, leads⟩ := rest
  exact ⟨built, log', declared, noGlobs, s, log₁, run, i, failed, path,
    follows_of_leadsSomewhere leads⟩

end NameResolution
