import NameResolution.Proofs.Import.Depth
import NameResolution.Proofs.Import.Rounds
import NameResolution.Proofs.Declaration.Sorts

/-! # The import phase ends

    Neither bound of the import phase is ever what ends it. The phase is written
    once more, over lookups of any depth and with any number of rounds, and with
    the answer whether the globs have come to rest. From some depth and some
    number on it always does the same, without being cut off and with all globs
    at rest: what the bounds cut off of the recursion and of the loop is never
    come to. -/

namespace NameResolution

namespace Importing

section

variable {n : Nat} (imports : Imports n) (lookup : Lookup n)

/-! ## Any bounds -/

/-- Resolves a single import over some way to look names up, unless another one has done so. -/
def resolvePendingOver (i : Fin n) : Importing n Unit := do
  if !(imports.get i).isGlob && (← status i) == .pending then
    Lookup.resolveSingle imports lookup i [] []

/-- The globs among some directives that lead to a module, with that module, over some way to look
    names up. -/
def globSourcesOver : List (Fin n) → Importing n (List (Fin n × ModuleId))
  | [] => return []
  | i :: others => do
    let source ←
      if (imports.get i).isGlob then Lookup.globSource imports lookup i [] []
      else pure none
    let rest ← globSourcesOver others
    return source.toList.map (i, ·) ++ rest

/-- Resolves all imports, with lookups nested at most `depth` deep and the globs applied at most
    `rounds` times. Tells whether the globs have come to rest. -/
def directivesWithin (depth rounds : Nat) : Importing n Bool := do
  (List.finRange n).forM (resolvePendingOver imports (Lookup.upTo imports depth))
  let globs ← globSourcesOver imports (Lookup.upTo imports depth) (List.finRange n)
  let settled ← settle imports globs rounds
  Logged.emit (.importsResolved n (← get).diagnostics.length)
  return settled

end

variable {n : Nat} {imports : Imports n} {lookup lookup' : Lookup n}

theorem globSourcesOver_full (directives : List (Fin n)) :
    globSourcesOver imports (Lookup.full imports) directives = globSources imports directives := by
  induction directives with
  | nil => rfl
  | cons i others ih => rw [globSourcesOver, globSources, ih]

theorem cuts_resolvePendingOver (h : Lookup.Cuts lookup lookup') (i : Fin n) :
    Cuts (resolvePendingOver imports lookup i) (resolvePendingOver imports lookup' i) := by
  refine .after _ fun status => ?_
  split
  · exact h.resolveSingle i [] []
  · exact .refl _

theorem cuts_globSourcesOver (h : Lookup.Cuts lookup lookup') (directives : List (Fin n)) :
    Cuts (globSourcesOver imports lookup directives)
      (globSourcesOver imports lookup' directives) := by
  induction directives with
  | nil => exact .refl _
  | cons i others ih =>
    rw [globSourcesOver, globSourcesOver]
    split
    · exact (h.globSource i [] []).bind fun _ => ih.bind fun _ => .refl _
    · exact .after _ fun _ => ih.bind fun _ => .refl _

/-! ## The bounds of the phase -/

/-- The phase goes through with all globs at rest, and it would do the same with any greater
    bounds. -/
theorem Ready.ends {s : ImportState n} (ready : Ready imports s) (log : Log) :
    ∃ s' log', allDirectives imports s log = .ok ((), s') log' ∧
      ∃ enough, ∀ depth rounds, 2 * n + 1 ≤ depth → enough ≤ rounds →
        directivesWithin imports depth rounds s log = .ok (true, s') log' := by
  obtain ⟨_, s₁, log₁, run₁, progress⟩ :=
    Run.false_iff.mp (ready.run_resolveSingles (List.finRange n))
  obtain ⟨globs, s₂, log₂, run₂, found, known⟩ :=
    Run.false_iff.mp (progress.ready.run_globSources (List.finRange n))
  -- there are more rounds than free places, so the last of them finds nothing new
  obtain ⟨_, s₃, log₃, run₃, rfl⟩ := Run.false_iff.mp
    (found.ready.run_settle globs _ known (ModuleTree.named_boundNames s₂.tree)
      (ModuleTree.length_freePlaces_lt s₂.tree))
  let log₄ := log₃.push (.importsResolved n s₃.diagnostics.length)
  have phase : allDirectives imports s log = .ok ((), s₃) log₄ :=
    Logged.bind_eq_ok.mpr ⟨_, log₁, run₁, Logged.bind_eq_ok.mpr ⟨_, log₂, run₂,
      Logged.bind_eq_ok.mpr ⟨_, log₃, saturate_of_settle run₃, rfl⟩⟩⟩
  refine ⟨s₃, log₄, phase, roundBound s₂.tree, fun depth rounds deep enough => ?_⟩
  have cuts : Lookup.Cuts (Lookup.full imports) (Lookup.upTo imports depth) :=
    Lookup.cuts_upTo deep
  have run₁' : (List.finRange n).forM (resolvePendingOver imports (Lookup.upTo imports depth))
      s log = .ok ((), s₁) log₁ :=
    (Cuts.forM _ fun i => cuts_resolvePendingOver cuts i).eq_of_ok run₁
  have run₂' : globSourcesOver imports (Lookup.upTo imports depth) (List.finRange n) s₁ log₁ =
      .ok (globs, s₂) log₂ :=
    (cuts_globSourcesOver cuts _).eq_of_ok (globSourcesOver_full _ ▸ run₂)
  have run₃' : settle imports globs rounds s₂ log₂ = .ok (true, s₃) log₃ :=
    settle_mono enough run₃
  exact Logged.bind_eq_ok.mpr ⟨_, log₁, run₁', Logged.bind_eq_ok.mpr ⟨_, log₂, run₂',
    Logged.bind_eq_ok.mpr ⟨_, log₃, run₃', rfl⟩⟩⟩

end Importing

/-- Runs the import phase for directives in the given order, with lookups nested at most `depth`
    deep and the globs applied at most `rounds` times. Tells whether the globs have come to
    rest. -/
def resolveImportsWithin (depth rounds : Nat) (defs : Definitions) (tree : ModuleTree)
    (lintPrivateAccess : Bool) (directives : List Directive) :
    Logged (ImportState directives.length × Bool) := do
  let imports : Imports directives.length :=
    ⟨⟨directives.toArray, List.size_toArray⟩, lintPrivateAccess⟩
  let (settled, s) ←
    (Importing.directivesWithin imports depth rounds).run (.start _ defs tree)
  return (s, settled)

/-- Over what the first pass makes of any program, and with its imports in any order: the import
    phase goes through, and neither the nesting of its lookups nor the number of its rounds is
    cut off by a bound. -/
theorem resolveImports_ends {program : Program} {built : DeclareState} {log log' : Log}
    (declared : declareProgram .empty .new program log = .ok built log')
    {directives : List Directive} (reordered : directives.Perm built.directives) (lint : Bool)
    (log₀ : Log) :
    ∃ s log₁, resolveImports built.defs built.tree lint directives log₀ = .ok s log₁ ∧
      ∃ enough, ∀ depth rounds, 2 * directives.length + 1 ≤ depth → enough ≤ rounds →
        resolveImportsWithin depth rounds built.defs built.tree lint directives log₀ =
          .ok (s, true) log₁ := by
  obtain ⟨-, inOrder⟩ := declareProgram_passes declared
  let imports : Imports directives.length := ⟨⟨directives.toArray, List.size_toArray⟩, lint⟩
  have homes : ∀ i, built.tree.Known (imports.get i).module := by
    intro i
    have mem : imports.get i ∈ directives := List.getElem_mem i.isLt
    exact inOrder.directives _ (reordered.mem_iff.mp mem)
  have ready : Importing.Ready imports (.start _ built.defs built.tree) := by
    refine ⟨inOrder.sound.intact, homes, fun {i source} done => ?_⟩
    rw [ImportState.statusOf_start] at done
    cases done
  obtain ⟨s, log₁, phase, enough, within⟩ := ready.ends log₀
  refine ⟨s, log₁, Logged.bind_eq_ok.mpr ⟨((), s), log₁, phase, rfl⟩, enough, ?_⟩
  intro depth rounds deep more
  exact Logged.bind_eq_ok.mpr ⟨(true, s), log₁, within depth rounds deep more, rfl⟩

/-- Two modules that import everything from one another, and a name that neither has:

        mod a { pub use ::b::*; pub struct x; }
        mod b { pub use ::a::*; pub use ::a::z; } -/
def bothWays : Program :=
  ⟨⟨0⟩, ⟨0, 9⟩,
    [.mod ⟨⟨1⟩, true, ⟨1, 1⟩⟩ ⟨"a", ⟨1, 1⟩⟩
      [.useDecl ⟨⟨2⟩, true, ⟨2, 1⟩⟩
        (.glob ⟨3⟩ ⟨3, 1⟩ (some ⟨true, [⟨.name "b", ⟨3, 1⟩⟩]⟩)),
      .struct ⟨⟨4⟩, true, ⟨4, 1⟩⟩ ⟨"x", ⟨4, 1⟩⟩ [] []],
    .mod ⟨⟨5⟩, true, ⟨5, 1⟩⟩ ⟨"b", ⟨5, 1⟩⟩
      [.useDecl ⟨⟨6⟩, true, ⟨6, 1⟩⟩
        (.glob ⟨7⟩ ⟨7, 1⟩ (some ⟨true, [⟨.name "a", ⟨7, 1⟩⟩]⟩)),
      .useDecl ⟨⟨8⟩, true, ⟨8, 1⟩⟩
        (.path ⟨9⟩ ⟨9, 1⟩ ⟨true, [⟨.name "a", ⟨9, 1⟩⟩, ⟨.name "z", ⟨9, 1⟩⟩]⟩ none)]]⟩

theorem resolveImports_ends_both_ways :
    ∃ built log', declareProgram .empty .new bothWays .empty = .ok built log' ∧
      built.directives.length = 3 ∧
      ∃ s log₁, resolveImports built.defs built.tree true built.directives.reverse .empty =
          .ok s log₁ ∧
        ∃ enough, ∀ depth rounds, 2 * built.directives.reverse.length + 1 ≤ depth →
          enough ≤ rounds → resolveImportsWithin depth rounds built.defs built.tree true
            built.directives.reverse .empty = .ok (s, true) log₁ := by
  have checked : ∃ built log', declareProgram .empty .new bothWays .empty = .ok built log' ∧
      (built.directives.length == 3) = true := Logged.exists_of_check (by decide +kernel)
  obtain ⟨built, log', declared, three⟩ := checked
  exact ⟨built, log', declared, by simpa using three,
    resolveImports_ends declared (List.reverse_perm _) true .empty⟩

end NameResolution
