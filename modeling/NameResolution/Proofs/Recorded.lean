import NameResolution.Proofs.Calls

/-! # What is recorded

    A definition is recorded for a path, for a bare name in a pattern or for
    `self`, and by no other way. In each case it is what it is in the end, not an
    alias, and something that may stand there: lookups outward, members, sets of
    functions, aliases and variants all come to definitions of the namespace that
    has been asked for. -/

namespace NameResolution.Session

open Resolving

/-- Definitions that are recorded are final and of the right sort. Each record comes from a step of
    the second pass. What it records for a path is in the namespace that the path is looked up in,
    or a variant for a value, if the path ends with a name; for `Self` alone and for `self` it is a
    struct, enum, trait or impl; for a bare name in a pattern it is a variant. It is never an
    alias. -/
theorem recorded_definitions_are_final {config : Config} {program : Program}
    {log log' : Log} {reported : List Diagnostic} {built : Session}
    (run : (new config).build program log = .ok (reported, built) log')
    {log₁ log₂ : Log} {resolved : ResolveState}
    (second : resolveNames built.tables program log₁ = .ok resolved log₂) :
    (∀ node r, resolved.resolutions[node]? = some r ↔
      ∃ step s, Source built.tables program step node r s resolved) ∧
    ∀ step node id s, Source built.tables program step node (.definition id) s resolved →
      ∃ d, built.defs.find? id = some d ∧ d.kind ≠ .importAlias ∧
        (∀ ns path labels, LooksUp built.tables s.scopes step ns path labels →
          (∀ segment ident, path.segments.getLast? = some segment →
            segment.ident? = some ident → d.kind.Serves ns) ∧
          ∀ segment, path.segments = [segment] → segment.kind = .selfType →
            d.kind.isSelfItem = true) ∧
        (∀ ident, step = .bindOrMatch ident node → d.kind = .variant) ∧
        ∀ span, step = .selfValue node span → d.kind.isSelfItem = true := by
  obtain ⟨sound, root⟩ := sound_of_build run
  have valid : built.tables.defs.Valid := sound.intact.validDefs
  refine ⟨fun node r => recorded_iff_source valid second, fun step node id s source => ?_⟩
  obtain ⟨before, after, -, through, records⟩ := source
  have items : SelfItems built.tables.defs s.scopes.toList := through.selfItems valid
  generalize eq : Resolution.definition id = r at records
  cases records with
  | @path _ ns path labels result warnings looksUp came =>
    have targets := Yields.true_iff.mp (Tables.gives_resolvePath sound root items path []) _ came
    cases result with
    | error e => cases eq
    | ok r =>
      obtain ⟨d, found, target⟩ := targets r rfl id eq.symm
      refine ⟨d, found, target.notAlias, fun ns' path' labels' looksUp' => ?_, ?_, ?_⟩
      · obtain ⟨rfl, rfl, rfl⟩ := looksUp.unique looksUp'
        exact ⟨fun segment ident => target.serves, fun segment => target.selfItem⟩
      · rintro ident rfl
        cases looksUp
      · rintro span rfl
        cases looksUp
  | selfValue isSelf =>
    cases eq
    obtain ⟨d, found, isSelfItem⟩ := items.innermost id isSelf
    refine ⟨d, found, ?_, ?_, ?_, fun _ _ => isSelfItem⟩
    · intro isAlias
      rw [isAlias] at isSelfItem
      cases isSelfItem
    · rintro ns path labels ⟨⟩
    · rintro ident ⟨⟩
  | noSelf => cases eq
  | variant named =>
    cases eq
    obtain ⟨d, found, kind⟩ :=
      Yields.true_iff.mp (Tables.variant_of_variantNamed s.scopes) _ named id rfl
    refine ⟨d, found, by simp [kind], ?_, fun _ _ => kind, ?_⟩
    · rintro ns path labels ⟨⟩
    · rintro span ⟨⟩

/-- A variant under another name:

        enum E { A }
        use E::A as B;
        const c = match c { B => B }; -/
def matched : Program :=
  ⟨⟨0⟩, ⟨0, 60⟩,
    [.enum ⟨⟨1⟩, false, ⟨1, 1⟩⟩ ⟨"E", ⟨1, 1⟩⟩ [] [.mk ⟨2⟩ ⟨"A", ⟨2, 1⟩⟩ []],
    .useDecl ⟨⟨3⟩, false, ⟨3, 1⟩⟩ (.path ⟨4⟩ ⟨4, 1⟩
      ⟨false, [⟨.name "E", ⟨4, 1⟩⟩, ⟨.name "A", ⟨4, 1⟩⟩]⟩ (some ⟨"B", ⟨4, 1⟩⟩)),
    .const ⟨⟨5⟩, false, ⟨5, 1⟩⟩ ⟨"c", ⟨5, 1⟩⟩ none (some (.matchOn
      (.path (.ofIdent ⟨6⟩ ⟨"c", ⟨6, 1⟩⟩) [])
      [.mk (.ident ⟨7⟩ ⟨"B", ⟨7, 1⟩⟩ none) (.path (.ofIdent ⟨8⟩ ⟨"B", ⟨8, 1⟩⟩) [])]))]⟩

/-- What `B` is recorded as, in the pattern and behind it, is the variant. -/
theorem recorded_definitions_are_final_of_matched :
    ∃ reported built log', (new {}).build matched .empty = .ok (reported, built) log' ∧
      ∃ resolved log₂, resolveNames built.tables matched log' = .ok resolved log₂ ∧
        resolved.resolutions[(⟨7⟩ : NodeId)]? = some (.definition ⟨2⟩) ∧
        resolved.resolutions[(⟨8⟩ : NodeId)]? = some (.definition ⟨2⟩) ∧
        ∃ d, built.defs.find? ⟨2⟩ = some d ∧ d.kind ≠ .importAlias ∧ d.kind.Serves .value := by
  have checked : ∃ r log₂, ((new {}).build matched >>= fun p => do
      return (p, ← resolveNames p.2.tables matched)) .empty = .ok r log₂ ∧
        decide (r.2.resolutions[(⟨7⟩ : NodeId)]? = some (.definition ⟨2⟩) ∧
          r.2.resolutions[(⟨8⟩ : NodeId)]? = some (.definition ⟨2⟩)) = true :=
    Logged.exists_of_check (by decide +kernel)
  obtain ⟨⟨⟨reported, built⟩, resolved⟩, log₂, both, holds⟩ := checked
  obtain ⟨_, log', run, follows⟩ := Logged.bind_eq_ok.mp both
  obtain ⟨_, _, second, last⟩ := Logged.bind_eq_ok.mp follows
  cases last
  obtain ⟨bare, behind⟩ := of_decide_eq_true holds
  obtain ⟨sources, sorts⟩ := recorded_definitions_are_final run second
  obtain ⟨step, s, source⟩ := (sources _ _).mp behind
  obtain ⟨d, found, notAlias, paths, bareName, selfValue⟩ := sorts _ _ _ _ source
  refine ⟨reported, built, log', run, resolved, log₂, second, bare, behind, d, found, notAlias, ?_⟩
  -- the only step that comes upon this node looks the name up as a value
  have distinct : matched.nodes.Nodup := by decide +kernel
  have there : WalkStep.path .value (.ofIdent ⟨8⟩ ⟨"B", ⟨8, 1⟩⟩) none ∈ Walk.ofProgram matched := by
    decide +kernel
  obtain rfl : step = .path .value (.ofIdent ⟨8⟩ ⟨"B", ⟨8, 1⟩⟩) none :=
    eq_of_nodup_filterMap (Program.nodup_walk distinct) source.mem_walk there source.visited? rfl
  exact (paths _ _ _ .path).1 _ _ rfl rfl

end NameResolution.Session
