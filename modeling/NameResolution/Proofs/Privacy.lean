import NameResolution.Proofs.Advice
import NameResolution.Proofs.Calls
import NameResolution.Proofs.Resolution.Visibility

/-! # The lint on private access

    A path is warned of the private members that it reaches from outside their
    modules, of each of them once and of nothing else. It is only warned of
    them: what it comes to is what it would come to if they were `pub`. -/

namespace NameResolution

/-- Whatever the second pass has followed, it stands in scopes over the tables. -/
theorem Resolving.placed_of_follow {tables : Tables} (intact : Intact tables.defs tables.tree)
    {walk : Walk} {s : ResolveState} {log log' : Log}
    (run : follow tables walk .start log = .ok ((), s) log') : s.scopes.Placed tables := by
  have same : Alike tables (fun _ _ => True) (follow tables walk)
      (follow (tables.withConfig tables.config) walk) := alike_follow intact walk
  exact (Logged.of_agree (same _ _ (.start intact) log log) run run).2.placed

namespace Session

/-- Over the tables of any build, in any scopes over them, and so at each point of the second pass:
    a path comes to a result and is warned, in the order of its segments, of exactly those that
    select a private member from outside its module, be the result an error. With whatever other
    visibilities the result is the same. -/
theorem warns_of_private_access {config : Config} {program : Program} {log log' : Log}
    {reported : List Diagnostic} {built : Session}
    (run : (new config).build program log = .ok (reported, built) log') :
    (∀ walk s log₀ log₁, Resolving.follow built.tables walk .start log₀ = .ok ((), s) log₁ →
      s.scopes.Placed built.tables) ∧
    ∀ stack : ScopeStack, stack.Placed built.tables →
      ∀ (ns : Namespace) (path : Path) (suffix : Option String), path.segments ≠ [] →
        ∃ result entries,
          (built.tables.resolvePath stack ns path suffix).run.run [] =
            .ok (result, entries.reduceOption) ∧
          built.tables.Warns stack ns path suffix entries ∧
          ∀ visible, ∃ warnings,
            ((built.tables.withVisibility visible).resolvePath stack ns path suffix).run.run [] =
              .ok (result, warnings) := by
  obtain ⟨sound, -⟩ := sound_of_build run
  have intact : Intact built.tables.defs built.tables.tree := sound.intact
  refine ⟨fun walk s log₀ log₁ run => Resolving.placed_of_follow intact run, ?_⟩
  intro stack placed ns path suffix spelled
  obtain ⟨result, entries, -, run, warns⟩ :=
    Tables.exists_warns intact placed ns suffix spelled
  refine ⟨result, entries, run, warns, fun visible => ?_⟩
  have same : Agree (fun p p' => p.1 = p'.1)
      ((built.tables.resolvePath stack ns path suffix).run.run [])
      (((built.tables.withVisibility visible).resolvePath stack ns path suffix).run.run []) :=
    Tables.sameResult_resolvePath intact visible placed [] []
  rw [run] at same
  cases run' : ((built.tables.withVisibility visible).resolvePath stack ns path suffix).run.run
      [] with
  | error fault =>
    rw [run'] at same
    cases same
  | ok p =>
    rw [run'] at same
    cases same with
    | ok eq => exact ⟨p.2, by rw [show result = p.1 from eq]⟩

/-- A private module inside another one, with nothing in it:

        mod a { mod b {} } -/
def secret : Program :=
  ⟨⟨0⟩, ⟨0, 20⟩,
    [.mod ⟨⟨1⟩, false, ⟨1, 1⟩⟩ ⟨"a", ⟨1, 1⟩⟩
      [.mod ⟨⟨2⟩, false, ⟨2, 1⟩⟩ ⟨"b", ⟨2, 1⟩⟩ []]]⟩

/-- From outside, the path `a::b::T` is warned of `b`, though nothing is found in it. It is not
    warned of `a`, which is in scope. -/
theorem warns_of_private_access_of_secret :
    ∃ reported built log', (new {}).build secret .empty = .ok (reported, built) log' ∧
      let path : Path :=
        ⟨⟨3⟩, false, [⟨.name "a", ⟨3, 1⟩⟩, ⟨.name "b", ⟨3, 2⟩⟩, ⟨.name "T", ⟨3, 3⟩⟩], false⟩
      ∃ entries, (built.tables.resolvePath .new .type path none).run.run [] =
          .ok (.error (.unresolvedName "T" .type ⟨3, 3⟩ [] none), entries.reduceOption) ∧
        entries.reduceOption = [.privateAccess "b" "a" ⟨3, 2⟩] ∧
        built.tables.Warns .new .type path none entries ∧
        ∀ visible, ∃ warnings,
          ((built.tables.withVisibility visible).resolvePath .new .type path none).run.run [] =
            .ok (.error (.unresolvedName "T" .type ⟨3, 3⟩ [] none), warnings) := by
  let path : Path :=
    ⟨⟨3⟩, false, [⟨.name "a", ⟨3, 1⟩⟩, ⟨.name "b", ⟨3, 2⟩⟩, ⟨.name "T", ⟨3, 3⟩⟩], false⟩
  have checked : ∃ r log', (new {}).build secret .empty = .ok r log' ∧
      decide ((r.2.tables.resolvePath .new .type path none).run.run [] =
        .ok (.error (.unresolvedName "T" .type ⟨3, 3⟩ [] none),
          [.privateAccess "b" "a" ⟨3, 2⟩])) = true :=
    Logged.exists_of_check (by decide +kernel)
  obtain ⟨⟨reported, built⟩, log', run, resolved⟩ := checked
  have resolved := of_decide_eq_true resolved
  obtain ⟨atPoints, warnsOf⟩ := warns_of_private_access run
  -- in front of the first step there is only the scope of the program
  have placed : ScopeStack.new.Placed built.tables := atPoints [] .start .empty .empty rfl
  obtain ⟨result, entries, run', warns, same⟩ :=
    warnsOf .new placed .type path none (List.cons_ne_nil _ _)
  have both := Except.ok.inj (resolved.symm.trans run')
  obtain ⟨rfl, listed⟩ := Prod.mk.inj both
  exact ⟨reported, built, log', run, entries, run', listed.symm, warns, same⟩

end Session

end NameResolution
