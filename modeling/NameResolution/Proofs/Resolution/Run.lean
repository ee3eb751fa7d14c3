import NameResolution.Proofs.Resolution.Steps

/-! # The second pass as a whole

    Over tables that cover a program, the second pass goes through. It settles
    each occurrence by itself and comes back to the scopes it has started from. -/

namespace NameResolution

variable {tables : Tables} {s s' : ResolveState} {log : Log}

/-- What following a walk from some state comes to. -/
def Follows (tables : Tables) (walk : Walk) (occs : List Occurrence) (after : Regions)
    (s : ResolveState) (log : Log) : Prop :=
  Run False (Resolving.follow tables walk) s log fun _ s' _ =>
    Stands tables s'.scopes after ∧ Resolves tables occs s s'

/-- Only one step is left. -/
theorem follows_singleton {step : WalkStep} {occs : List Occurrence} {after : Regions}
    (runs : Run False (Resolving.step tables step) s log fun _ s' _ =>
      Stands tables s'.scopes after ∧ Resolves tables occs s s') :
    Follows tables [step] occs after s log := by
  have single : Resolving.follow tables [step] =
    Resolving.step tables step >>= fun _ => pure ⟨⟩ := rfl
  rw [Follows, single, Run.bind_iff]
  exact runs

theorem follow_append (first second : Walk) : Resolving.follow tables (first ++ second) =
    Resolving.follow tables first >>= fun _ => Resolving.follow tables second :=
  List.forM_append

/-- What is inside a scope is done between entering and leaving it. -/
theorem follows_within {first : WalkStep} {inner : Walk} {occs : List Occurrence}
    {region : Region} {around after : Regions} (stands : Stands tables s.scopes around)
    (enters : Run False (Resolving.step tables first) s log fun _ s' _ =>
      Stands tables s'.scopes (region :: around) ∧ Moves s s')
    (inside : ∀ s' log', Stands tables s'.scopes (region :: around) → Moves s s' →
      Follows tables inner occs after s' log') (binders : List Binder)
    (after_eq : after = Regions.binding binders (region :: around)) :
    Follows tables (Walk.within first inner) occs around s log := by
  subst after_eq
  have steps : Resolving.follow tables (Walk.within first inner) =
      Resolving.step tables first >>= fun _ => Resolving.follow tables (inner ++ [.leave]) := rfl
  have last : Resolving.follow tables [.leave] = Resolving.leave >>= fun _ => pure ⟨⟩ := rfl
  rw [Follows, steps, follow_append, last]
  -- entering, what is inside, and leaving, one after the other
  simp only [Run.bind_iff]
  apply enters.mono
  intro _ s₁ log₁ ended
  obtain ⟨stands₁, moves₁⟩ := ended
  apply Run.mono (inside s₁ log₁ stands₁ moves₁)
  intro _ s₂ log₂ ended
  obtain ⟨stands₂, resolves⟩ := ended
  apply (run_leave stands.rooted stands₂.matching).mono
  intro _ s₃ log₃ ended
  obtain ⟨stands₃, moves₃⟩ := ended
  exact ⟨stands₃, resolves.of_moves moves₁ moves₃⟩

/-- The second pass settles occurrences that have not come up yet, one after the other. -/
theorem follows (intact : Intact tables.defs tables.tree) {around after : Regions} {walk : Walk}
    {occs : List Occurrence} (traces : Traces around walk occs after)
    (linked : ∀ occ ∈ occs, Linked tables.defs tables.tree occ)
    (spelled : ∀ occ ∈ occs, ∀ path, occ.role.path? = some path → path.segments ≠ [])
    (nodup : (occs.map (·.node)).Nodup) (stands : Stands tables s.scopes around)
    (fresh : ∀ occ ∈ occs, s.resolutions[occ.node]? = none) :
    Follows tables walk occs after s log := by
  -- each part starts in scopes that match its regions, with its own nodes not recorded yet
  induction traces generalizing s log with
  | nothing =>
    exact ⟨stands, .of_eq (List.forall_mem_nil _) (List.forall_mem_nil _) rfl rfl⟩
  | @silent around node role silent =>
    have settled : Settled tables ⟨node, role, around⟩ none := by
      cases silent with
      | declared | imported => exact .silent id rfl
      | lifetime static => exact .silent (fun other => other static) rfl
    exact ⟨stands, .of_eq (List.forall_mem_singleton.mpr settled) fresh rfl rfl⟩
  | refer refers =>
    exact follows_singleton (run_refers intact stands refers (spelled _ (List.mem_singleton_self _))
      (fresh _ (List.mem_singleton_self _)))
  | @bind around ident node =>
    have settled : Settled tables ⟨node, .binder, around⟩ none := .silent id rfl
    have notBare : false = true → tables.variantInReach ident.name around = none := by simp
    refine follows_singleton ((run_bindLocal stands ident node false notBare).mono ?_)
    intro _ s₁ log₁ ended
    obtain ⟨stands₁, resolutions, diagnostics⟩ := ended
    exact ⟨stands₁, .of_eq (List.forall_mem_singleton.mpr settled) fresh resolutions diagnostics⟩
  | bareName =>
    exact follows_singleton (run_bindOrMatch intact stands (fresh _ (List.mem_singleton_self _)))
  | @plain around kind walk occs binders inner ih =>
    refine follows_within stands (run_enterPlain stands kind) (fun s₁ log₁ stands₁ moves => ?_)
      binders rfl
    apply ih linked spelled nodup stands₁
    intro occ mem
    rw [moves.1]
    exact fresh occ mem
  | @within around inside step node role walk occs binders opens inner ih =>
    -- the node that opens the scope is settled first, as one that refers to nothing
    obtain ⟨region, rfl⟩ := opens.exists_region
    obtain ⟨apart, nodup⟩ := List.nodup_cons.mp nodup
    have here : Resolves tables [⟨node, role, around⟩] s s :=
      .of_eq (List.forall_mem_singleton.mpr opens.settled)
        (List.forall_mem_singleton.mpr (fresh _ (List.mem_cons_self ..))) rfl rfl
    refine Run.mono (follows_within stands
      (run_opens intact opens (linked _ (List.mem_cons_self ..)) stands)
      (fun s₁ log₁ stands₁ moves => ?_) binders rfl) fun _ s' log' ended =>
        ⟨ended.1, here.trans ended.2 (List.forall_mem_singleton.mpr apart)⟩
    apply ih (fun occ mem => linked occ (List.mem_cons_of_mem _ mem))
      (fun occ mem => spelled occ (List.mem_cons_of_mem _ mem)) nodup stands₁
    intro occ mem
    rw [moves.1]
    exact fresh occ (List.mem_cons_of_mem _ mem)
  | @append around middle after first second occs others h h' ih ih' =>
    rw [List.map_append] at nodup
    obtain ⟨nodup₁, nodup₂, apart⟩ := List.nodup_append.mp nodup
    rw [Follows, follow_append, Run.bind_iff]
    apply Run.mono (ih (fun occ mem => linked occ (by simp [mem]))
      (fun occ mem => spelled occ (by simp [mem])) nodup₁ stands
      fun occ mem => fresh occ (by simp [mem]))
    intro _ s₁ log₁ ended
    obtain ⟨stands₁, resolves₁⟩ := ended
    -- no node comes up in both parts, so the first one leaves the second one alone
    have fresh₁ : ∀ occ ∈ others, s₁.resolutions[occ.node]? = none := by
      intro occ mem
      rw [resolves₁.others _ fun mem' => apart _ mem' _ (List.mem_map_of_mem mem) rfl]
      exact fresh occ (by simp [mem])
    apply Run.mono (ih' (fun occ mem => linked occ (by simp [mem]))
      (fun occ mem => spelled occ (by simp [mem])) nodup₂ stands₁ fresh₁)
    intro _ s₂ log₂ ended
    obtain ⟨stands₂, resolves₂⟩ := ended
    refine ⟨stands₂, resolves₁.trans resolves₂ fun occ mem mem' => ?_⟩
    exact apart _ (List.mem_map_of_mem mem) _ mem' rfl

/-! ## The program -/

/-- Only the scope of the program has been entered. -/
theorem stands_start {program : Program} (covers : Covers tables.defs tables.tree program) :
    Stands tables ScopeStack.new [program.region] := by
  obtain ⟨m, found, _, outermost⟩ := covers.intact.validTree.root
  have modules : Regions.modules tables.defs [program.region] = [.root] := by
    simp [Regions.modules, Program.region, covers.root]
  refine ⟨.cons (.new covers.root.symm (by simp) rfl) .nil, ?_, ?_⟩
  · rw [modules]
    exact .root found outermost
  · rw [modules]
    exact covers.root

/-- Over tables that cover a program, each occurrence of it is settled. -/
theorem resolveNames_completes {program : Program} (covers : Covers tables.defs tables.tree program)
    (nodup : program.nodes.Nodup)
    (spelled : ∀ occ ∈ program.occurrences, ∀ path, occ.role.path? = some path →
      path.segments ≠ []) (log : Log) :
    ∃ s log', resolveNames tables program log = .ok s log' ∧
      Resolves tables program.occurrences .start s := by
  have nodup := (List.nodup_cons.mp nodup).2
  have run : Run False (Resolving.wholeProgram tables program) .start log fun _ s _ =>
      Resolves tables program.occurrences .start s := by
    simp only [Resolving.wholeProgram, Run.bind_iff, Run.get_iff]
    apply Run.mono (follows covers.intact program.traces_walk covers.linked spelled nodup
      (stands_start covers) fun _ _ => rfl)
    intro _ s₁ log₁ ended
    obtain ⟨stands, resolves⟩ := ended
    have length := stands.matching.length_eq
    -- as many scopes as regions are left, and that is the one of the program
    have left : s₁.scopes.inner = [] := by
      simpa [ScopeStack.toList] using length
    simp only [left, List.isEmpty_nil, if_true, Run.emit_iff]
    exact resolves
  obtain ⟨_, s, log', result, resolves⟩ := Run.false_iff.mp run
  exact ⟨s, log', Logged.bind_eq_ok.mpr ⟨((), s), log', result, rfl⟩, resolves⟩

end NameResolution
