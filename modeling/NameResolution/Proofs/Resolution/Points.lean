import NameResolution.Proofs.Resolution.Run

/-! # Points of the second pass

    A walk can be cut at any point. What is in front of the cut leaves some scopes
    open, and they are those of the regions around the point. Where the next step
    comes upon a node, they are the regions around that node. -/

namespace NameResolution

/-- The node that a step comes upon to resolve it or to bind it. -/
def WalkStep.visited? : WalkStep → Option NodeId
  | .path _ spelled _ | .typeArg spelled => some spelled.id
  | .selfValue node _ | .bind _ node | .bindOrMatch _ node => some node
  | .enter _ | .enterBlock .. | .enterItem _ | .enterFunc _ | .leave => none

/-- A walk comes upon its occurrences in their order. -/
theorem Traces.visited_sublist {around after : Regions} {walk : Walk} {occs : List Occurrence}
    (h : Traces around walk occs after) :
    (walk.filterMap WalkStep.visited?).Sublist (occs.map (·.node)) := by
  have within {step : WalkStep} {inner : Walk} (silent : step.visited? = none) :
      (Walk.within step inner).filterMap WalkStep.visited? =
        inner.filterMap WalkStep.visited? := by
    have last : [WalkStep.leave].filterMap WalkStep.visited? = [] := rfl
    rw [Walk.within, List.cons_append, List.filterMap_cons_none silent, List.filterMap_append,
      last, List.append_nil]
  induction h with
  | nothing | bind | bareName => exact List.Sublist.refl _
  | silent => exact List.nil_sublist _
  | refer refers => cases refers <;> exact List.Sublist.refl _
  | plain _ _ ih =>
    rw [within rfl]
    exact ih
  | within _ opens _ ih =>
    rw [within (by cases opens <;> rfl)]
    exact ih.cons _
  | append _ _ ih ih' =>
    rw [List.filterMap_append, List.map_append]
    exact ih.append ih'

/-- A path is come upon by a step of its own. -/
theorem Traces.exists_refers {around after : Regions} {walk : Walk} {occs : List Occurrence}
    (h : Traces around walk occs after) {occ : Occurrence} (mem : occ ∈ occs) {path : Path}
    (isPath : occ.role.path? = some path) : ∃ step ∈ walk, Refers step occ.node occ.role := by
  have within {first : WalkStep} {inner : Walk}
      (h : ∃ step ∈ inner, Refers step occ.node occ.role) :
      ∃ step ∈ Walk.within first inner, Refers step occ.node occ.role := by
    obtain ⟨step, mem, refers⟩ := h
    exact ⟨step, List.mem_cons_of_mem _ (List.mem_append_left _ mem), refers⟩
  induction h with
  | nothing => cases mem
  | silent silent =>
    rw [List.mem_singleton.mp mem] at isPath
    cases silent <;> cases isPath
  | @refer _ step _ _ refers =>
    rw [List.mem_singleton.mp mem]
    exact ⟨step, List.mem_singleton_self _, refers⟩
  | bind | bareName =>
    rw [List.mem_singleton.mp mem] at isPath
    cases isPath
  | plain _ _ ih => exact within (ih mem)
  | within _ opens _ ih =>
    rcases List.mem_cons.mp mem with rfl | mem
    · cases opens <;> cases isPath
    · exact within (ih mem)
  | append _ _ ih ih' =>
    rcases List.mem_append.mp mem with mem | mem
    · obtain ⟨step, here, refers⟩ := ih mem
      exact ⟨step, List.mem_append_left _ here, refers⟩
    · obtain ⟨step, here, refers⟩ := ih' mem
      exact ⟨step, List.mem_append_right _ here, refers⟩

/-- A step that resolves a path does so for what refers to it. -/
theorem Traces.refers_of_mem {around after : Regions} {walk : Walk} {occs : List Occurrence}
    (h : Traces around walk occs after) {ns : Namespace} {path : Path} {labels : Option String}
    (mem : .path ns path labels ∈ walk) : ∃ node role, Refers (.path ns path labels) node role := by
  have inside {first : WalkStep} {inner : Walk} (other : .path ns path labels ≠ first)
      (mem : .path ns path labels ∈ Walk.within first inner) : .path ns path labels ∈ inner := by
    rcases List.mem_append.mp ((List.mem_cons.mp mem).resolve_left other) with mem | last
    · exact mem
    · cases List.mem_singleton.mp last
  induction h with
  | nothing | silent => cases mem
  | @refer _ _ node role refers =>
    obtain rfl := List.mem_singleton.mp mem
    exact ⟨node, role, refers⟩
  | bind | bareName => cases List.mem_singleton.mp mem
  | plain _ _ ih => exact ih (inside (by rintro ⟨⟩) mem)
  | within _ opens _ ih => exact ih (inside (by rintro rfl; cases opens) mem)
  | append _ _ ih ih' => exact (List.mem_append.mp mem).elim ih ih'

/-- No two steps of the walk through a program come upon one node. -/
theorem Program.nodup_walk {program : Program} (distinct : program.nodes.Nodup) :
    ((Walk.ofProgram program).filterMap WalkStep.visited?).Nodup :=
  (List.nodup_cons.mp distinct).2.sublist program.traces_walk.visited_sublist

/-- If the first step of a walk comes upon a node, that is a node of these occurrences in these
    regions. -/
def Ahead (rest : Walk) (occs : List Occurrence) (here : Regions) : Prop :=
  ∀ step node, rest.head? = some step → step.visited? = some node →
    ∃ occ ∈ occs, occ.node = node ∧ occ.role.declaresNothing ∧ occ.around = here

namespace Ahead

variable {rest : Walk} {occs occs' : List Occurrence} {here : Regions}

theorem nothing : Ahead [] occs here := by
  rintro step node ⟨⟩

/-- A step that comes upon no node. -/
theorem of_silent {step : WalkStep} (silent : step.visited? = none) :
    Ahead (step :: rest) occs here := by
  rintro _ node ⟨⟩ visited
  rw [silent] at visited
  cases visited

/-- The step of an occurrence. -/
theorem of_occurrence {step : WalkStep} {node : NodeId} {role : Role}
    (visited : step.visited? = some node) (silent : role.declaresNothing) :
    Ahead [step] [⟨node, role, here⟩] here := by
  rintro _ other ⟨⟩ visited'
  rw [visited] at visited'
  cases visited'
  exact ⟨_, List.mem_singleton_self _, rfl, silent, rfl⟩

theorem mono (h : Ahead rest occs here) (sub : occs ⊆ occs') : Ahead rest occs' here := by
  intro step node first visited
  obtain ⟨occ, mem, isNode⟩ := h step node first visited
  exact ⟨occ, sub mem, isNode⟩

/-- What follows behind other steps makes no difference. -/
theorem append (h : Ahead rest occs here) (notNil : rest ≠ []) (more : Walk) :
    Ahead (rest ++ more) occs here := by
  cases rest with
  | nil => exact absurd rfl notNil
  | cons first rest => exact h

/-- To leave a scope comes upon no node. -/
theorem append_leave (h : Ahead rest occs here) : Ahead (rest ++ [.leave]) occs here := by
  cases rest with
  | nil => exact of_silent rfl
  | cons first rest => exact h

end Ahead

variable {tables : Tables} {s s' : ResolveState} {log : Log}

/-! ## Occurrences that have not come up yet -/

/-- The tables hold what is asked of some occurrences, and none of them has come up yet. -/
structure Awaited (tables : Tables) (occs : List Occurrence) (s : ResolveState) : Prop where
  linked : ∀ occ ∈ occs, Linked tables.defs tables.tree occ
  spelled : ∀ occ ∈ occs, ∀ path, occ.role.path? = some path → path.segments ≠ []
  nodup : (occs.map (·.node)).Nodup
  fresh : ∀ occ ∈ occs, s.resolutions[occ.node]? = none

namespace Awaited

variable {occ : Occurrence} {occs others : List Occurrence}

theorem follows (awaited : Awaited tables occs s) (intact : Intact tables.defs tables.tree)
    {around after : Regions} {walk : Walk} (traces : Traces around walk occs after)
    (stands : Stands tables s.scopes around) : Follows tables walk occs after s log :=
  NameResolution.follows intact traces awaited.linked awaited.spelled awaited.nodup stands
    awaited.fresh

/-- To enter or leave a scope settles nothing. -/
theorem moves (awaited : Awaited tables occs s) (moves : Moves s s') : Awaited tables occs s' := by
  refine ⟨awaited.linked, awaited.spelled, awaited.nodup, ?_⟩
  rw [moves.1]
  exact awaited.fresh

theorem tail (awaited : Awaited tables (occ :: occs) s) : Awaited tables occs s where
  linked occ mem := awaited.linked occ (List.mem_cons_of_mem _ mem)
  spelled occ mem := awaited.spelled occ (List.mem_cons_of_mem _ mem)
  nodup := (List.nodup_cons.mp awaited.nodup).2
  fresh occ mem := awaited.fresh occ (List.mem_cons_of_mem _ mem)

theorem left (awaited : Awaited tables (occs ++ others) s) : Awaited tables occs s where
  linked occ mem := awaited.linked occ (List.mem_append_left _ mem)
  spelled occ mem := awaited.spelled occ (List.mem_append_left _ mem)
  nodup := by
    have nodup := awaited.nodup
    rw [List.map_append] at nodup
    exact (List.nodup_append.mp nodup).1
  fresh occ mem := awaited.fresh occ (List.mem_append_left _ mem)

/-- What is settled first leaves the nodes behind it alone. -/
theorem right (awaited : Awaited tables (occs ++ others) s)
    (resolves : Resolves tables occs s s') : Awaited tables others s' := by
  have nodup := awaited.nodup
  rw [List.map_append] at nodup
  obtain ⟨-, nodup, apart⟩ := List.nodup_append.mp nodup
  refine ⟨fun occ mem => awaited.linked occ (List.mem_append_right _ mem),
    fun occ mem => awaited.spelled occ (List.mem_append_right _ mem), nodup, fun occ mem => ?_⟩
  rw [resolves.others _ fun mem' => apart _ mem' _ (List.mem_map_of_mem mem) rfl]
  exact awaited.fresh occ (List.mem_append_right _ mem)

end Awaited

/-! ## Points -/

/-- What following a walk up to some point comes to. -/
def GetsTo (tables : Tables) (before rest : Walk) (occs : List Occurrence) (s : ResolveState)
    (log : Log) : Prop :=
  Run False (Resolving.follow tables before) s log fun _ s' _ =>
    ∃ here, Stands tables s'.scopes here ∧ Ahead rest occs here

/-- In front of the first step nothing has changed. -/
theorem getsTo_start {around : Regions} {rest : Walk} {occs : List Occurrence}
    (stands : Stands tables s.scopes around) (ahead : Ahead rest occs around) :
    GetsTo tables [] rest occs s log :=
  ⟨around, stands, ahead⟩

/-- Behind the last step nothing is left. -/
theorem Follows.getsTo_end {walk : Walk} {occs others : List Occurrence} {after : Regions}
    (h : Follows tables walk occs after s log) : GetsTo tables walk [] others s log :=
  Run.mono h fun _ _ _ ended => ⟨after, ended.1, .nothing⟩

/-- The points of a walk of one step are in front of it and behind it. -/
theorem getsTo_singleton {step : WalkStep} {before rest : Walk} {occs : List Occurrence}
    {around after : Regions} (split : [step] = before ++ rest)
    (stands : Stands tables s.scopes around) (ahead : Ahead [step] occs around)
    (whole : Follows tables [step] occs after s log) : GetsTo tables before rest occs s log := by
  rcases List.append_eq_singleton_iff.mp split.symm with ⟨rfl, rfl⟩ | ⟨rfl, rfl⟩
  · exact getsTo_start stands ahead
  · exact whole.getsTo_end

/-- A point inside a scope is one of the walk between entering and leaving it. -/
theorem getsTo_within {first : WalkStep} {inner before rest : Walk} {occs : List Occurrence}
    {region : Region} {around : Regions} (split : Walk.within first inner = before ++ rest)
    (silent : first.visited? = none) (stands : Stands tables s.scopes around)
    (enters : Run False (Resolving.step tables first) s log fun _ s' _ =>
      Stands tables s'.scopes (region :: around) ∧ Moves s s')
    (inside : ∀ {s' : ResolveState} {log' : Log} {before' rest' : Walk},
      Stands tables s'.scopes (region :: around) → Moves s s' → inner = before' ++ rest' →
      GetsTo tables before' rest' occs s' log')
    (whole : Follows tables (Walk.within first inner) occs around s log) :
    GetsTo tables before rest occs s log := by
  cases before with
  | nil =>
    rw [List.nil_append] at split
    subst split
    exact getsTo_start stands (.of_silent silent)
  | cons step before =>
    have split' : first :: (inner ++ [.leave]) = step :: (before ++ rest) := split
    obtain ⟨rfl, behind⟩ := List.cons.inj split'
    -- the point lies in front of the step that leaves the scope, or it is the end
    have steps : Resolving.follow tables (first :: before) =
        Resolving.step tables first >>= fun _ => Resolving.follow tables before := rfl
    have here {rest' : Walk} (inside' : inner = before ++ rest') (eq : rest = rest' ++ [.leave]) :
        GetsTo tables (first :: before) rest occs s log := by
      subst eq
      rw [GetsTo, steps, Run.bind_iff]
      apply enters.mono
      intro _ s₁ log₁ ended
      apply Run.mono (inside ended.1 ended.2 inside')
      rintro _ s₂ log₂ ⟨point, stands₂, ahead⟩
      exact ⟨point, stands₂, ahead.append_leave⟩
    rcases List.append_eq_append_iff.mp behind with ⟨more, eq, last⟩ | ⟨rest', eq, last⟩
    · rcases List.append_eq_singleton_iff.mp last.symm with ⟨rfl, rfl⟩ | ⟨rfl, rfl⟩
      · have atEnd : inner = before ++ [] := by rw [eq, List.append_nil, List.append_nil]
        exact here atEnd rfl
      · rw [eq]
        exact whole.getsTo_end
    · exact here eq last

/-- Each point of a walk that goes through occurrences is reached, in scopes that are those of the
    regions around it. -/
theorem getsTo (intact : Intact tables.defs tables.tree) {around after : Regions} {walk : Walk}
    {occs : List Occurrence} (traces : Traces around walk occs after)
    (awaited : Awaited tables occs s) (stands : Stands tables s.scopes around) {before rest : Walk}
    (split : walk = before ++ rest) : GetsTo tables before rest occs s log := by
  induction traces generalizing s log before rest with
  | nothing =>
    obtain ⟨rfl, rfl⟩ := List.append_eq_nil_iff.mp split.symm
    exact getsTo_start stands .nothing
  | silent =>
    obtain ⟨rfl, rfl⟩ := List.append_eq_nil_iff.mp split.symm
    exact getsTo_start stands .nothing
  | refer refers =>
    refine getsTo_singleton split stands ?_ (awaited.follows intact (.refer refers) stands)
    cases refers <;> exact .of_occurrence rfl rfl
  | bind =>
    exact getsTo_singleton split stands (.of_occurrence rfl rfl)
      (awaited.follows intact .bind stands)
  | bareName =>
    exact getsTo_singleton split stands (.of_occurrence rfl rfl)
      (awaited.follows intact .bareName stands)
  | @plain around kind walk occs binders inner ih =>
    refine getsTo_within split rfl stands (run_enterPlain stands kind) ?_
      (awaited.follows intact (.plain binders inner) stands)
    intro s₁ log₁ before' rest' stands₁ moves split'
    exact ih (awaited.moves moves) stands₁ split'
  | @within around inside step node role walk occs binders opens inner ih =>
    have whole : Follows tables (Walk.within step walk) (⟨node, role, around⟩ :: occs) around s
        log := awaited.follows intact (.within binders opens inner) stands
    obtain ⟨region, rfl⟩ := opens.exists_region
    have silent : step.visited? = none := by cases opens <;> rfl
    refine getsTo_within split silent stands
      (run_opens intact opens (awaited.linked _ (List.mem_cons_self ..)) stands) ?_ whole
    intro s₁ log₁ before' rest' stands₁ moves split'
    apply Run.mono (ih (awaited.tail.moves moves) stands₁ split')
    rintro _ s₂ log₂ ⟨here, stands₂, ahead⟩
    exact ⟨here, stands₂, ahead.mono (List.subset_cons_self ..)⟩
  | @append around middle after first second occs others h h' ih ih' =>
    -- behind all of the first part the point is one of the second part
    have behind {before' : Walk} (split' : second = before' ++ rest) :
        GetsTo tables (first ++ before') rest (occs ++ others) s log := by
      rw [GetsTo, follow_append, Run.bind_iff]
      apply Run.mono (awaited.left.follows intact h stands)
      rintro _ s₁ log₁ ⟨stands₁, resolves⟩
      apply Run.mono (ih' (awaited.right resolves) stands₁ split')
      rintro _ s₂ log₂ ⟨here, stands₂, ahead⟩
      exact ⟨here, stands₂, ahead.mono (List.subset_append_right ..)⟩
    rcases List.append_eq_append_iff.mp split with ⟨before', rfl, eq⟩ | ⟨rest', eq, rfl⟩
    · exact behind eq
    · by_cases atEnd : rest' = []
      · subst atEnd
        rw [List.append_nil] at eq
        subst eq
        have here : GetsTo tables (first ++ []) ([] ++ second) (occs ++ others) s log := behind rfl
        rwa [List.append_nil] at here
      · apply Run.mono (ih awaited.left stands eq)
        rintro _ s₁ log₁ ⟨here, stands₁, ahead⟩
        exact ⟨here, stands₁, (ahead.append atEnd second).mono (List.subset_append_left ..)⟩

/-! ## On the way -/

/-- On its way to `resolved`, the second pass is in a state between two parts of a walk. -/
def Resolving.GoesThrough (tables : Tables) (before rest : Walk) (s resolved : ResolveState) :
    Prop :=
  ∃ log₀ log₁ log₂, follow tables before .start log₀ = .ok ((), s) log₁ ∧
    follow tables rest s log₁ = .ok ((), resolved) log₂

/-- The second pass over a program has followed its walk. -/
theorem follow_of_resolveNames {program : Program} {resolved : ResolveState}
    {log' : Log} (run : resolveNames tables program log = .ok resolved log') :
    ∃ log₁, Resolving.follow tables (.ofProgram program) .start log = .ok ((), resolved) log₁ := by
  obtain ⟨⟨_, s'⟩, _, whole, last⟩ := Logged.bind_eq_ok.mp run
  cases last
  have comes : Run True (Resolving.wholeProgram tables program) .start log fun _ s' _ =>
      ∃ log₁, Resolving.follow tables (.ofProgram program) .start log = .ok ((), s') log₁ := by
    simp only [Resolving.wholeProgram, Run.bind_iff, Run.get_iff]
    refine Run.true_iff.mpr fun _ s₁ log₁ follow => ?_
    -- what comes behind the walk leaves the state as it is
    split
    · exact ⟨log₁, follow⟩
    · simp only [Run.bind_iff, Resolving.lift, Run.lift_iff, Yields.error_iff]
      exact Yields.trivial_of_true fun _ => trivial
  exact Run.true_iff.mp comes _ _ _ whole

/-- Wherever the walk is cut, the second pass goes through a state there. -/
theorem exists_goesThrough {program : Program} {resolved : ResolveState} {log' : Log}
    (run : resolveNames tables program log = .ok resolved log') {before rest : Walk}
    (split : Walk.ofProgram program = before ++ rest) :
    ∃ s, Resolving.GoesThrough tables before rest s resolved := by
  obtain ⟨log₂, follow⟩ := follow_of_resolveNames run
  rw [split, follow_append] at follow
  obtain ⟨_, s, log₁, first, second⟩ := Run.bind_eq_ok.mp follow
  exact ⟨s, log, log₁, log₂, first, second⟩

/-- It goes through the state that the front part of the walk comes to. -/
theorem goesThrough_of_follow {program : Program} {resolved : ResolveState}
    {log₁ log' : Log} (run : resolveNames tables program log = .ok resolved log')
    {before rest : Walk} (split : Walk.ofProgram program = before ++ rest)
    (front : Resolving.follow tables before .start log = .ok ((), s) log₁) :
    Resolving.GoesThrough tables before rest s resolved := by
  obtain ⟨log₂, follow⟩ := follow_of_resolveNames run
  rw [split, follow_append] at follow
  obtain ⟨_, _, _, first, second⟩ := Run.bind_eq_ok.mp follow
  cases first.symm.trans front
  exact ⟨_, _, _, front, second⟩

/-- There the scopes are those of the regions around the point. -/
theorem Resolving.GoesThrough.stands {program : Program} {before rest : Walk}
    {resolved : ResolveState} (through : Resolving.GoesThrough tables before rest s resolved)
    (split : Walk.ofProgram program = before ++ rest)
    (covers : Covers tables.defs tables.tree program) (nodup : program.nodes.Nodup)
    (spelled : ∀ occ ∈ program.occurrences, ∀ path, occ.role.path? = some path →
      path.segments ≠ []) :
    ∃ here, Stands tables s.scopes here ∧ Ahead rest program.occurrences here := by
  obtain ⟨log₀, log₁, log₂, first, -⟩ := through
  have awaited : Awaited tables program.occurrences .start :=
    ⟨covers.linked, spelled, (List.nodup_cons.mp nodup).2, fun _ _ => rfl⟩
  exact Run.of_ok (getsTo covers.intact program.traces_walk awaited (stands_start covers) split)
    first

end NameResolution
