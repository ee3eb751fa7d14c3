import NameResolution.Proofs.Resolution.Meaning

/-! # Paths segment by segment

    A path goes on with its last segment from what the others come to. Where the
    last one is bound to a set of functions, the labels of a call pick one of
    them. Without labels there must be only one. -/

namespace NameResolution

/-! ## Searches with one result -/

theorem PathSearch.lift_ok {α : Type} (a : α) :
    (liftM (Except.ok a : Except Fault α) : PathSearch α) = pure a := rfl

/-- What follows a search goes on with its result and its warnings. -/
theorem PathSearch.run_bind {α β : Type} {m : PathSearch α} {f : α → PathSearch β} {a : α}
    {warnings warnings' : List Diagnostic} (h : m.run.run warnings = .ok (.ok a, warnings')) :
    (m >>= f).run.run warnings = (f a).run.run warnings' := by
  show (m.run.run warnings >>= fun p => (ExceptT.bindCont f p.1).run p.2) = _
  rw [h]
  rfl

/-- A search comes to one result, with whatever warnings. -/
def Ends {α : Type} (m : PathSearch α) (result : Except Diagnostic α) : Prop :=
  ∀ warnings, ∃ warnings', m.run.run warnings = .ok (result, warnings')

namespace Ends

variable {α β : Type} {m : PathSearch α} {f : α → PathSearch β} {a : α}

theorem pure (a : α) : Ends (Pure.pure a) (.ok a) := fun warnings => ⟨warnings, rfl⟩

theorem throw (d : Diagnostic) : Ends (MonadExcept.throw d : PathSearch α) (.error d) :=
  fun warnings => ⟨warnings, rfl⟩

theorem of_searches (h : Searches [] m (· = a)) : Ends m (.ok a) := by
  intro warnings
  obtain ⟨more, -, run⟩ := h.ends warnings
  exact ⟨_, run⟩

theorem bind {result : Except Diagnostic β} (h : Ends m (.ok a)) (h' : Ends (f a) result) :
    Ends (m >>= f) result := by
  intro warnings
  obtain ⟨warnings₁, run⟩ := h warnings
  obtain ⟨warnings₂, run'⟩ := h' warnings₁
  exact ⟨warnings₂, (PathSearch.run_bind run).trans run'⟩

end Ends

/-- A path has no front part to go on from: it has no more than one segment, or all that it does is
    to climb. -/
def Path.Frontless (path : Path) : Prop :=
  path.segments.length ≤ 1 ∨
    path.global = false ∧ ∀ segment ∈ path.segments, segment.kind = .super

theorem Path.Frontless.rest {path : Path} (h : path.Frontless) {first : Segment}
    {rest : List Segment} (segments : path.segments = first :: rest) :
    rest = [] ∨ ∀ segment ∈ first :: rest, segment.kind = .super := by
  rw [Frontless, segments] at h
  refine h.imp (fun short => ?_) And.right
  exact List.eq_nil_of_length_eq_zero (Nat.le_zero.mp (Nat.le_of_succ_le_succ short))

/-- From the root there is no climbing. -/
theorem Path.Frontless.rest_eq_nil_of_global {path : Path} (h : path.Frontless) {first : Segment}
    {rest : List Segment} (segments : path.segments = first :: rest) (global : path.global = true) :
    rest = [] := by
  rw [Frontless, segments, global] at h
  have short := h.resolve_right fun climbs => Bool.noConfusion climbs.1
  exact List.eq_nil_of_length_eq_zero (Nat.le_zero.mp (Nat.le_of_succ_le_succ short))

namespace Tables

variable {tables : Tables}

/-! ## Up to the last segment -/

/-- With more segments to come, a segment is looked up as a type, without labels. -/
theorem segmentNamespace_concat (ns : Namespace) (rest : List Segment) (last : Segment) :
    segmentNamespace ns (rest ++ [last]) = .type := by
  simp [segmentNamespace]

theorem segmentSuffix_concat (suffix : Option String) (rest : List Segment) (last : Segment) :
    segmentSuffix suffix (rest ++ [last]) = none := by
  simp [segmentSuffix]

theorem segmentNamespace_type (rest : List Segment) : segmentNamespace .type rest = .type :=
  ite_self _

theorem segmentSuffix_none (rest : List Segment) : segmentSuffix none rest = none := ite_self _

variable (tables) in
/-- Goes on with the last segment from what the others have come to. -/
def goOn (origin : ModuleId) (ns : Namespace) (suffix : Option String) (last : Segment) :
    Resolution → PathSearch Resolution
  | .definition id => tables.followMembers origin ns suffix id [last]
  | .typeRelative base unresolved => return .typeRelative base (unresolved + 1)
  | resolution => return resolution

theorem followMembers_concat (origin : ModuleId) (ns : Namespace) (suffix : Option String)
    (lead : List Segment) (last : Segment) (id : DefId) :
    tables.followMembers origin ns suffix id (lead ++ [last]) =
      tables.followMembers origin .type none id lead >>= tables.goOn origin ns suffix last := by
  induction lead generalizing id with
  | nil =>
    rw [List.nil_append, followMembers, pure_bind]
    rfl
  | cons segment rest ih =>
    rw [List.cons_append]
    conv_lhs => unfold followMembers
    conv_rhs => unfold followMembers
    cases segment.ident? with
    | none => rfl
    | some ident =>
      simp only [segmentNamespace_concat, segmentSuffix_concat, segmentNamespace_type,
        segmentSuffix_none, bind_assoc]
      refine bind_congr fun definition => ?_
      cases tables.defs.module? id with
      | none =>
        simp only [pure_bind]
        -- what is left to type checking has one more segment, and an error stays as it is
        split
        · rw [pure_bind, List.length_append]
          rfl
        · rfl
      | some module =>
        simp only [bind_assoc]
        refine bind_congr fun found => ?_
        cases found with
        | none =>
          dsimp only
          split
          · rw [pure_bind, List.length_append]
            rfl
          · simp only [bind_assoc]
            rfl
        | some binding => simp only [bind_assoc, ih]

/-- One more segment is left behind the words in front, unless it is one more `super` itself. -/
theorem climb_concat {last : Segment} (segments : List Segment) (module : ModuleId)
    (ordinary : ∃ segment ∈ segments ++ [last], segment.kind ≠ .super) :
    tables.climb module (segments ++ [last]) =
      (fun p => (p.1, p.2 ++ [last])) <$> tables.climb module segments := by
  induction segments generalizing module with
  | nil =>
    obtain ⟨_, mem, notSuper⟩ := ordinary
    cases List.mem_singleton.mp mem
    rw [List.nil_append]
    unfold climb
    rw [if_neg notSuper]
    simp
  | cons segment rest ih =>
    rw [List.cons_append]
    unfold climb
    split
    · next isSuper =>
      obtain ⟨other, mem, notSuper⟩ := ordinary
      have behind : other ∈ rest ++ [last] := by
        refine (List.mem_cons.mp mem).resolve_left ?_
        rintro rfl
        exact notSuper isSuper
      simp only [map_bind]
      refine bind_congr fun m => ?_
      cases m.parent with
      | none => rfl
      | some parent =>
        simp only [map_bind]
        exact bind_congr fun outer => ih outer ⟨other, behind, notSuper⟩
    · simp

/-- An absolute path is followed from the root. -/
theorem resolvePath_of_global {path : Path} (global : path.global = true)
    (spelled : path.segments ≠ []) (stack : ScopeStack) (ns : Namespace)
    (suffix : Option String) : tables.resolvePath stack ns path suffix =
      tables.followMembers stack.nearestModule ns suffix .root path.segments := by
  obtain ⟨first, rest, segments⟩ := List.exists_cons_of_ne_nil spelled
  unfold resolvePath
  rw [segments]
  exact if_pos global

/-- A relative path goes on from where its first segment leads. -/
theorem resolvePath_of_relative {path : Path} (relative : path.global = false) {first : Segment}
    {rest : List Segment} (segments : path.segments = first :: rest) (stack : ScopeStack)
    (ns : Namespace) (suffix : Option String) : tables.resolvePath stack ns path suffix =
      tables.resolveFirst stack ns suffix first rest >>= fun start => match start with
        | .inl resolution => pure resolution
        | .inr (id, left) => tables.followMembers stack.nearestModule ns suffix id left := by
  unfold resolvePath
  rw [segments]
  dsimp only
  rw [relative]
  rfl

/-- A path goes on from what its front part comes to as a type. -/
theorem resolvePath_concat {stack : ScopeStack} {path : Path} {lead : List Segment}
    {last : Segment} (split : path.segments = lead ++ [last]) (notEmpty : lead ≠ [])
    (ordinary : path.global = true ∨ ∃ segment ∈ lead ++ [last], segment.kind ≠ .super)
    (ns : Namespace) (suffix : Option String) :
    tables.resolvePath stack ns path suffix =
      tables.resolvePath stack .type { path with segments := lead } none >>=
        tables.goOn stack.nearestModule ns suffix last := by
  cases lead with
  | nil => exact absurd rfl notEmpty
  | cons first rest =>
    unfold resolvePath
    rw [split, List.cons_append]
    dsimp only
    by_cases global : path.global = true
    · rw [if_pos global, if_pos global]
      exact followMembers_concat _ _ _ (first :: rest) _ _
    · rw [if_neg global, if_neg global, bind_assoc]
      unfold resolveFirst
      cases first.kind with
      | selfType =>
        dsimp only
        cases stack.innermost.selfItem with
        | none => rfl
        | some id => simp only [pure_bind, followMembers_concat]
      | selfModule => simp only [bind_assoc, pure_bind, followMembers_concat]
      | super =>
        rw [← List.cons_append]
        simp only [bind_assoc, pure_bind, climb_concat _ _ (ordinary.resolve_left global),
          bind_map_left, followMembers_concat]
      | name name =>
        simp only [segmentNamespace_concat, segmentSuffix_concat, segmentNamespace_type,
          segmentSuffix_none, bind_assoc]
        refine bind_congr fun found => ?_
        cases found with
        | none => simp [bind_assoc]
        | some found =>
          cases found with
          | localVar node => rfl
          | item module binding => simp only [bind_assoc, pure_bind, followMembers_concat]

/-- A path has no front part, or it goes on from what that comes to. -/
theorem frontless_or_goesOn {stack : ScopeStack} {path : Path} {front : List Segment}
    {last : Segment} (split : path.segments = front ++ [last]) :
    path.Frontless ∨ front ≠ [] ∧ ∀ ns suffix,
      tables.resolvePath stack ns path suffix =
        tables.resolvePath stack .type { path with segments := front } none >>=
          tables.goOn stack.nearestModule ns suffix last := by
  by_cases frontless : path.Frontless
  · exact .inl frontless
  · rw [Path.Frontless, not_or, not_and_or, Bool.not_eq_false] at frontless
    obtain ⟨long, ordinary⟩ := frontless
    have notEmpty : front ≠ [] := by
      rintro rfl
      simp [split] at long
    refine .inr ⟨notEmpty, resolvePath_concat split notEmpty ?_⟩
    rw [← split]
    simpa using ordinary

end Tables

/-! ## Sets of functions -/

/-- The member of a set that labels ask for. Without labels it must be the only one. -/
def OverloadSet.pick? (set : OverloadSet) : Option String → Option DefId
  | some labels => set.get? labels
  | none => set.single?

namespace Tables

variable (tables : Tables)

/-- What is reported where labels pick no member. -/
def unpicked (ident : Ident) (set : OverloadSet) : Option String → Diagnostic
  | some labels =>
    .suffixMismatch ident.name labels ident.span set.suffixes
      (tables.overloadsHelp ident.name set.suffixes)
  | none =>
    .ambiguousOverload ident.name ident.span set.suffixes
      (tables.overloadsHelp ident.name set.suffixes)

/-- What a name comes to that is bound to a set of functions. -/
inductive Picks (ident : Ident) (set : OverloadSet) (suffix : Option String) :
    Except Diagnostic Resolution → Prop where
  | member {member final : DefId} (picked : set.pick? suffix = some member)
      (stands : tables.defs.Names member final) : Picks ident set suffix (.ok (.definition final))
  | nothing (unpicked : set.pick? suffix = none) :
      Picks ident set suffix (.error (tables.unpicked ident set suffix))

/-- The segments in front of the last one lead to a definition, which is that of the program if
    there are none. -/
inductive FrontLeadsTo (stack : ScopeStack) (path : Path) : List Segment → DefId → Prop where
  | root (global : path.global = true) : FrontLeadsTo stack path [] .root
  | lead {lead : List Segment} {id : DefId} {warnings : List Diagnostic} (notEmpty : lead ≠ [])
      (run : (tables.resolvePath stack .type { path with segments := lead } none).run.run [] =
        .ok (.ok (.definition id), warnings)) : FrontLeadsTo stack path lead id

/-- At a point, the last segment of a path is bound to a set of functions: as a name in scope where
    it is the only segment, and else in the module that the others lead to. -/
inductive EndsAtSet (stack : ScopeStack) (ns : Namespace) (path : Path) :
    Ident → OverloadId → Prop where
  | name {ident : Ident} {module : ModuleId} {set : OverloadId} (relative : path.global = false)
      (alone : path.segments = [⟨.name ident.name, ident.span⟩])
      (bound : tables.lookup stack ns ident.name =
        .ok (some (.item module (.overloads set)))) : EndsAtSet stack ns path ident set
  | member {lead : List Segment} {ident : Ident} {id : DefId} {module : ModuleId}
      {set : OverloadId} (split : path.segments = lead ++ [⟨.name ident.name, ident.span⟩])
      (front : tables.FrontLeadsTo stack path lead id)
      (home : tables.defs.module? id = some module)
      (bound : tables.tree.bindingAt? module ns ident.name = some (.overloads set)) :
      EndsAtSet stack ns path ident set

variable {tables : Tables} {stack : ScopeStack} {ns : Namespace} {suffix : Option String}
  {path : Path} {ident : Ident} {id : OverloadId} {set : OverloadSet}

theorem selectMember_overloads (held : tables.defs.overloads[id.index]? = some set)
    (ident : Ident) (suffix : Option String) :
    tables.selectMember (.overloads id) ident suffix =
      (set.pick? suffix).elim (throw (tables.unpicked ident set suffix)) pure := by
  unfold selectMember
  dsimp only
  rw [Definitions.overloadSet_of_getElem? held, PathSearch.lift_ok, pure_bind]
  cases suffix with
  | some labels =>
    dsimp only [OverloadSet.pick?, unpicked]
    cases set.get? labels <;> rfl
  | none =>
    dsimp only [OverloadSet.pick?, unpicked]
    cases set.single? <;> rfl

/-- What is picked is a member of the set. -/
theorem names_of_pick? (valid : tables.defs.Valid)
    (held : tables.defs.overloads[id.index]? = some set) {member : DefId}
    (picked : set.pick? suffix = some member) : ∃ final, tables.defs.Names member final := by
  have known : tables.defs.Known member := by
    cases suffix with
    | some labels => exact valid.members held picked
    | none =>
      obtain ⟨label, mem⟩ := OverloadSet.get?_of_single? picked
      exact valid.members held mem
  obtain ⟨final, resolved, -⟩ := valid.resolveAlias known
  exact ⟨final, (valid.resolveAlias_iff known).mp resolved⟩

/-- The labels pick a member, and the search goes on to what it stands for, or they pick none. -/
theorem exists_picks (valid : tables.defs.Valid)
    (held : tables.defs.overloads[id.index]? = some set) (ident : Ident) (suffix : Option String)
    {others : DefId → PathSearch Resolution}
    (ends : ∀ member final, tables.defs.Names member final →
      Ends (others member) (.ok (.definition final))) :
    ∃ result, tables.Picks ident set suffix result ∧
      Ends (tables.selectMember (.overloads id) ident suffix >>= others) result := by
  rw [selectMember_overloads held]
  cases found : set.pick? suffix with
  | none => exact ⟨_, .nothing found, .throw _⟩
  | some member =>
    obtain ⟨final, stands⟩ := names_of_pick? valid held found
    exact ⟨_, .member found stands, ends member final stands⟩

/-- The last segment is bound in the module of a definition. -/
theorem exists_picks_followMembers (intact : Intact tables.defs tables.tree)
    {origin module : ModuleId} (known : tables.tree.Known origin) {owner : DefId}
    (home : tables.defs.module? owner = some module)
    (bound : tables.tree.bindingAt? module ns ident.name = some (.overloads id))
    (held : tables.defs.overloads[id.index]? = some set) (suffix : Option String) :
    ∃ result, tables.Picks ident set suffix result ∧
      Ends (tables.followMembers origin ns suffix owner [⟨.name ident.name, ident.span⟩])
        result := by
  have there := intact.modules home
  obtain ⟨m, found⟩ := there.find?
  have member : tables.findMember module ns ident.name = .ok (some (.overloads id)) := by
    rw [ModuleTree.bindingAt?_of_find? found] at bound
    refine Except.bind_eq_ok.mpr ⟨m, ModuleTree.get_of_find? found, ?_⟩
    rw [bound]
    rfl
  obtain ⟨definition, found'⟩ := Definitions.Known.find? (intact.validDefs.owners home)
  have got : tables.defs.get owner = .ok definition := Definitions.get_of_find? found'
  have selects : tables.followMembers origin ns suffix owner [⟨.name ident.name, ident.span⟩] =
      tables.selectMember (.overloads id) ident suffix >>= fun member =>
        tables.checkPrivacy origin module member ident >>= fun _ =>
          tables.followAlias member ident >>= fun final =>
            tables.followMembers origin ns suffix final [] := by
    have here : segmentNamespace ns [] = ns := rfl
    have isIdent : Segment.ident? ⟨.name ident.name, ident.span⟩ = some ident := rfl
    rw [followMembers, isIdent]
    dsimp only
    rw [here, got, home]
    dsimp only
    rw [member]
    simp only [PathSearch.lift_ok, pure_bind]
    rfl
  rw [selects]
  refine exists_picks intact.validDefs held ident suffix fun member final stands => ?_
  have checked : Ends (tables.checkPrivacy origin module member ident) (.ok ⟨⟩) :=
    .of_searches
      ((searches_checkPrivacy intact known there stands.known ident).mono fun _ _ => rfl)
  have followed : Ends (tables.followAlias member ident) (.ok final) :=
    .of_searches (searches_followAlias_of_names intact.validDefs stands ident)
  exact checked.bind (followed.bind (.pure _))

/-- The only segment is bound in scope. -/
theorem exists_picks_resolvePath (valid : tables.defs.Valid) {module : ModuleId}
    (relative : path.global = false)
    (alone : path.segments = [⟨.name ident.name, ident.span⟩])
    (bound : tables.lookup stack ns ident.name = .ok (some (.item module (.overloads id))))
    (held : tables.defs.overloads[id.index]? = some set) (suffix : Option String) :
    ∃ result, tables.Picks ident set suffix result ∧
      Ends (tables.resolvePath stack ns path suffix) result := by
  have selects : tables.resolvePath stack ns path suffix =
      tables.selectMember (.overloads id) ident suffix >>= fun member =>
        tables.followAlias member ident >>= fun final =>
          tables.followMembers stack.nearestModule ns suffix final [] := by
    have here : segmentNamespace ns [] = ns := rfl
    rw [resolvePath_of_relative relative alone]
    unfold resolveFirst
    dsimp only
    rw [here, bound]
    simp only [PathSearch.lift_ok, pure_bind, bind_assoc]
    rfl
  rw [selects]
  refine exists_picks valid held ident suffix fun member final stands => ?_
  have followed : Ends (tables.followAlias member ident) (.ok final) :=
    .of_searches (searches_followAlias_of_names valid stands ident)
  exact followed.bind (.pure _)

/-- Where the last segment of a path is bound to a set of functions, the path comes to what the
    labels pick. -/
theorem EndsAtSet.exists_picks (h : tables.EndsAtSet stack ns path ident id)
    (intact : Intact tables.defs tables.tree) (known : tables.tree.Known stack.nearestModule)
    (held : tables.defs.overloads[id.index]? = some set) (suffix : Option String) :
    ∃ result warnings, tables.Picks ident set suffix result ∧
      (tables.resolvePath stack ns path suffix).run.run [] = .ok (result, warnings) := by
  cases h with
  | name relative alone bound =>
    obtain ⟨result, picks, ends⟩ :=
      exists_picks_resolvePath intact.validDefs relative alone bound held suffix
    obtain ⟨warnings, run⟩ := ends []
    exact ⟨result, warnings, picks, run⟩
  | @member lead _ owner module _ split front home bound =>
    obtain ⟨result, picks, ends⟩ :=
      exists_picks_followMembers intact known home bound held suffix
    cases front with
    | root global =>
      obtain ⟨warnings, run⟩ := ends []
      refine ⟨result, warnings, picks, ?_⟩
      rw [resolvePath_of_global global (by simp [split]), split]
      exact run
    | @lead _ _ before notEmpty front =>
      obtain ⟨warnings, run⟩ := ends before
      refine ⟨result, warnings, picks, ?_⟩
      have ordinary : ∃ segment ∈ lead ++ [⟨.name ident.name, ident.span⟩],
          segment.kind ≠ .super := ⟨⟨.name ident.name, ident.span⟩, by simp, by simp⟩
      rw [resolvePath_concat split notEmpty (.inr ordinary), PathSearch.run_bind front]
      exact run

end Tables

end NameResolution
