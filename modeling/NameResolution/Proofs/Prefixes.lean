import NameResolution.Proofs.Calls
import NameResolution.Proofs.Resolution.Members

/-! # Paths that break off

    Where a path comes to a type and the type has no member of the next name,
    the search breaks off and leaves the rest to type checking. This is so
    exactly where the front part, looked up as a type of its own, comes to that
    type. It makes no difference that in the whole path no segment of the front
    part is the last one. -/

namespace NameResolution

/-- What follows a search is reached with its result. -/
theorem PathSearch.exists_of_run_bind {α β : Type} {m : PathSearch α} {f : α → PathSearch β} {b : β}
    {warnings warnings' : List Diagnostic}
    (run : (m >>= f).run.run warnings = .ok (.ok b, warnings')) :
    ∃ a warnings₁, m.run.run warnings = .ok (.ok a, warnings₁) ∧
      (f a).run.run warnings₁ = .ok (.ok b, warnings') := by
  have run : m.run.run warnings >>= (fun p => (ExceptT.bindCont f p.1).run p.2) =
      .ok (.ok b, warnings') := run
  obtain ⟨⟨r, warnings₁⟩, first, rest⟩ := Except.bind_eq_ok.mp run
  cases r with
  | ok a => exact ⟨a, warnings₁, first, rest⟩
  | error d => cases rest

namespace Tables

/-- At a point, the segments in front of another one lead to a type, and the type has no member of
    that name: the path breaks off there. -/
structure BreaksOff (tables : Tables) (stack : ScopeStack) (ns : Namespace) (path : Path)
    (lead : List Segment) (segment : Segment) (rest : List Segment) (base : DefId) : Prop where
  split : path.segments = lead ++ segment :: rest
  notEmpty : lead ≠ []
  front : ∃ warnings, (tables.resolvePath stack .type { path with segments := lead } none).run.run
    [] = .ok (.ok (.definition base), warnings)
  isType : ∃ definition, tables.defs.find? base = some definition ∧
    definition.kind ∈ [.struct, .enum, .trait, .typeAlias, .typeParam, .impl]
  noMember : ∃ ident, segment.ident? = some ident ∧
    tables.memberOf? base (segmentNamespace ns rest) ident.name = none

variable {tables : Tables} {stack : ScopeStack} {ns : Namespace} {suffix : Option String}
  {path : Path} {base : DefId} {left : Nat}

theorem isTypeLike_iff (kind : DefKind) :
    kind.isTypeLike = true ↔ kind ∈ [.struct, .enum, .trait, .typeAlias, .typeParam, .impl] := by
  cases kind <;> decide

/-- The definition of the program is that of a `mod`. -/
theorem IsMod.exists_root (root : tables.IsMod .root) (intact : Intact tables.defs tables.tree) :
    ∃ d, tables.defs.find? .root = some d ∧ d.kind = .mod := by
  obtain ⟨m, found, tested⟩ := root
  obtain ⟨_, found', owner, -⟩ := intact.validTree.root
  rw [found] at found'
  cases found'
  unfold ModuleTree.isMod at tested
  rw [owner] at tested
  obtain ⟨d, got, isMod⟩ := Except.bind_eq_ok.mp tested
  exact ⟨d, Definitions.find?_of_get got, by simpa using Except.ok.inj isMod⟩

/-- Of a path without a front part nothing is left. -/
theorem gives_resolvePath_of_frontless (intact : Intact tables.defs tables.tree)
    (root : tables.IsMod .root) (frontless : path.Frontless) :
    Gives (tables.resolvePath stack ns path suffix) fun r =>
      ∀ base left, r ≠ .typeRelative base left := by
  unfold resolvePath
  split
  · intro warnings
    trivial
  · next first rest segments =>
    split
    · next global =>
      -- the only segment is followed from the root, which is no type
      obtain rfl := frontless.rest_eq_nil_of_global segments global
      obtain ⟨d, found, isMod⟩ := root.exists_root intact
      have continues := continues_followMembers intact
        (Definitions.known_of_find? found) stack.nearestModule ns suffix first
      generalize tables.followMembers _ _ _ _ _ = search at continues
      cases continues with
      | word d _ => exact .throw _ _
      | beyond _ found' _ isType =>
        rw [found] at found'
        cases found'
        rw [isMod] at isType
        cases isType
      | missing d _ _ _ _ => exact .throw _ _
      | unpicked d _ _ _ => exact .throw _ _
      | member _ _ _ _ => exact .bind (.trivial _) fun _ _ => .pure (by rintro _ _ ⟨⟩)
    · refine .bind (gives_resolveFirst_alone (frontless.rest segments)) ?_
      rintro (r | ⟨id, _⟩) holds
      · exact .pure holds
      · subst holds
        unfold followMembers
        exact .pure (by rintro _ _ ⟨⟩)

/-- A search that ends with something else, or with an error, leaves nothing to type checking. -/
theorem not_typeRelative_of_gives {search : PathSearch Resolution}
    (gives : Gives search fun r => ∀ base left, r ≠ .typeRelative base left)
    (warnings : List Diagnostic) :
    ¬ ∃ warnings', search.run.run warnings = .ok (.ok (.typeRelative base left), warnings') := by
  rintro ⟨warnings', run⟩
  have given := gives warnings
  rw [run] at given
  exact given _ rfl base left rfl

/-- From a definition, a path of one more segment breaks off where this is a type without such a
    member. -/
theorem followMembers_typeRelative_iff (intact : Intact tables.defs tables.tree)
    {origin : ModuleId} {last : Segment} {id : DefId} (warnings : List Diagnostic) :
    (∃ warnings', (tables.followMembers origin ns suffix id [last]).run.run warnings =
        .ok (.ok (.typeRelative base left), warnings')) ↔
      id = base ∧ left = 1 ∧
        (∃ definition, tables.defs.find? base = some definition ∧
          definition.kind.isTypeLike = true) ∧
        ∃ ident, last.ident? = some ident ∧ tables.memberOf? base ns ident.name = none := by
  by_cases known : tables.defs.Known id
  · have continues := continues_followMembers intact known origin ns suffix last
    generalize tables.followMembers _ _ _ _ _ = search at continues
    cases continues with
    | word d isWord =>
      refine iff_of_false (not_typeRelative_of_gives (.throw _ _) _) ?_
      rintro ⟨-, -, -, ident, isName, -⟩
      rw [isWord] at isName
      cases isName
    | @beyond ident definition isName found noMember isType =>
      constructor
      · rintro ⟨_, run⟩
        cases run
        exact ⟨rfl, rfl, ⟨definition, found, isType⟩, ident, isName, noMember⟩
      · rintro ⟨rfl, rfl, -⟩
        exact ⟨warnings, rfl⟩
    | missing d _ found _ noType =>
      refine iff_of_false (not_typeRelative_of_gives (.throw _ _) _) ?_
      rintro ⟨rfl, -, ⟨definition, found', isType⟩, -⟩
      rw [found] at found'
      cases found'
      rw [noType] at isType
      cases isType
    | unpicked d isName bound _ =>
      refine iff_of_false (not_typeRelative_of_gives (.throw _ _) _) ?_
      rintro ⟨rfl, -, -, ident, isName', noMember⟩
      rw [isName] at isName'
      cases isName'
      rw [bound] at noMember
      cases noMember
    | member isName bound _ _ =>
      refine iff_of_false (not_typeRelative_of_gives
        (.bind (.trivial _) fun _ _ => .pure (by rintro _ _ ⟨⟩)) _) ?_
      rintro ⟨rfl, -, -, ident, isName', noMember⟩
      rw [isName] at isName'
      cases isName'
      rw [bound] at noMember
      cases noMember
  · -- then there is nothing to go on from
    refine iff_of_false ?_ ?_
    · rintro ⟨_, run⟩
      exact known (known_of_followMembers run)
    · rintro ⟨rfl, -, ⟨definition, found, -⟩, -⟩
      exact known (Definitions.known_of_find? found)

/-- Where a path breaks off there is a segment in the front part, and a name behind it. -/
theorem BreaksOff.not_frontless {lead rest : List Segment} {segment : Segment}
    (h : tables.BreaksOff stack ns path lead segment rest base) : ¬ path.Frontless := by
  rintro (short | ⟨-, climbs⟩)
  · rw [h.split, List.length_append, List.length_cons] at short
    have notEmpty := List.length_pos_iff.mpr h.notEmpty
    omega
  · obtain ⟨ident, isName, -⟩ := h.noMember
    have isSuper := climbs segment (by simp [h.split])
    simp [Segment.ident?, isSuper] at isName

/-- One more segment behind a path that has broken off is one more that is left. -/
theorem BreaksOff.concat {lead rest : List Segment} {segment last : Segment} {front : List Segment}
    (split : path.segments = front ++ [last])
    (h : tables.BreaksOff stack .type { path with segments := front } lead segment rest base) :
    tables.BreaksOff stack ns path lead segment (rest ++ [last]) base where
  split := by
    have front_split : front = lead ++ segment :: rest := h.split
    rw [split, front_split, List.append_assoc, List.cons_append]
  notEmpty := h.notEmpty
  front := h.front
  isType := h.isType
  noMember := by
    obtain ⟨ident, isName, noMember⟩ := h.noMember
    rw [segmentNamespace_type] at noMember
    exact ⟨ident, isName, segmentNamespace_concat ns rest last ▸ noMember⟩

/-- A path that breaks off in front of its last segment has broken off before it. -/
theorem BreaksOff.front_of_concat {lead rest : List Segment} {segment last : Segment}
    (h : tables.BreaksOff stack ns path lead segment (rest ++ [last]) base) :
    tables.BreaksOff stack .type { path with segments := lead ++ segment :: rest } lead segment rest
      base where
  split := rfl
  notEmpty := h.notEmpty
  front := h.front
  isType := h.isType
  noMember := by
    obtain ⟨ident, isName, noMember⟩ := h.noMember
    rw [segmentNamespace_concat] at noMember
    exact ⟨ident, isName, (segmentNamespace_type rest).symm ▸ noMember⟩

/-- A path is left to type checking where it breaks off, as many segments as there are behind its
    front part. -/
theorem typeRelative_iff (intact : Intact tables.defs tables.tree) (root : tables.IsMod .root) :
    (∃ warnings, (tables.resolvePath stack ns path suffix).run.run [] =
        .ok (.ok (.typeRelative base left), warnings)) ↔
      ∃ lead segment rest, left = rest.length + 1 ∧
        tables.BreaksOff stack ns path lead segment rest base := by
  -- from the end: a path goes on from its front part, which is a path of its own
  induction segments : path.segments using List.reverseRecOn
    generalizing path ns suffix left with
  | nil =>
    have frontless : path.Frontless := .inl (by simp [segments])
    refine iff_of_false
      (not_typeRelative_of_gives (gives_resolvePath_of_frontless intact root frontless) _) ?_
    rintro ⟨lead, segment, rest, -, breaks⟩
    exact breaks.not_frontless frontless
  | append_singleton front last ih =>
    rcases frontless_or_goesOn segments with frontless | ⟨notEmpty, goesOn⟩
    · refine iff_of_false
        (not_typeRelative_of_gives (gives_resolvePath_of_frontless intact root frontless) _) ?_
      rintro ⟨lead, segment, rest, -, breaks⟩
      exact breaks.not_frontless frontless
    · rw [goesOn]
      have frontly {further : Nat} :
          (∃ warnings, (tables.resolvePath stack .type { path with segments := front }
            none).run.run [] = .ok (.ok (.typeRelative base further), warnings)) ↔
          ∃ lead segment rest, further = rest.length + 1 ∧ tables.BreaksOff stack .type
            { path with segments := front } lead segment rest base := ih rfl
      constructor
      · rintro ⟨warnings', run⟩
        obtain ⟨r, warnings₁, first, rest⟩ := PathSearch.exists_of_run_bind run
        -- it breaks off at the last segment, or it has done so before
        cases r with
        | definition id =>
          obtain ⟨rfl, rfl, ⟨definition, found, isType⟩, noMember⟩ :=
            (followMembers_typeRelative_iff intact warnings₁).mp ⟨_, rest⟩
          exact ⟨front, last, [], rfl, segments, notEmpty, ⟨_, first⟩,
            ⟨definition, found, (isTypeLike_iff _).mp isType⟩, noMember⟩
        | typeRelative base' further =>
          cases rest
          obtain ⟨lead, segment, rest, rfl, breaks⟩ := frontly.mp ⟨_, first⟩
          exact ⟨lead, segment, rest ++ [last], by simp, breaks.concat segments⟩
        | localVar node => cases rest
        | error => cases rest
      · rintro ⟨lead, segment, rest, rfl, breaks⟩
        have split := breaks.split
        rw [segments] at split
        rcases List.eq_nil_or_concat rest with rfl | ⟨rest, last', rfl⟩
        · obtain ⟨rfl, ⟨⟩⟩ := List.append_inj' split rfl
          obtain ⟨warnings₁, first⟩ := breaks.front
          obtain ⟨definition, found, isType⟩ := breaks.isType
          rw [PathSearch.run_bind first]
          exact (followMembers_typeRelative_iff intact warnings₁).mpr
            ⟨rfl, rfl, ⟨definition, found, (isTypeLike_iff _).mpr isType⟩, breaks.noMember⟩
        · rw [List.concat_eq_append] at breaks split ⊢
          have split : front ++ [last] = (lead ++ segment :: rest) ++ [last'] := by
            rw [split, List.append_assoc, List.cons_append]
          obtain ⟨rfl, ⟨⟩⟩ := List.append_inj' split rfl
          obtain ⟨warnings₁, first⟩ := frontly.mpr ⟨lead, segment, rest, rfl,
            breaks.front_of_concat⟩
          rw [PathSearch.run_bind first, List.length_append]
          exact ⟨warnings₁, rfl⟩

end Tables

namespace Session

/-- Over the tables of any build and in any scopes, a path is left to type checking exactly where
    its front part comes to a type that has no member of the next name. What is left are the
    segments behind the front part, so at least one of them and never all. -/
theorem breaks_off_behind_a_type {config : Config} {program : Program} {log log' : Log}
    {reported : List Diagnostic} {built : Session}
    (run : (new config).build program log = .ok (reported, built) log') (stack : ScopeStack)
    (ns : Namespace) (path : Path) (suffix : Option String) (base : DefId) (left : Nat) :
    ((∃ warnings, (built.tables.resolvePath stack ns path suffix).run.run [] =
        .ok (.ok (.typeRelative base left), warnings)) ↔
      ∃ lead segment rest, left = rest.length + 1 ∧
        built.tables.BreaksOff stack ns path lead segment rest base) ∧
    ((∃ warnings, (built.tables.resolvePath stack ns path suffix).run.run [] =
        .ok (.ok (.typeRelative base left), warnings)) →
      1 ≤ left ∧ left < path.segments.length) := by
  obtain ⟨sound, root⟩ := sound_of_build run
  have intact : Intact built.tables.defs built.tables.tree := sound.intact
  refine ⟨Tables.typeRelative_iff intact root, fun resolved => ?_⟩
  obtain ⟨lead, segment, rest, rfl, breaks⟩ := (Tables.typeRelative_iff intact root).mp resolved
  have notEmpty := List.length_pos_iff.mpr breaks.notEmpty
  rw [breaks.split, List.length_append, List.length_cons]
  omega

/-- A type inside a module:

        mod m { pub struct S; } -/
def inner : Program :=
  ⟨⟨0⟩, ⟨0, 30⟩,
    [.mod ⟨⟨1⟩, true, ⟨1, 1⟩⟩ ⟨"m", ⟨1, 1⟩⟩
      [.struct ⟨⟨2⟩, true, ⟨2, 1⟩⟩ ⟨"S", ⟨2, 1⟩⟩ [] []]]⟩

/-- Of `m::S::new::x` the last two segments are left, and `m::S` is the type. -/
theorem breaks_off_behind_a_type_of_inner :
    ∃ reported built log', (new {}).build inner .empty = .ok (reported, built) log' ∧
      let path : Path := ⟨⟨3⟩, false, [⟨.name "m", ⟨3, 1⟩⟩, ⟨.name "S", ⟨3, 2⟩⟩,
        ⟨.name "new", ⟨3, 3⟩⟩, ⟨.name "x", ⟨3, 4⟩⟩], false⟩
      (∃ warnings, (built.tables.resolvePath .new .value path none).run.run [] =
        .ok (.ok (.typeRelative ⟨2⟩ 2), warnings)) ∧
      built.tables.BreaksOff .new .value path [⟨.name "m", ⟨3, 1⟩⟩, ⟨.name "S", ⟨3, 2⟩⟩]
        ⟨.name "new", ⟨3, 3⟩⟩ [⟨.name "x", ⟨3, 4⟩⟩] ⟨2⟩ := by
  let path : Path := ⟨⟨3⟩, false, [⟨.name "m", ⟨3, 1⟩⟩, ⟨.name "S", ⟨3, 2⟩⟩,
    ⟨.name "new", ⟨3, 3⟩⟩, ⟨.name "x", ⟨3, 4⟩⟩], false⟩
  have checked : ∃ r log', (new {}).build inner .empty = .ok r log' ∧
      decide ((r.2.tables.resolvePath .new .value path none).run.run [] =
        .ok (.ok (.typeRelative ⟨2⟩ 2), [])) = true :=
    Logged.exists_of_check (by decide +kernel)
  obtain ⟨⟨reported, built⟩, log', run, resolved⟩ := checked
  have resolved := of_decide_eq_true resolved
  obtain ⟨exactly, -⟩ := breaks_off_behind_a_type run .new .value path none ⟨2⟩ 2
  obtain ⟨lead, segment, rest, two, breaks⟩ := exactly.mp ⟨_, resolved⟩
  have short : [(⟨.name "new", ⟨3, 3⟩⟩ : Segment), ⟨.name "x", ⟨3, 4⟩⟩].length =
      (segment :: rest).length := two
  have split : [(⟨.name "m", ⟨3, 1⟩⟩ : Segment), ⟨.name "S", ⟨3, 2⟩⟩] ++
      [⟨.name "new", ⟨3, 3⟩⟩, ⟨.name "x", ⟨3, 4⟩⟩] = lead ++ segment :: rest := breaks.split
  obtain ⟨rfl, same⟩ := List.append_inj' split short
  cases same
  exact ⟨reported, built, log', run, ⟨_, resolved⟩, breaks⟩

end Session

end NameResolution
