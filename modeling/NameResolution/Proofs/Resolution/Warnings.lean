import NameResolution.Proofs.Resolution.Members
import Mathlib.Data.List.ReduceOption

/-! # What a path is warned of

    On the way along a path each member that is selected is checked, and the one
    that is not visible from where the path stands is warned of. What comes
    behind it makes no difference. So the warnings of a path can be read off
    segment by segment: from what its front part leads to, and from what the
    module there binds. -/

namespace NameResolution

namespace Tables

/-! ## One member -/

/-- A member that is not `pub` is reached from a module that does not lie in the one that binds
    it, and that is what is said of it. -/
structure Trespasses (tables : Tables) (origin owner : ModuleId) (member : DefId) (ident : Ident)
    (d : Diagnostic) : Prop where
  linted : tables.config.lintPrivateAccess = true
  outside : tables.tree.isWithin origin owner = .ok false
  hidden : tables.defs.isPub member = .ok false
  warning : ∃ m name, tables.tree.find? owner = some m ∧ m.name tables.defs = .ok name ∧
    d = .privateAccess ident.name name ident.span

variable {tables : Tables} {stack : ScopeStack} {origin owner : ModuleId} {ns : Namespace}
  {suffix : Option String} {path : Path} {id member : DefId} {segment : Segment}

theorem run_checkPrivacy {within visible : Bool} {m : Module} {name : String}
    (inside : tables.tree.isWithin origin owner = .ok within)
    (isPub : tables.defs.isPub member = .ok visible) (found : tables.tree.find? owner = some m)
    (named : m.name tables.defs = .ok name) (ident : Ident) (warnings : List Diagnostic) :
    (tables.checkPrivacy origin owner member ident).run.run warnings =
      .ok (.ok (), warnings ++
        if tables.config.lintPrivateAccess && !within && !visible then
          [.privateAccess ident.name name ident.span]
        else []) := by
  unfold checkPrivacy
  rw [inside, isPub, ModuleTree.get_of_find? found]
  cases tables.config.lintPrivateAccess with
  | false => exact congrArg (Except.ok ∘ Prod.mk _) (List.append_nil warnings).symm
  | true =>
    cases within with
    | true => exact congrArg (Except.ok ∘ Prod.mk _) (List.append_nil warnings).symm
    | false =>
      cases visible with
      | true => exact congrArg (Except.ok ∘ Prod.mk _) (List.append_nil warnings).symm
      | false =>
        simp only [PathSearch.lift_ok, pure_bind, named]
        rfl

/-- Of a module that is there it is known what it lies within. -/
theorem exists_isWithin (intact : Intact tables.defs tables.tree)
    (known : tables.tree.Known origin) (owner : ModuleId) :
    ∃ within, tables.tree.isWithin origin owner = .ok within := by
  have decided : Yields False (tables.tree.isWithin origin owner) fun _ => True :=
    intact.validTree.isWithin known
  obtain ⟨within, inside, -⟩ := Yields.false_iff.mp decided
  exact ⟨within, inside⟩

/-- A member is warned of at most once, and exactly where it is a trespass to reach it. -/
theorem exists_warning_of_checkPrivacy (intact : Intact tables.defs tables.tree)
    (known : tables.tree.Known origin) (known' : tables.tree.Known owner)
    (known'' : tables.defs.Known member) (ident : Ident) :
    ∃ warning : Option Diagnostic,
      (∀ d, warning = some d ↔ tables.Trespasses origin owner member ident d) ∧
      ∀ warnings, (tables.checkPrivacy origin owner member ident).run.run warnings =
        .ok (.ok (), warnings ++ warning.toList) := by
  obtain ⟨m, found⟩ := known'.find?
  obtain ⟨within, inside⟩ := exists_isWithin intact known owner
  obtain ⟨visible, isPub, -⟩ := Yields.false_iff.mp known''.isPub
  obtain ⟨name, named, -⟩ := Yields.false_iff.mp (intact.name found)
  refine ⟨if tables.config.lintPrivateAccess && !within && !visible then
    some (.privateAccess ident.name name ident.span) else none, fun d => ?_, fun warnings => ?_⟩
  · constructor
    · intro warns
      split at warns
      · next flagged =>
        cases warns
        simp only [Bool.and_eq_true, Bool.not_eq_eq_eq_not, Bool.not_true] at flagged
        obtain ⟨⟨linted, rfl⟩, rfl⟩ := flagged
        exact ⟨linted, inside, isPub, m, name, found, named, rfl⟩
      · cases warns
    · rintro ⟨linted, outside, hidden, _, _, found', named', rfl⟩
      rw [inside] at outside
      rw [isPub] at hidden
      rw [found] at found'
      cases outside
      cases hidden
      cases found'
      rw [named] at named'
      cases named'
      rw [linted]
      rfl
  · rw [run_checkPrivacy inside isPub found named]
    split <;> rfl

/-! ## One segment -/

/-- A segment that is followed from a definition selects a member there that is warned of. -/
inductive Flags (tables : Tables) (origin : ModuleId) (ns : Namespace) (suffix : Option String)
    (id : DefId) (segment : Segment) (d : Diagnostic) : Prop where
  | member {ident : Ident} {owner : ModuleId} {binding : Binding} {member : DefId}
      (isName : segment.ident? = some ident)
      (bound : tables.memberOf? id ns ident.name = some (owner, binding))
      (picked : tables.selected? suffix binding = some member)
      (trespasses : tables.Trespasses origin owner member ident d)

/-- Whatever the last segment comes to, it is warned of at most once. -/
theorem exists_warning_of_followMembers (intact : Intact tables.defs tables.tree)
    (known : tables.tree.Known origin) (known' : tables.defs.Known id) (ns : Namespace)
    (suffix : Option String) (segment : Segment) :
    ∃ (result : Except Diagnostic Resolution) (warning : Option Diagnostic),
      (∀ d, warning = some d ↔ tables.Flags origin ns suffix id segment d) ∧
      (∀ final, result = .ok (.definition final) → tables.defs.Known final) ∧
      ∀ warnings, (tables.followMembers origin ns suffix id [segment]).run.run warnings =
        .ok (result, warnings ++ warning.toList) := by
  -- only a member is checked
  have unchecked {search : PathSearch Resolution} (result : Except Diagnostic Resolution)
      (runs : ∀ warnings, search.run.run warnings = .ok (result, warnings))
      (others : ∀ final, result ≠ .ok (.definition final))
      (never : ∀ d, ¬ tables.Flags origin ns suffix id segment d) :
      ∃ (result : Except Diagnostic Resolution) (warning : Option Diagnostic),
        (∀ d, warning = some d ↔ tables.Flags origin ns suffix id segment d) ∧
        (∀ final, result = .ok (.definition final) → tables.defs.Known final) ∧
        ∀ warnings, search.run.run warnings = .ok (result, warnings ++ warning.toList) :=
    ⟨result, none, fun d => iff_of_false (by simp) (never d),
      fun final eq => absurd eq (others final),
      fun warnings => by rw [runs, Option.toList_none, List.append_nil]⟩
  have continues := continues_followMembers intact known' origin ns suffix segment
  generalize tables.followMembers origin ns suffix id [segment] = search at continues
  cases continues with
  | word d isWord =>
    refine unchecked (.error d) (fun _ => rfl) (by rintro _ ⟨⟩) ?_
    rintro d ⟨isName, -⟩
    rw [isWord] at isName
    cases isName
  | beyond isName found noMember isType =>
    refine unchecked (.ok (.typeRelative id 1)) (fun _ => rfl) (by rintro _ ⟨⟩) ?_
    rintro d ⟨isName', bound, -⟩
    rw [isName] at isName'
    cases isName'
    rw [noMember] at bound
    cases bound
  | missing d isName found noMember noType =>
    refine unchecked (.error d) (fun _ => rfl) (by rintro _ ⟨⟩) ?_
    rintro d ⟨isName', bound, -⟩
    rw [isName] at isName'
    cases isName'
    rw [noMember] at bound
    cases bound
  | unpicked d isName bound unpicked =>
    refine unchecked (.error d) (fun _ => rfl) (by rintro _ ⟨⟩) ?_
    rintro d ⟨isName', bound', picked, -⟩
    rw [isName] at isName'
    cases isName'
    rw [bound] at bound'
    cases bound'
    rw [unpicked] at picked
    cases picked
  | @member ident owner binding member final isName bound picked stands =>
    have there := intact.modules (memberOf?_eq_some.mp bound).1
    obtain ⟨warning, exactly, runs⟩ :=
      exists_warning_of_checkPrivacy intact known there stands.known ident
    refine ⟨.ok (.definition final), warning, fun d => ?_, ?_,
      fun warnings => PathSearch.run_bind (runs warnings)⟩
    · rw [exactly]
      constructor
      · exact fun trespasses => .member isName bound picked trespasses
      · rintro ⟨isName', bound', picked', trespasses⟩
        rw [isName] at isName'
        cases isName'
        rw [bound] at bound'
        cases bound'
        rw [picked] at picked'
        cases picked'
        exact trespasses
    · rintro _ ⟨⟩
      exact stands.known_final

/-! ## Whole paths -/

/-- At a point, a segment of a path is warned of: the segments in front of it lead to a definition,
    and from there it selects a member that is. What is in scope is never warned of. -/
def FlagsAt (tables : Tables) (stack : ScopeStack) (ns : Namespace) (path : Path)
    (suffix : Option String) (lead : List Segment) (segment : Segment) (rest : List Segment)
    (d : Diagnostic) : Prop :=
  ∃ id, tables.FrontLeadsTo stack path lead id ∧
    tables.Flags stack.nearestModule (segmentNamespace ns rest) (segmentSuffix suffix rest) id
      segment d

/-- The warnings of a path: one entry for each of its segments, in order, with what that segment
    is warned of, if it is. -/
structure Warns (tables : Tables) (stack : ScopeStack) (ns : Namespace) (path : Path)
    (suffix : Option String) (entries : List (Option Diagnostic)) : Prop where
  length_eq : entries.length = path.segments.length
  entry_iff : ∀ lead segment rest, path.segments = lead ++ segment :: rest → ∀ d,
    entries[lead.length]? = some (some d) ↔
      tables.FlagsAt stack ns path suffix lead segment rest d

theorem frontLeadsTo_front {front lead : List Segment} :
    tables.FrontLeadsTo stack { path with segments := front } lead id ↔
      tables.FrontLeadsTo stack path lead id := by
  constructor
  · rintro (global | ⟨notEmpty, run⟩)
    · exact .root global
    · exact .lead notEmpty run
  · rintro (global | ⟨notEmpty, run⟩)
    · exact .root global
    · exact .lead notEmpty run

/-- One more segment is one more entry, and the others stay as they are. -/
theorem Warns.concat {front : List Segment} {last : Segment} {warning : Option Diagnostic}
    {entries : List (Option Diagnostic)} (split : path.segments = front ++ [last])
    (h : tables.Warns stack .type { path with segments := front } none entries)
    (exactly : ∀ d, warning = some d ↔ tables.FlagsAt stack ns path suffix front last [] d) :
    tables.Warns stack ns path suffix (entries ++ [warning]) where
  length_eq := by
    have length_eq : entries.length = front.length := h.length_eq
    rw [split, List.length_append, List.length_append, length_eq]
    rfl
  entry_iff lead segment rest split' d := by
    have length_eq : entries.length = front.length := h.length_eq
    rw [split] at split'
    -- the segment is the last one, with the new entry, or it is one of the front part
    rcases List.eq_nil_or_concat rest with rfl | ⟨rest, last', rfl⟩
    · obtain ⟨rfl, ⟨⟩⟩ := List.append_inj' split' rfl
      rw [← length_eq, List.getElem?_concat_length, Option.some_inj]
      exact exactly d
    · rw [List.concat_eq_append] at split' ⊢
      have split' : front ++ [last] = (lead ++ segment :: rest) ++ [last'] := by
        rw [split', List.append_assoc, List.cons_append]
      obtain ⟨rfl, ⟨⟩⟩ := List.append_inj' split' rfl
      have inFront : lead.length < entries.length := by
        rw [length_eq, List.length_append, List.length_cons]
        omega
      rw [List.getElem?_append_left inFront, h.entry_iff lead segment rest rfl d]
      unfold FlagsAt
      rw [segmentNamespace_concat, segmentSuffix_concat, segmentNamespace_type,
        segmentSuffix_none]
      exact exists_congr fun id => and_congr_left fun _ => frontLeadsTo_front

/-- A relative path without a front part is not warned of. -/
theorem warns_nothing (relative : path.global = false) (frontless : path.Frontless) :
    tables.Warns stack ns path suffix (List.replicate path.segments.length none) where
  length_eq := List.length_replicate
  entry_iff lead segment rest split d := by
    have noEntry : (List.replicate path.segments.length none)[lead.length]? ≠ some (some d) := by
      rw [List.getElem?_replicate]
      split <;> simp
    refine iff_of_false noEntry ?_
    rintro ⟨id, front, isName, -⟩
    rcases frontless with short | ⟨-, climbs⟩
    · cases front with
      | root global =>
        rw [relative] at global
        cases global
      | lead notEmpty _ =>
        rw [split, List.length_append, List.length_cons] at short
        have := List.length_pos_iff.mpr notEmpty
        omega
    · have isSuper := climbs segment (by simp [split])
      simp [Segment.ident?, isSuper] at isName

/-! ## In any scopes -/

section

variable (intact : Intact tables.defs tables.tree) (placed : stack.Placed tables)

include intact placed

theorem yields_variantNamed (name : String) :
    Yields False (tables.variantNamed stack name) fun found =>
      ∀ id, found = some id → tables.defs.Known id := by
  simp only [variantNamed, Yields.bind_iff]
  apply (yields_lookup placed.modules intact .type name).mono
  intro found good
  split
  · next module binding =>
    have good := good module binding rfl
    rw [isVariant_eq intact good]
    intro id eq
    split at eq
    · exact known_of_finalDefinition? intact good eq
    · cases eq
  · rintro _ ⟨⟩

/-- Where a path starts is there, unless there is an error. -/
theorem searches_resolveFirst_of_placed (ns : Namespace) (suffix : Option String)
    (first : Segment) (rest : List Segment) :
    Searches ((first :: rest).map (·.span)) (tables.resolveFirst stack ns suffix first rest)
      fun start => match start with
        | .inl r => ∀ id, r = .definition id → tables.defs.Known id
        | .inr (id, _) => tables.defs.Known id := by
  have here : first.span ∈ (first :: rest).map (·.span) := List.mem_cons_self ..
  have nearest := placed.known_nearest intact
  unfold resolveFirst
  split
  · split
    · next id isSelf => exact .pure (placed.known_selfItem isSelf)
    · exact .throw rfl here
  · refine .bind (.lift (intact.enclosingMod nearest)) fun module owned => ?_
    exact .bind (.lift (yields_modDefinition intact owned)) fun id known => .pure known
  · refine .bind (.lift (intact.enclosingMod nearest)) fun module owned => ?_
    exact .bind (searches_climb intact (first :: rest) owned (List.Subset.refl _))
      fun start known => .pure known.1
  · next name isName =>
    have lookups (ns' : Namespace) := yields_lookup placed.modules intact ns' name
    have missing : Searches ((first :: rest).map (·.span))
        (do throw (← tables.unresolvedLexical stack ⟨name, first.span⟩ (segmentNamespace ns rest)))
        fun (_ : Resolution ⊕ DefId × List Segment) => False := by
      refine .bind (.lift (yields_unresolvedLexical intact stack _ lookups _)) ?_
      rintro _ ⟨found, rfl⟩
      exact .throw (isError_unresolved ..).1 ((isError_unresolved ..).2 ▸ here)
    refine .bind (.lift (lookups _)) fun found good => ?_
    split
    · exact .pure (by rintro _ ⟨⟩)
    · next module binding =>
      refine .bind (searches_selectMember intact (good module binding rfl) here _) ?_
      intro member known
      exact .bind (searches_followAlias intact known _) fun id known => .pure known
    · dsimp only
      split
      · refine .bind (.lift (yields_variantNamed intact placed name)) fun variant known => ?_
        split
        · next id =>
          refine .pure ?_
          rintro _ ⟨⟩
          exact known id rfl
        · exact missing.mono fun _ never => never.elim
      · rw [pure_bind]
        exact missing.mono fun _ never => never.elim

/-- A relative path without a front part goes through without a warning. -/
theorem exists_run_of_frontless (ns : Namespace) (suffix : Option String)
    (spelled : path.segments ≠ []) (relative : path.global = false) (frontless : path.Frontless) :
    ∃ result, (∀ final, result = .ok (.definition final) → tables.defs.Known final) ∧
      (tables.resolvePath stack ns path suffix).run.run [] = .ok (result, []) := by
  obtain ⟨first, rest, segments⟩ := List.exists_cons_of_ne_nil spelled
  obtain ⟨⟨r, warnings⟩, run, -, ended⟩ :=
    Yields.false_iff.mp (searches_resolveFirst_of_placed intact placed ns suffix first rest [])
  obtain rfl : warnings = [] := (silent_resolveFirst tables stack ns suffix first rest).run_eq run
  have left := Yields.true_iff.mp (gives_resolveFirst_alone (frontless.rest segments) []) _ run
  rw [resolvePath_of_relative relative segments]
  cases r with
  | error d => exact ⟨.error d, by rintro _ ⟨⟩, by
      show (tables.resolveFirst stack ns suffix first rest).run.run [] >>= _ = _
      rw [run]
      rfl⟩
  | ok start =>
    rw [PathSearch.run_bind run]
    rcases start with resolution | ⟨id, left'⟩
    · exact ⟨.ok resolution, fun final eq => ended final (Except.ok.inj eq), rfl⟩
    · obtain rfl : left' = [] := left _ rfl
      unfold followMembers
      refine ⟨.ok (.definition id), ?_, rfl⟩
      rintro _ ⟨⟩
      exact ended

/-- Behind whatever the front part of a path comes to, the last segment is warned of at most
    once. -/
theorem exists_warning_of_front (ns : Namespace) (suffix : Option String) (last : Segment)
    {front : List Segment} {result : Except Diagnostic Resolution} {warnings : List Diagnostic}
    (notEmpty : front ≠ [])
    (run : (tables.resolvePath stack .type { path with segments := front } none).run.run [] =
      .ok (result, warnings))
    (known : ∀ final, result = .ok (.definition final) → tables.defs.Known final) :
    ∃ (result' : Except Diagnostic Resolution) (warning : Option Diagnostic),
      (∀ d, warning = some d ↔ tables.FlagsAt stack ns path suffix front last [] d) ∧
      (∀ final, result' = .ok (.definition final) → tables.defs.Known final) ∧
      (tables.resolvePath stack .type { path with segments := front } none >>=
        tables.goOn stack.nearestModule ns suffix last).run.run [] =
          .ok (result', warnings ++ warning.toList) := by
  -- the front part leads where its run has come to, and nowhere else
  have leads {id : DefId} : tables.FrontLeadsTo stack path front id ↔
      result = .ok (.definition id) := by
    constructor
    · rintro (_ | ⟨-, run'⟩)
      · exact absurd rfl notEmpty
      · rw [run] at run'
        cases run'
        rfl
    · rintro rfl
      exact .lead notEmpty run
  have unchecked (others : ∀ id, result ≠ .ok (.definition id)) (d : Diagnostic) :
      none = some d ↔ tables.FlagsAt stack ns path suffix front last [] d := by
    refine iff_of_false (by simp) ?_
    rintro ⟨id, front, -⟩
    exact others id (leads.mp front)
  cases result with
  | error d =>
    refine ⟨.error d, none, unchecked (by rintro _ ⟨⟩), by rintro _ ⟨⟩, ?_⟩
    show (tables.resolvePath stack .type _ none).run.run [] >>= _ = _
    rw [run, Option.toList_none, List.append_nil]
    rfl
  | ok r =>
    rw [PathSearch.run_bind run]
    -- from anything but a definition no member is selected
    have stays (others : ∀ id, r ≠ .definition id) {r' : Resolution}
        (goes : tables.goOn stack.nearestModule ns suffix last r = pure r')
        (others' : ∀ id, r' ≠ .definition id) :
        ∃ (result' : Except Diagnostic Resolution) (warning : Option Diagnostic),
          (∀ d, warning = some d ↔ tables.FlagsAt stack ns path suffix front last [] d) ∧
          (∀ final, result' = .ok (.definition final) → tables.defs.Known final) ∧
          (tables.goOn stack.nearestModule ns suffix last r).run.run warnings =
            .ok (result', warnings ++ warning.toList) := by
      refine ⟨.ok r', none, unchecked fun id eq => others id (Except.ok.inj eq),
        fun final eq => absurd (Except.ok.inj eq) (others' final), ?_⟩
      rw [goes, Option.toList_none, List.append_nil]
      rfl
    cases r with
    | definition id =>
      obtain ⟨result', warning, exactly, known', runs⟩ := exists_warning_of_followMembers intact
        (placed.known_nearest intact) (known id rfl) ns suffix last
      refine ⟨result', warning, fun d => (exactly d).trans ?_, known', runs warnings⟩
      constructor
      · exact fun flags => ⟨id, leads.mpr rfl, flags⟩
      · rintro ⟨id', front, flags⟩
        cases leads.mp front
        exact flags
    | typeRelative base left => exact stays (by rintro _ ⟨⟩) rfl (by rintro _ ⟨⟩)
    | localVar node => exact stays (by rintro _ ⟨⟩) rfl (by rintro _ ⟨⟩)
    | error => exact stays (by rintro _ ⟨⟩) rfl (by rintro _ ⟨⟩)

/-- The only segment of an absolute path selects a member of the root. -/
theorem exists_warns_of_root (ns : Namespace) (suffix : Option String) {only : Segment}
    (segments : path.segments = [only]) (global : path.global = true) :
    ∃ result entries, (∀ final, result = .ok (.definition final) → tables.defs.Known final) ∧
      (tables.resolvePath stack ns path suffix).run.run [] = .ok (result, entries.reduceOption) ∧
      tables.Warns stack ns path suffix entries := by
  have spelled : path.segments ≠ [] := by simp [segments]
  obtain ⟨result, warning, exactly, known, runs⟩ := exists_warning_of_followMembers intact
    (placed.known_nearest intact) intact.known_root ns suffix only
  have noneYet : tables.Warns stack .type { path with segments := [] } none [] :=
    ⟨rfl, fun lead segment rest split => by cases lead <;> cases split⟩
  refine ⟨result, [] ++ [warning], known, ?_, noneYet.concat segments fun d =>
    (exactly d).trans ?_⟩
  · rw [resolvePath_of_global global spelled, segments, runs]
    cases warning <;> rfl
  · constructor
    · exact fun flags => ⟨.root, .root global, flags⟩
    · rintro ⟨id, _ | ⟨notEmpty, -⟩, flags⟩
      · exact flags
      · exact absurd rfl notEmpty

/-- In any scopes a path comes to a result, and what it is warned of on the way is exactly what
    its segments are warned of, be the result an error. -/
theorem exists_warns (ns : Namespace) (suffix : Option String) (spelled : path.segments ≠ []) :
    ∃ result entries, (∀ final, result = .ok (.definition final) → tables.defs.Known final) ∧
      (tables.resolvePath stack ns path suffix).run.run [] = .ok (result, entries.reduceOption) ∧
      tables.Warns stack ns path suffix entries := by
  -- from the end: what the front part is warned of comes first
  induction segments : path.segments using List.reverseRecOn generalizing path ns suffix with
  | nil => exact absurd segments spelled
  | append_singleton front last ih =>
    rcases frontless_or_goesOn segments with frontless | ⟨notEmpty, goesOn⟩
    · by_cases global : path.global = true
      · obtain ⟨only, rest, split⟩ := List.exists_cons_of_ne_nil spelled
        obtain rfl := frontless.rest_eq_nil_of_global split global
        exact exists_warns_of_root intact placed ns suffix split global
      · have relative : path.global = false := by simpa using global
        obtain ⟨result, known, run⟩ :=
          exists_run_of_frontless intact placed ns suffix spelled relative frontless
        refine ⟨result, _, known, ?_, warns_nothing relative frontless⟩
        rw [List.reduceOption_replicate_none]
        exact run
    · have frontly : ∃ result entries,
          (∀ final, result = .ok (.definition final) → tables.defs.Known final) ∧
          (tables.resolvePath stack .type { path with segments := front } none).run.run [] =
            .ok (result, entries.reduceOption) ∧
          tables.Warns stack .type { path with segments := front } none entries :=
        ih .type none notEmpty rfl
      obtain ⟨result, entries, known, run, warns⟩ := frontly
      obtain ⟨result', warning, exactly, known', run'⟩ :=
        exists_warning_of_front intact placed ns suffix last notEmpty run known
      refine ⟨result', entries ++ [warning], known', ?_, warns.concat segments exactly⟩
      rw [goesOn, run', List.reduceOption_append]
      cases warning <;> rfl

end

end Tables

end NameResolution
