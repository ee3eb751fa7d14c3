import NameResolution.Proofs.Resolution.Segments
import NameResolution.Proofs.Resolution.Targets
import NameResolution.Proofs.Resolution.Variables
import Mathlib.Data.List.TakeWhile

/-! # The last segment of a path

    In front of its last segment a path has come to a definition. What the last
    one makes of it is a matter of the tables alone: of what the module of the
    definition binds under that name, and of what kind the definition is. Only
    the visibility of what is found is a matter of the place, and all it ever
    decides is a warning. -/

namespace NameResolution

/-! ## Searches that never warn -/

/-- A search that never warns, and comes to the same whatever has been warned of before. -/
def Silent {α : Type} (m : PathSearch α) : Prop :=
  ∃ outcome : Except Fault (Except Diagnostic α), ∀ warnings,
    m.run.run warnings = (·, warnings) <$> outcome

namespace Silent

variable {α β : Type} {m : PathSearch α} {f : α → PathSearch β}

theorem pure (a : α) : Silent (Pure.pure a) := ⟨.ok (.ok a), fun _ => rfl⟩

theorem throw (d : Diagnostic) : Silent (MonadExcept.throw d : PathSearch α) :=
  ⟨.ok (.error d), fun _ => rfl⟩

theorem lift (result : Except Fault α) : Silent (liftM result : PathSearch α) :=
  ⟨.ok <$> result, fun _ => by cases result <;> rfl⟩

theorem bind_of_gives {post : α → Prop} (h : Silent m) (gives : Gives m post)
    (h' : ∀ a, post a → Silent (f a)) : Silent (m >>= f) := by
  obtain ⟨outcome, runs⟩ := h
  have steps (warnings : List Diagnostic) : (m >>= f).run.run warnings =
      m.run.run warnings >>= fun p => (ExceptT.bindCont f p.1).run p.2 := rfl
  cases outcome with
  | error fault =>
    refine ⟨.error fault, fun warnings => ?_⟩
    rw [steps, runs]
    rfl
  | ok r =>
    cases r with
    | error d =>
      refine ⟨.ok (.error d), fun warnings => ?_⟩
      rw [steps, runs]
      rfl
    | ok a =>
      have given := gives []
      rw [runs] at given
      obtain ⟨outcome', runs'⟩ := h' a (given a rfl)
      refine ⟨outcome', fun warnings => ?_⟩
      rw [steps, runs]
      exact runs' warnings

theorem bind (h : Silent m) (h' : ∀ a, Silent (f a)) : Silent (m >>= f) :=
  h.bind_of_gives (.trivial m) fun a _ => h' a

theorem mapM (xs : List α) (h : ∀ a, Silent (f a)) : Silent (xs.mapM f) := by
  induction xs with
  | nil =>
    rw [List.mapM_nil]
    exact .pure _
  | cons a xs ih =>
    rw [List.mapM_cons]
    exact .bind (h a) fun _ => .bind ih fun _ => .pure _

theorem run_eq (h : Silent m) {warnings warnings' : List Diagnostic}
    {result : Except Diagnostic α} (run : m.run.run warnings = .ok (result, warnings')) :
    warnings' = warnings := by
  obtain ⟨outcome, runs⟩ := h
  rw [runs] at run
  cases outcome with
  | ok r =>
    cases run
    rfl
  | error fault => cases run

end Silent

namespace Tables

section

variable (tables : Tables)

theorem silent_selectMember (binding : Binding) (ident : Ident) (suffix : Option String) :
    Silent (tables.selectMember binding ident suffix) := by
  unfold selectMember
  split
  · exact .pure _
  · exact .pure _
  · refine .bind (.lift _) fun set => ?_
    dsimp only
    split
    · split
      · exact .pure _
      · exact .throw _
    · split
      · exact .pure _
      · exact .throw _

theorem silent_followAlias (id : DefId) (ident : Ident) :
    Silent (tables.followAlias id ident) := by
  unfold followAlias
  split
  · exact .pure _
  · exact .bind (.mapM _ fun _ => .bind (.lift _) fun _ => .pure _) fun _ => .throw _

theorem silent_climb (module : ModuleId) (segments : List Segment) :
    Silent (tables.climb module segments) := by
  induction segments generalizing module with
  | nil =>
    unfold climb
    exact .bind (.lift _) fun _ => .pure _
  | cons segment rest ih =>
    unfold climb
    split
    · refine .bind (.lift _) fun m => ?_
      split
      · exact .bind (.lift _) ih
      · exact .throw _
    · exact .bind (.lift _) fun _ => .pure _

/-- Where a path starts nothing is warned of: what is in scope is in its own module. -/
theorem silent_resolveFirst (stack : ScopeStack) (ns : Namespace) (suffix : Option String)
    (first : Segment) (rest : List Segment) :
    Silent (tables.resolveFirst stack ns suffix first rest) := by
  have missing (ident : Ident) (ns' : Namespace) :
      Silent (do throw (← tables.unresolvedLexical stack ident ns') :
        PathSearch (Resolution ⊕ DefId × List Segment)) :=
    .bind (.lift _) fun _ => .throw _
  unfold resolveFirst
  split
  · split
    · exact .pure _
    · exact .throw _
  · exact .bind (.lift _) fun _ => .bind (.lift _) fun _ => .pure _
  · exact .bind (.lift _) fun _ => .bind (silent_climb tables _ _) fun _ => .pure _
  · refine .bind (.lift _) fun found => ?_
    split
    · exact .pure _
    · exact .bind (silent_selectMember tables _ _ _) fun _ =>
        .bind (silent_followAlias tables _ _) fun _ => .pure _
    · dsimp only
      split
      · refine .bind (.lift _) fun variant => ?_
        split
        · exact .pure _
        · exact missing _ _
      · rw [pure_bind]
        exact missing _ _

end

/-! ## Members -/

section

variable (tables : Tables)

/-- What a name is bound to among the members of a module. A variant also serves as a value. -/
def memberIn? (module : ModuleId) (ns : Namespace) (name : String) : Option Binding :=
  (tables.tree.bindingAt? module ns name).or <|
    if ns = .value then
      (tables.tree.bindingAt? module .type name).filter fun binding =>
        (tables.variant? binding).isSome
    else none

/-- The member of a definition with a name, and the module that binds it. -/
def memberOf? (id : DefId) (ns : Namespace) (name : String) : Option (ModuleId × Binding) :=
  (tables.defs.module? id).bind fun module =>
    (tables.memberIn? module ns name).map (module, ·)

/-- The definition that a binding selects, be it an alias: of several functions the one that the
    labels of a call pick. -/
def selected? (suffix : Option String) : Binding → Option DefId
  | .definition id | .imported id => some id
  | .overloads id => (tables.defs.overloads[id.index]?).bind (·.pick? suffix)

end

variable {tables : Tables} {stack : ScopeStack} {origin module : ModuleId} {ns : Namespace}
  {suffix : Option String} {id : DefId} {segment : Segment}

theorem memberOf?_eq_some {owner : ModuleId} {name : String} {binding : Binding} :
    tables.memberOf? id ns name = some (owner, binding) ↔
      tables.defs.module? id = some owner ∧ tables.memberIn? owner ns name = some binding := by
  unfold memberOf?
  cases tables.defs.module? id with
  | none => simp
  | some module =>
    rw [Option.bind_some, Option.map_eq_some_iff]
    constructor
    · rintro ⟨_, bound, ⟨⟩⟩
      exact ⟨rfl, bound⟩
    · rintro ⟨⟨⟩, bound⟩
      exact ⟨binding, bound, rfl⟩

/-- A binding is tested for a variant by what it stands for. -/
theorem isVariant_eq (intact : Intact tables.defs tables.tree) {binding : Binding}
    (good : binding.Good tables.defs ns) :
    tables.isVariant binding = .ok (tables.variant? binding).isSome := by
  unfold isVariant variant?
  cases final : tables.finalDefinition? binding with
  | none => rfl
  | some id =>
    obtain ⟨d, found⟩ := (known_of_finalDefinition? intact good final).find?
    dsimp only
    rw [Definitions.get_of_find? found, Option.filter_some, found, Option.any_some]
    show Except.ok (d.kind == .variant) = _
    cases d.kind == .variant <;> rfl

/-- A member is looked up where the tables have it. -/
theorem findMember_eq (intact : Intact tables.defs tables.tree) (known : tables.tree.Known module)
    (ns : Namespace) (name : String) :
    tables.findMember module ns name = .ok (tables.memberIn? module ns name) := by
  obtain ⟨m, found⟩ := known.find?
  unfold findMember memberIn?
  rw [ModuleTree.get_of_find? found, ModuleTree.bindingAt?_of_find? found,
    ModuleTree.bindingAt?_of_find? found]
  dsimp only [Bind.bind, Except.bind]
  cases m.find? ns name with
  | some binding => rfl
  | none =>
    rw [Option.none_or]
    dsimp only
    cases bound : m.find? .type name with
    | none => simp [pure, Except.pure]
    | some binding =>
      dsimp only
      rw [isVariant_eq intact (intact.good found bound)]
      by_cases isValue : ns = .value
      · subst isValue
        rw [if_pos rfl, Option.filter_some]
        rfl
      · rw [if_neg isValue, beq_eq_false_iff_ne.mpr isValue]
        rfl

/-- A binding selects a definition, which stands for one that is no alias, or there is an error. -/
theorem selectMember_cases (intact : Intact tables.defs tables.tree) {binding : Binding}
    (good : binding.Good tables.defs ns) (ident : Ident) (suffix : Option String) :
    (∃ member final, tables.selected? suffix binding = some member ∧
      tables.defs.Names member final ∧
        tables.selectMember binding ident suffix = pure member) ∨
      ∃ d, tables.selected? suffix binding = none ∧
        tables.selectMember binding ident suffix = throw d := by
  have single {id : DefId} (known : tables.defs.Known id) :
      ∃ final, tables.defs.Names id final := by
    obtain ⟨final, resolved, -⟩ := intact.validDefs.resolveAlias known
    exact ⟨final, (intact.validDefs.resolveAlias_iff known).mp resolved⟩
  cases binding with
  | definition id | imported id =>
    obtain ⟨final, stands⟩ := single good
    exact .inl ⟨id, final, rfl, stands, rfl⟩
  | overloads id =>
    obtain ⟨⟨set, -, -, held, -⟩, -⟩ := good
    have same : tables.selected? suffix (.overloads id) = set.pick? suffix := by
      show (tables.defs.overloads[id.index]?).bind _ = _
      rw [held, Option.bind_some]
    rw [selectMember_overloads held, same]
    cases picked : set.pick? suffix with
    | none => exact .inr ⟨_, rfl, rfl⟩
    | some member =>
      obtain ⟨final, stands⟩ := names_of_pick? intact.validDefs held picked
      exact .inl ⟨member, final, rfl, stands, rfl⟩

/-! ## From a definition to its member -/

variable (tables) in
/-- What the last segment of a path makes of the definition in front of it. Only a type without
    such a member is left to type checking, and only a member that is selected is checked. -/
inductive Continues (origin : ModuleId) (ns : Namespace) (suffix : Option String) (id : DefId)
    (segment : Segment) : PathSearch Resolution → Prop where
  | word (d : Diagnostic) (isWord : segment.ident? = none) :
      Continues origin ns suffix id segment (throw d)
  | beyond {ident : Ident} {definition : Definition} (isName : segment.ident? = some ident)
      (found : tables.defs.find? id = some definition)
      (noMember : tables.memberOf? id ns ident.name = none)
      (isType : definition.kind.isTypeLike = true) :
      Continues origin ns suffix id segment (pure (.typeRelative id 1))
  | missing {ident : Ident} {definition : Definition} (d : Diagnostic)
      (isName : segment.ident? = some ident)
      (found : tables.defs.find? id = some definition)
      (noMember : tables.memberOf? id ns ident.name = none)
      (noType : definition.kind.isTypeLike = false) :
      Continues origin ns suffix id segment (throw d)
  | unpicked {ident : Ident} {owner : ModuleId} {binding : Binding} (d : Diagnostic)
      (isName : segment.ident? = some ident)
      (bound : tables.memberOf? id ns ident.name = some (owner, binding))
      (unpicked : tables.selected? suffix binding = none) :
      Continues origin ns suffix id segment (throw d)
  | member {ident : Ident} {owner : ModuleId} {binding : Binding} {member final : DefId}
      (isName : segment.ident? = some ident)
      (bound : tables.memberOf? id ns ident.name = some (owner, binding))
      (picked : tables.selected? suffix binding = some member)
      (stands : tables.defs.Names member final) :
      Continues origin ns suffix id segment
        (tables.checkPrivacy origin owner member ident >>= fun _ => pure (.definition final))

theorem continues_followMembers (intact : Intact tables.defs tables.tree)
    (known : tables.defs.Known id) (origin : ModuleId) (ns : Namespace) (suffix : Option String)
    (segment : Segment) :
    tables.Continues origin ns suffix id segment
      (tables.followMembers origin ns suffix id [segment]) := by
  obtain ⟨definition, found⟩ := known.find?
  cases isName : segment.ident? with
  | none =>
    unfold followMembers
    rw [isName]
    exact .word _ isName
  | some ident =>
    have here : segmentNamespace ns [] = ns := rfl
    have here' : segmentSuffix suffix [] = suffix := rfl
    unfold followMembers
    rw [isName]
    dsimp only
    rw [here, here', Definitions.get_of_find? found, PathSearch.lift_ok, pure_bind]
    cases home : tables.defs.module? id with
    | none =>
      have noMember : tables.memberOf? id ns ident.name = none := by
        rw [memberOf?, home, Option.bind_none]
      simp only [pure_bind]
      split
      · next isType => exact .beyond isName found noMember isType
      · next noType => exact .missing _ isName found noMember (by simpa using noType)
    | some owner =>
      have there := intact.modules home
      have same : tables.memberOf? id ns ident.name =
          (tables.memberIn? owner ns ident.name).map (owner, ·) := by
        rw [memberOf?, home, Option.bind_some]
      dsimp only
      rw [findMember_eq intact there, PathSearch.lift_ok, pure_bind]
      cases bound : tables.memberIn? owner ns ident.name with
      | none =>
        rw [bound] at same
        dsimp only
        split
        · next isType => exact .beyond isName found same isType
        · next noType =>
          obtain ⟨d, said, -⟩ :=
            Yields.false_iff.mp (yields_unresolvedMember intact there ident ns)
          rw [said, PathSearch.lift_ok, pure_bind]
          exact .missing d isName found same (by simpa using noType)
      | some binding =>
        rw [bound] at same
        dsimp only
        have looked := yields_findMember intact there ns ident.name
        rw [findMember_eq intact there, bound] at looked
        obtain ⟨ns', good⟩ := looked binding rfl
        rcases selectMember_cases intact good ident suffix with
          ⟨member, final, picked, stands, selects⟩ | ⟨d, unpicked, fails⟩
        · have followed : tables.followAlias member ident = pure final := by
            unfold followAlias
            rw [(intact.validDefs.resolveAlias_iff stands.known).mpr stands]
          have last : tables.followMembers origin ns suffix final [] =
              pure (.definition final) := by
            unfold followMembers
            rfl
          rw [selects, pure_bind, followed]
          simp only [pure_bind]
          rw [last]
          exact .member isName same picked stands
        · rw [fails]
          exact .unpicked d isName same unpicked

/-! ## Paths without a front part -/

/-- What is left behind the words in front. -/
theorem gives_climb_left (module : ModuleId) (segments : List Segment) :
    Gives (tables.climb module segments) fun p =>
      p.2 = segments.dropWhile (·.kind = .super) := by
  induction segments generalizing module with
  | nil =>
    unfold climb
    exact .bind (.trivial _) fun _ _ => .pure rfl
  | cons segment rest ih =>
    unfold climb
    split
    · next isSuper =>
      refine .bind (.trivial _) fun m _ => ?_
      split
      · refine .bind (.trivial _) fun outer _ => ?_
        rw [List.dropWhile_cons_of_pos (by simpa using isSuper)]
        exact ih outer
      · exact .throw _ _
    · next notSuper =>
      rw [List.dropWhile_cons_of_neg (by simpa using notSuper)]
      exact .bind (.trivial _) fun _ _ => .pure rfl

/-- What a path has come to behind its first segment, if that is the only one or all of them are
    `super`. -/
theorem gives_resolveFirst_alone {first : Segment} {rest : List Segment}
    (alone : rest = [] ∨ ∀ segment ∈ first :: rest, segment.kind = .super) :
    Gives (tables.resolveFirst stack ns suffix first rest) fun start => match start with
      | .inl r => ∀ base left, r ≠ .typeRelative base left
      | .inr (_, left) => left = [] := by
  have noMore (notSuper : first.kind ≠ .super) : rest = [] := by
    rcases alone with noMore | all
    · exact noMore
    · exact absurd (all first (List.mem_cons_self ..)) notSuper
  unfold resolveFirst
  split
  · next isSelf =>
    split
    · exact .pure (noMore (by simp [isSelf]))
    · exact .throw _ _
  · next isSelfModule =>
    exact .bind (.trivial _) fun _ _ => .bind (.trivial _) fun _ _ =>
      .pure (noMore (by simp [isSelfModule]))
  · next isSuper =>
    refine .bind (.trivial _) fun module _ => .bind (gives_climb_left module _) ?_
    rintro ⟨id, _⟩ rfl
    refine .pure (List.dropWhile_eq_nil_iff.mpr fun segment mem => ?_)
    rcases alone with rfl | all
    · rw [List.mem_singleton.mp mem]
      simpa using isSuper
    · simpa using all segment mem
  · next name isName =>
    have missing (ident : Ident) (ns' : Namespace) :
        Gives (do throw (← tables.unresolvedLexical stack ident ns') :
          PathSearch (Resolution ⊕ DefId × List Segment)) fun start => match start with
            | .inl r => ∀ base left, r ≠ .typeRelative base left
            | .inr (_, left) => left = [] :=
      .bind (.trivial _) fun _ _ => .throw _ _
    refine .bind (.trivial _) fun found _ => ?_
    split
    · exact .pure (by rintro _ _ ⟨⟩)
    · exact .bind (.trivial _) fun _ _ => .bind (.trivial _) fun _ _ =>
        .pure (noMore (by simp [isName]))
    · dsimp only
      split
      · refine .bind (.trivial _) fun variant _ => ?_
        split
        · exact .pure (by rintro _ _ ⟨⟩)
        · exact missing _ _
      · rw [pure_bind]
        exact missing _ _

/-- A segment that is followed is followed from a definition that is there. -/
theorem known_of_followMembers {result : Resolution} {rest : List Segment}
    {warnings warnings' : List Diagnostic}
    (run : (tables.followMembers origin ns suffix id (segment :: rest)).run.run warnings =
      .ok (.ok result, warnings')) : tables.defs.Known id := by
  have gives : Gives (tables.followMembers origin ns suffix id (segment :: rest)) fun _ =>
      tables.defs.Known id := by
    unfold followMembers
    split
    · exact .throw _ _
    · have read : Yields True (tables.defs.get id) fun _ => tables.defs.Known id :=
        Yields.true_iff.mpr fun _ got =>
          Definitions.known_of_find? (Definitions.find?_of_get got)
      exact .bind (.lift read) fun _ known => (Gives.trivial _).mono fun _ _ => known
  have given := gives warnings
  rw [run] at given
  exact given result rfl

end Tables

end NameResolution
