import NameResolution.Proofs.Resolution.Scopes

/-! # What a path search comes to

    A path that has a segment comes to a result or to one error, at one of its
    segments. Whatever else is reported on the way are warnings. -/

namespace NameResolution

/-! ## Path searches -/

/-- What holds of the result of a path search. An error points at one of the given places, and on
    the way there are only warnings. -/
def Searches {α : Type} (spans : List Span) (m : PathSearch α) (post : α → Prop) : Prop :=
  ∀ warnings, Yields False (m.run.run warnings) fun r =>
    (∃ more, r.2 = warnings ++ more ∧ ∀ d ∈ more, d.isError = false) ∧
      match r.1 with
      | .ok a => post a
      | .error d => d.isError = true ∧ d.span ∈ spans

namespace Searches

variable {α β : Type} {spans : List Span}

theorem pure {a : α} {post : α → Prop} (h : post a) : Searches spans (Pure.pure a) post :=
  fun warnings => ⟨⟨[], (List.append_nil warnings).symm, by simp⟩, h⟩

theorem throw {d : Diagnostic} {post : α → Prop} (isError : d.isError = true)
    (here : d.span ∈ spans) : Searches spans (MonadExcept.throw d : PathSearch α) post :=
  fun warnings => ⟨⟨[], (List.append_nil warnings).symm, by simp⟩, isError, here⟩

theorem mono {m : PathSearch α} {post post' : α → Prop} (h : Searches spans m post)
    (imp : ∀ a, post a → post' a) : Searches spans m post' := by
  refine fun warnings => (h warnings).mono fun outcome ended => ⟨ended.1, ?_⟩
  obtain ⟨r, warnings'⟩ := outcome
  have holds := ended.2
  cases r with
  | ok a => exact imp a holds
  | error d => exact holds

theorem bind {m : PathSearch α} {f : α → PathSearch β} {post : α → Prop} {post' : β → Prop}
    (h : Searches spans m post) (h' : ∀ a, post a → Searches spans (f a) post') :
    Searches spans (m >>= f) post' := by
  intro warnings
  -- the warnings are a state below the errors, so they are kept when an error is thrown
  show Yields False (m.run.run warnings >>= fun p => (ExceptT.bindCont f p.1).run p.2) _
  rw [Yields.bind_iff]
  apply (h warnings).mono
  intro outcome ended
  obtain ⟨r, warnings₁⟩ := outcome
  obtain ⟨⟨more, eq, all⟩, holds⟩ := ended
  cases r with
  | error d => exact ⟨⟨more, eq, all⟩, holds⟩
  | ok a =>
    apply (h' a holds warnings₁).mono
    intro r ended
    obtain ⟨⟨more', eq', all'⟩, holds'⟩ := ended
    refine ⟨⟨more ++ more', ?_, fun d mem => ?_⟩, holds'⟩
    · rw [eq', ← List.append_assoc]
      exact congrArg (· ++ more') eq
    · rcases List.mem_append.mp mem with mem | mem
      · exact all d mem
      · exact all' d mem

theorem lift {result : Except Fault α} {post : α → Prop} (h : Yields False result post) :
    Searches spans (liftM result : PathSearch α) post := by
  intro warnings
  cases result with
  | ok a => exact ⟨⟨[], (List.append_nil warnings).symm, by simp⟩, h⟩
  | error fault => exact h

/-- One more warning. -/
theorem warn {d : Diagnostic} {post : PUnit → Prop} (isWarning : d.isError = false) (h : post ⟨⟩) :
    Searches spans (modify (· ++ [d]) : PathSearch PUnit) post :=
  fun warnings => ⟨⟨[d], rfl, by simpa using isWarning⟩, h⟩

end Searches

/-- An item, or a member of one that is left to type checking. -/
def Resolution.IsItem : Resolution → Prop
  | .definition _ | .typeRelative _ _ => True
  | .localVar _ | .error => False

theorem Segment.eq_ofIdent {segment : Segment} {ident : Ident}
    (h : segment.ident? = some ident) : segment = .ofIdent ident := by
  obtain ⟨kind, span⟩ := segment
  cases kind <;> cases h
  rfl

theorem Segment.span_of_ident? {segment : Segment} {ident : Ident}
    (h : segment.ident? = some ident) : ident.span = segment.span := by
  unfold ident? at h
  split at h
  · cases h
    rfl
  · cases h

namespace Tables

variable {tables : Tables} {spans : List Span}

theorem searches_selectMember (intact : Intact tables.defs tables.tree) {ns : Namespace}
    {binding : Binding} (good : binding.Good tables.defs ns) {ident : Ident}
    (here : ident.span ∈ spans) (suffix : Option String) :
    Searches spans (tables.selectMember binding ident suffix) tables.defs.Known := by
  unfold selectMember
  split
  · exact .pure good
  · exact .pure good
  · next id =>
    refine .bind (.lift good.1.overloadSet) ?_
    intro set ended
    obtain ⟨held, _⟩ := ended
    split
    · split
      · next member found => exact .pure (intact.validDefs.members held found)
      · exact .throw rfl here
    · split
      · next member found =>
        obtain ⟨suffix, found⟩ := OverloadSet.get?_of_single? found
        exact .pure (intact.validDefs.members held found)
      · exact .throw rfl here

theorem searches_followAlias (intact : Intact tables.defs tables.tree) {id : DefId}
    (known : tables.defs.Known id) (ident : Ident) :
    Searches spans (tables.followAlias id ident) tables.defs.Known := by
  obtain ⟨final, resolved, known⟩ := intact.validDefs.resolveAlias known
  unfold followAlias
  rw [resolved]
  exact .pure known

theorem searches_checkPrivacy (intact : Intact tables.defs tables.tree) {origin owner : ModuleId}
    (known : tables.tree.Known origin) (known' : tables.tree.Known owner) {member : DefId}
    (known'' : tables.defs.Known member) (ident : Ident) :
    Searches spans (tables.checkPrivacy origin owner member ident) fun _ => True := by
  obtain ⟨m, found⟩ := known'.find?
  unfold checkPrivacy
  split
  · refine .bind (.lift (intact.validTree.isWithin known)) ?_
    intro inside _
    split
    · exact .pure trivial
    · refine .bind (.lift known''.isPub) ?_
      intro isPub _
      split
      · exact .pure trivial
      · refine .bind (.lift known'.get) ?_
        intro m found
        refine .bind (.lift (intact.name found)) ?_
        intro name _
        exact .warn rfl trivial
  · exact .pure trivial

/-! ## Names that are not there -/

theorem yields_describe (intact : Intact tables.defs tables.tree) {ns : Namespace}
    {binding : Binding} (good : binding.Good tables.defs ns) :
    Yields False (tables.describe binding) fun _ => True := by
  unfold describe
  split
  · trivial
  · split
    · next id final =>
      rw [Yields.bind_iff]
      exact (known_of_finalDefinition? intact good final).get.mono fun _ _ => trivial
    · trivial

/-- What is said of a name that is not there points at it. -/
theorem isError_unresolved (ident : Ident) (ns : Namespace) (found : List (Namespace × String)) :
    (tables.unresolved ident ns found).isError = true ∧
      (tables.unresolved ident ns found).span = ident.span := ⟨rfl, rfl⟩

theorem yields_unresolvedMember (intact : Intact tables.defs tables.tree) {module : ModuleId}
    (known : tables.tree.Known module) (ident : Ident) (ns : Namespace) :
    Yields False (tables.unresolvedMember module ident ns) fun d =>
      d.isError = true ∧ d.span = ident.span := by
  obtain ⟨m, found⟩ := known.find?
  have each : ∀ p ∈ (m.findAll ident.name).filter (·.1 != ns),
      Yields False (do return (p.1, ← tables.describe p.2)) fun _ => True := by
    intro p mem
    obtain ⟨other, here, mapped⟩ := List.mem_filterMap.mp (List.mem_of_mem_filter mem)
    obtain ⟨binding, bound, rfl⟩ := Option.map_eq_some_iff.mp mapped
    simp only [Yields.bind_iff, Yields.pure_iff]
    exact yields_describe intact (intact.good found bound)
  simp only [unresolvedMember, Yields.bind_iff, Yields.pure_iff, ModuleTree.get_of_find? found,
    Yields.ok_iff]
  exact (Yields.mapM _ each).mono fun _ _ => isError_unresolved ..

theorem yields_unresolvedLexical (intact : Intact tables.defs tables.tree) (stack : ScopeStack)
    (ident : Ident) (lookups : ∀ ns, Yields False (tables.lookup stack ns ident.name) fun found =>
      ∀ module binding, found = some (.item module binding) → binding.Good tables.defs ns)
    (ns : Namespace) :
    Yields False (tables.unresolvedLexical stack ident ns) fun d =>
      ∃ found, d = tables.unresolved ident ns found := by
  simp only [unresolvedLexical, Yields.bind_iff, Yields.pure_iff]
  refine (Yields.filterMapM _ fun other _ => ?_).mono fun found _ => ⟨found, rfl⟩
  rw [Yields.bind_iff]
  apply (lookups other).mono
  intro found good
  split
  · next found =>
    simp only [Yields.bind_iff, Yields.pure_iff]
    cases found with
    | localVar node => trivial
    | item module binding => exact yields_describe intact (good _ _ rfl)
  · trivial

/-! ## Members -/

theorem yields_findMember (intact : Intact tables.defs tables.tree) {module : ModuleId}
    (known : tables.tree.Known module) (ns : Namespace) (name : String) :
    Yields False (tables.findMember module ns name) fun found =>
      ∀ binding, found = some binding → ∃ ns, binding.Good tables.defs ns := by
  obtain ⟨m, found⟩ := known.find?
  simp only [findMember, Yields.bind_iff, ModuleTree.get_of_find? found, Yields.ok_iff]
  split
  · next binding bound =>
    rintro _ ⟨⟩
    exact ⟨ns, intact.good found bound⟩
  · split
    · next binding bound =>
      -- a type of that name counts as a value where it is a variant
      have good := intact.good found bound
      simp only [Yields.bind_iff, Yields.pure_iff]
      apply (yields_isVariant intact good).mono
      intro isVariant _ other eq
      split at eq
      · cases eq
        exact ⟨.type, good⟩
      · cases eq
    · simp

/-- Members are followed to an item, or left to type checking. -/
theorem searches_followMembers (intact : Intact tables.defs tables.tree) {origin : ModuleId}
    (known : tables.tree.Known origin) (ns : Namespace) (suffix : Option String)
    (segments : List Segment) {id : DefId} (id_known : tables.defs.Known id)
    (here : segments.map (·.span) ⊆ spans) :
    Searches spans (tables.followMembers origin ns suffix id segments) Resolution.IsItem := by
  induction segments generalizing id with
  | nil =>
    unfold followMembers
    exact .pure trivial
  | cons segment rest ih =>
    have span_here : segment.span ∈ spans := here (List.mem_cons_self ..)
    have rest_here : rest.map (·.span) ⊆ spans := fun _ mem => here (List.mem_cons_of_mem _ mem)
    unfold followMembers
    split
    · exact .throw rfl span_here
    · next ident isName =>
      have ident_here : ident.span ∈ spans := by
        rw [Segment.span_of_ident? isName]
        exact span_here
      refine .bind (.lift id_known.get) ?_
      intro definition _
      dsimp only
      cases home : tables.defs.module? id with
      | none =>
        -- an item without a module has no members to look among
        rw [pure_bind]
        dsimp only
        split
        · exact .pure trivial
        · exact .throw rfl ident_here
      | some module =>
        have there := intact.modules home
        refine .bind (.lift (yields_findMember intact there _ ident.name)) ?_
        intro found good
        cases found with
        | none =>
          dsimp only
          split
          · exact .pure trivial
          · refine .bind (.lift (yields_unresolvedMember intact there ident _)) ?_
            intro d ended
            obtain ⟨isError, at_ident⟩ := ended
            exact .throw isError (at_ident ▸ ident_here)
        | some binding =>
          -- the member is selected, checked, and followed to what it stands for
          obtain ⟨ns', good⟩ := good binding rfl
          refine .bind (searches_selectMember intact good ident_here _) ?_
          intro member member_known
          refine .bind (searches_checkPrivacy intact known there member_known ident) ?_
          intro _ _
          refine .bind (searches_followAlias intact member_known ident) ?_
          intro final final_known
          exact ih final_known rest_here

/-! ## The start of a path -/

theorem yields_modDefinition (intact : Intact tables.defs tables.tree) {module : ModuleId}
    (owned : Intact.OwnedByDefinition tables.tree module) :
    Yields False (tables.modDefinition module) tables.defs.Known := by
  obtain ⟨m, owner, found, isOwner⟩ := owned
  simp only [modDefinition, Yields.bind_iff, ModuleTree.get_of_find? found, Yields.ok_iff, isOwner]
  exact intact.owners found isOwner

/-- Each `super` leads to a `mod`, up to the root. -/
theorem searches_climb (intact : Intact tables.defs tables.tree) (segments : List Segment)
    {module : ModuleId} (owned : Intact.OwnedByDefinition tables.tree module)
    (here : segments.map (·.span) ⊆ spans) :
    Searches spans (tables.climb module segments) fun p =>
      tables.defs.Known p.1 ∧ p.2 ⊆ segments := by
  induction segments generalizing module with
  | nil =>
    unfold climb
    refine .bind (.lift (yields_modDefinition intact owned)) ?_
    intro id known
    exact .pure ⟨known, List.Subset.refl _⟩
  | cons segment rest ih =>
    have rest_here : rest.map (·.span) ⊆ spans := fun _ mem => here (List.mem_cons_of_mem _ mem)
    unfold climb
    split
    · obtain ⟨m, _, found, _⟩ := owned
      refine .bind (.lift (ModuleTree.known_of_find? found).get) ?_
      intro m found
      split
      · next parent inside =>
        have known := intact.validTree.known_parent found inside
        refine .bind (.lift (intact.enclosingMod known)) ?_
        intro outer owned
        exact (ih owned rest_here).mono
          fun p ended => ⟨ended.1, List.subset_cons_of_subset _ ended.2⟩
      · exact .throw rfl (here (List.mem_cons_self ..))
    · refine .bind (.lift (yields_modDefinition intact owned)) ?_
      intro id known
      exact .pure ⟨known, List.Subset.refl _⟩

/-- The variable that a path is, if it is the name of one. -/
def variableOf (tables : Tables) (ns : Namespace) (path : Path) (around : Regions) :
    Option NodeId :=
  match path.global, path.segments with
  | false, [⟨.name name, _⟩] => if ns = .value then tables.visibleVariable name around else none
  | _, _ => none

/-- Where a path starts that is no variable. -/
theorem searches_resolveFirst (intact : Intact tables.defs tables.tree) {stack : ScopeStack}
    {around : Regions} (stands : Stands tables stack around) {ns : Namespace} {path : Path}
    (relative : path.global = false) {first : Segment} {rest : List Segment}
    (split : path.segments = first :: rest) (suffix : Option String)
    (noVariable : tables.variableOf ns path around = none) :
    Searches (path.segments.map (·.span)) (tables.resolveFirst stack ns suffix first rest)
      fun start => match start with
        | .inl r => r.IsItem
        | .inr (id, left) => tables.defs.Known id ∧ left ⊆ path.segments := by
  have first_here : first.span ∈ path.segments.map (·.span) := by
    rw [split]
    exact List.mem_cons_self ..
  have part : rest ⊆ path.segments := by
    rw [split]
    exact List.subset_cons_self ..
  have nearest := stands.known_nearest
  unfold resolveFirst
  split
  · split
    · next id isSelf => exact .pure ⟨stands.known_selfItem isSelf, part⟩
    · exact .throw rfl first_here
  · refine .bind (.lift (intact.enclosingMod nearest)) ?_
    intro module owned
    refine .bind (.lift (yields_modDefinition intact owned)) ?_
    intro id known
    exact .pure ⟨known, part⟩
  · refine .bind (.lift (intact.enclosingMod nearest)) ?_
    intro module owned
    have here : (first :: rest).map (·.span) ⊆ path.segments.map (·.span) := by
      rw [split]
      exact List.Subset.refl _
    refine .bind (searches_climb intact (first :: rest) owned here) ?_
    intro p ended
    obtain ⟨known, part⟩ := ended
    refine .pure ⟨known, ?_⟩
    rw [split]
    exact part
  · next name isName =>
    refine .bind (.lift (stands.lookup intact.validTree _ name)) ?_
    intro found answer
    split
    · next node =>
      obtain ⟨-, isValue, visible⟩ := (answer.variable_iff node).mp rfl
      -- only the last segment is looked up among values
      cases rest with
      | cons second rest => cases isValue
      | nil =>
        -- a path of this name alone would be a variable, and it is not
        obtain ⟨kind, span⟩ := first
        subst isName
        have isValue : ns = .value := isValue
        simp [variableOf, relative, split, isValue, visible] at noVariable
    · next module binding =>
      have good := intact.bindings (answer.item _ _ rfl)
      refine .bind (searches_selectMember intact good first_here _) ?_
      intro member known
      refine .bind (searches_followAlias intact known _) ?_
      intro id id_known
      exact .pure ⟨id_known, part⟩
    · -- nothing has the name, but in a value it may still be a variant of an enum around
      have lookups ns := (stands.lookup intact.validTree ns name).mono
        fun found answer module binding eq => intact.bindings (answer.item module binding eq)
      have missing : Searches (path.segments.map (·.span))
          (do
            throw (← tables.unresolvedLexical stack ⟨name, first.span⟩ (segmentNamespace ns rest)))
          fun (_ : Resolution ⊕ DefId × List Segment) => False := by
        refine .bind (.lift (yields_unresolvedLexical intact stack _ lookups _)) ?_
        rintro _ ⟨found, rfl⟩
        exact .throw (isError_unresolved ..).1 ((isError_unresolved ..).2 ▸ first_here)
      dsimp only
      split
      · refine .bind (.lift (stands.variantNamed intact name)) ?_
        intro variant _
        split
        · exact .pure trivial
        · exact missing.mono fun _ never => never.elim
      · rw [pure_bind]
        exact missing.mono fun _ never => never.elim

/-! ## Whole paths -/

/-- A path that is no variable comes to an item or to an error at one of its segments. -/
theorem searches_resolvePath (intact : Intact tables.defs tables.tree) {stack : ScopeStack}
    {around : Regions} (stands : Stands tables stack around) {ns : Namespace} {path : Path}
    (spelled : path.segments ≠ []) (suffix : Option String)
    (noVariable : tables.variableOf ns path around = none) :
    Searches (path.segments.map (·.span)) (tables.resolvePath stack ns path suffix)
      Resolution.IsItem := by
  have nearest := stands.known_nearest
  cases segments : path.segments with
  | nil => exact absurd segments spelled
  | cons first rest =>
    unfold resolvePath
    simp only [segments]
    split
    · exact searches_followMembers intact nearest ns suffix (first :: rest) intact.known_root
        (List.Subset.refl _)
    · next relative =>
      have start := searches_resolveFirst intact stands (by simpa using relative) segments suffix
        noVariable
      rw [segments] at start
      refine .bind start ?_
      intro result holds
      split
      · exact .pure holds
      · next id left =>
        exact searches_followMembers intact nearest ns suffix left holds.1
          (List.map_subset _ holds.2)

/-- A path that is the name of a variable comes to it. -/
theorem resolvePath_of_variable (intact : Intact tables.defs tables.tree) {stack : ScopeStack}
    {around : Regions} (stands : Stands tables stack around) {ns : Namespace} {path : Path}
    {node : NodeId} (suffix : Option String)
    (isVariable : tables.variableOf ns path around = some node) (warnings : List Diagnostic) :
    (tables.resolvePath stack ns path suffix).run.run warnings =
      .ok (.ok (.localVar node), warnings) := by
  unfold variableOf at isVariable
  split at isVariable
  · next name span relative segments =>
    split at isVariable
    · next isValue =>
      subst isValue
      -- the lookup is the first thing that is done, and it finds the variable
      obtain ⟨found, lookup, answer⟩ :=
        Yields.false_iff.mp (stands.lookup intact.validTree .value name)
      have isLocal := (answer.variable_iff node).mpr ⟨rfl, rfl, isVariable⟩
      subst isLocal
      simp only [resolvePath, segments, relative, resolveFirst, segmentNamespace,
        List.isEmpty_nil, if_true]
      rw [lookup]
      rfl
    · cases isVariable
  · cases isVariable

end Tables

end NameResolution
