import NameResolution.Proofs.Resolution.Absolute
import NameResolution.Proofs.Resolution.Selves
import Mathlib.Tactic.Choose

/-! # What is suggested for a name that is not there

    A name that is not found in one namespace may be there in another, and then it
    is suggested. That takes lookups of their own, once the first has failed. They
    look where the first has looked, and they never suggest what the first would
    have taken. -/

namespace NameResolution

/-- Whether something has not been found. -/
def Diagnostic.isUnresolvedName : Diagnostic → Bool
  | .unresolvedName .. => true
  | _ => false

/-- An error comes from the first search, or from what goes on with its result. -/
theorem PathSearch.error_of_bind {α β : Type} {m : PathSearch α} {f : α → PathSearch β}
    {d : Diagnostic} {warnings warnings' : List Diagnostic}
    (run : (m >>= f).run.run warnings = .ok (.error d, warnings')) :
    m.run.run warnings = .ok (.error d, warnings') ∨
      ∃ a between, m.run.run warnings = .ok (.ok a, between) ∧
        (f a).run.run between = .ok (.error d, warnings') := by
  have run : m.run.run warnings >>= (fun p => (ExceptT.bindCont f p.1).run p.2) =
      .ok (.error d, warnings') := run
  obtain ⟨⟨r, between⟩, first, rest⟩ := Except.bind_eq_ok.mp run
  cases r with
  | ok a => exact .inr ⟨a, between, first, rest⟩
  | error d' =>
    cases rest
    exact .inl first

namespace Tables

/-! ## Suggestions -/

/-- What is suggested for a name that is not found in a namespace, by what it is found to be in
    each: one entry for each other namespace in which it is found, in their order, as many of them
    as there may be, or none if there are to be no suggestions. -/
def Suggests (tables : Tables) (find : Namespace → Option Found) (ns : Namespace)
    (alternatives : List String) : Prop :=
  ∃ texts : Namespace → String,
    (∀ other found, find other = some found → tables.describeFound found = .ok (texts other)) ∧
    alternatives =
      if tables.config.suggestAlternatives then
        ((Namespace.all.filter fun other => other != ns && (find other).isSome).take
          tables.config.maxSuggestions).map fun other =>
            s!"{texts other} in the {other.text} namespace"
      else []

variable {labels : NodeId → String → Prop} {tables : Tables} {stack : ScopeStack}
  {ns ns' : Namespace} {find : Namespace → Option Found} {alternatives : List String}
  {module : ModuleId} {name : String}

/-- The namespaces in which something is found, with its description. -/
theorem filterMap_found (texts : Namespace → String) :
    ((Namespace.all.filter (· != ns)).filterMap fun other =>
        (find other).map fun _ => (other, texts other)) =
      (Namespace.all.filter fun other => other != ns && (find other).isSome).map
        fun other => (other, texts other) := by
  induction Namespace.all with
  | nil => rfl
  | cons other rest ih =>
    rw [List.filter_cons, List.filter_cons]
    by_cases same : other = ns
    · simpa [same] using ih
    · cases here : find other <;> simpa [same, here] using ih

/-- What is reported of a name that is missing suggests what it is found to be elsewhere. -/
theorem exists_suggests (ident : Ident) (ns : Namespace) {texts : Namespace → String}
    (told : ∀ other found, find other = some found →
      tables.describeFound found = .ok (texts other)) :
    ∃ alternatives help, tables.Suggests find ns alternatives ∧
      tables.unresolved ident ns ((Namespace.all.filter (· != ns)).filterMap fun other =>
          (find other).map fun _ => (other, texts other)) =
        .unresolvedName ident.name ns ident.span alternatives help := by
  rw [filterMap_found]
  unfold unresolved
  rw [← List.map_take, List.map_map]
  exact ⟨_, _, ⟨texts, told, rfl⟩, rfl⟩

/-- Whatever is found can be described. -/
theorem exists_texts (intact : Intact tables.defs tables.tree)
    (good : ∀ other module binding, find other = some (.item module binding) →
      binding.Good tables.defs other) :
    ∃ texts : Namespace → String, ∀ other found, find other = some found →
      tables.describeFound found = .ok (texts other) := by
  have each (other : Namespace) : ∃ text, ∀ found, find other = some found →
      tables.describeFound found = .ok text := by
    cases here : find other with
    | none => exact ⟨"", by rintro _ ⟨⟩⟩
    | some found =>
      cases found with
      | localVar node =>
        refine ⟨"a local variable", ?_⟩
        rintro _ ⟨⟩
        rfl
      | item module binding =>
        obtain ⟨text, described, -⟩ :=
          Yields.false_iff.mp (yields_describe intact (good other module binding here))
        refine ⟨text, ?_⟩
        rintro _ ⟨⟩
        exact described
  choose texts told using each
  exact ⟨texts, told⟩

/-- The second round of lookups in scope suggests what it finds. -/
theorem unresolvedLexical_suggests (intact : Intact tables.defs tables.tree) (ident : Ident)
    (ns : Namespace) (finds : ∀ other, tables.lookup stack other ident.name = .ok (find other)) :
    ∃ alternatives help, tables.Suggests find ns alternatives ∧
      tables.unresolvedLexical stack ident ns =
        .ok (.unresolvedName ident.name ns ident.span alternatives help) := by
  obtain ⟨texts, told⟩ : ∃ texts : Namespace → String, ∀ other found, find other = some found →
      tables.describeFound found = .ok (texts other) := by
    refine exists_texts intact fun other module binding here => ?_
    have good := good_of_lookup intact stack other ident.name
    rw [finds other] at good
    exact good module binding here
  obtain ⟨alternatives, help, suggests, said⟩ := exists_suggests ident ns told
  refine ⟨alternatives, help, suggests, ?_⟩
  unfold unresolvedLexical
  rw [filterMapM_of_ok (g := fun other => (find other).map fun _ => (other, texts other)), ← said]
  · rfl
  · intro other _
    rw [finds other]
    cases here : find other with
    | none => rfl
    | some found =>
      show (do return some (other, ← tables.describeFound found)) = _
      rw [told other found here]
      rfl

/-- All bindings of the name in the module suggest what a lookup there finds in each namespace. -/
theorem unresolvedMember_suggests (intact : Intact tables.defs tables.tree)
    (known : tables.tree.Known module) (ident : Ident) (ns : Namespace) :
    ∃ alternatives help,
      tables.Suggests
        (fun other => (tables.tree.bindingAt? module other ident.name).map (.item module)) ns
        alternatives ∧
      tables.unresolvedMember module ident ns =
        .ok (.unresolvedName ident.name ns ident.span alternatives help) := by
  obtain ⟨m, found⟩ := known.find?
  simp only [ModuleTree.bindingAt?_of_find? found]
  obtain ⟨texts, told⟩ : ∃ texts : Namespace → String, ∀ other found,
      (m.find? other ident.name).map (Found.item module) = some found →
        tables.describeFound found = .ok (texts other) := by
    refine exists_texts intact fun other _ _ here => ?_
    obtain ⟨_, bound, ⟨⟩⟩ := Option.map_eq_some_iff.mp here
    exact intact.good found bound
  obtain ⟨alternatives, help, suggests, said⟩ := exists_suggests ident ns told
  refine ⟨alternatives, help, suggests, ?_⟩
  have listed : ((m.findAll ident.name).filter (·.1 != ns)).map (fun p => (p.1, texts p.1)) =
      (Namespace.all.filter (· != ns)).filterMap fun other =>
        ((m.find? other ident.name).map (Found.item module)).map fun _ => (other, texts other) := by
    unfold Module.findAll
    rw [List.filter_filterMap, List.map_filterMap, List.filterMap_filter]
    refine List.filterMap_congr fun other _ => ?_
    by_cases same : other = ns <;> cases m.find? other ident.name <;> simp [same]
  unfold unresolvedMember
  rw [ModuleTree.get_of_find? found, ← said, ← listed]
  dsimp only [Bind.bind, Except.bind]
  rw [mapM_of_ok (g := fun p => (p.1, texts p.1))]
  · rfl
  · intro p mem
    obtain ⟨other, here, mapped⟩ := List.mem_filterMap.mp (List.mem_of_mem_filter mem)
    obtain ⟨binding, bound, rfl⟩ := Option.map_eq_some_iff.mp mapped
    have described : tables.describe binding = .ok (texts other) :=
      told other (.item module binding) (by rw [bound]; rfl)
    dsimp only
    rw [described]
    rfl

/-! ## Variants -/

/-- In words, what is no variant is not taken for one. -/
theorem entry_ne_of_described {found : Found} {text : String}
    (told : tables.describeFound found = .ok text)
    (plain : ∀ module binding, found = .item module binding → tables.variant? binding = none)
    (ns other : Namespace) :
    s!"{text} in the {ns.text} namespace" ≠
      s!"{DefKind.variant.description} in the {other.text} namespace" := by
  let words := "a local variable" :: (DefKind.all.filter (· ≠ .variant)).map DefKind.description
  have apart : ∀ word ∈ words, ∀ ns ∈ Namespace.all, ∀ other ∈ Namespace.all,
      s!"{word} in the {ns.text} namespace" ≠
        s!"{DefKind.variant.description} in the {other.text} namespace" := by
    decide +kernel
  have kindWord {kind : DefKind} (other : kind ≠ .variant) : kind.description ∈ words := by
    refine List.mem_cons_of_mem _ (List.mem_map_of_mem (List.mem_filter.mpr ⟨?_, by simpa⟩))
    cases kind <;> decide
  refine apart text ?_ ns (Namespace.mem_all ns) other (Namespace.mem_all other)
  cases found with
  | localVar node =>
    cases told
    exact List.mem_cons_self ..
  | item module binding =>
    have plain := plain module binding rfl
    have told : tables.describe binding = .ok text := told
    unfold describe at told
    unfold variant? at plain
    split at told
    · cases told
      exact kindWord (by decide)
    · split at told
      · next id final =>
        obtain ⟨d, got, ⟨⟩⟩ := Except.bind_eq_ok.mp told
        refine kindWord fun isVariant => ?_
        simp [final, Definitions.find?_of_get got, isVariant] at plain
      · cases told
        exact kindWord (by decide)

/-- Where no variant is found, none is suggested. -/
theorem Suggests.no_variant (h : tables.Suggests find ns alternatives)
    (plain : ∀ other module binding, find other = some (.item module binding) →
      tables.variant? binding = none) (other : Namespace) :
    s!"{DefKind.variant.description} in the {other.text} namespace" ∉ alternatives := by
  obtain ⟨texts, told, rfl⟩ := h
  split
  · intro mem
    obtain ⟨ns', listed, same⟩ := List.mem_map.mp mem
    have isFound := (List.mem_filter.mp (List.mem_of_mem_take listed)).2
    obtain ⟨found, here⟩ := Option.isSome_iff_exists.mp (Bool.and_eq_true_iff.mp isFound).2
    refine entry_ne_of_described (told ns' found here) (fun module binding eq => ?_) ns' other same
    exact plain ns' module binding (here.trans (congrArg some eq))
  · exact List.not_mem_nil

/-- Only what is bound as a type may be a variant. -/
theorem variant?_eq_none_of_sorted {binding : Binding} (sorted : binding.Sorted tables.defs ns)
    (noType : ns ≠ .type) : tables.variant? binding = none := by
  have other {id : DefId} {d : Definition} (found : tables.defs.find? id = some d)
      (sort : d.kind.namespace? = some ns) (final : tables.finalDefinition? binding = some id) :
      tables.variant? binding = none := by
    have noVariant : d.kind ≠ .variant := by
      intro isVariant
      rw [isVariant] at sort
      exact noType (Option.some.inj sort).symm
    unfold variant?
    simp [final, found, noVariant]
  cases binding with
  | definition id =>
    obtain ⟨d, found, sort, -⟩ := sorted
    exact other found sort rfl
  | imported id =>
    obtain ⟨-, final, d, resolved, found, sort, -⟩ := sorted
    refine other found sort ?_
    rw [finalDefinition?, resolved]
    rfl
  | overloads set => rfl

/-- The variant that a type in scope is, if it is one. -/
theorem variantNamed_of_lookup (intact : Intact tables.defs tables.tree) {binding : Binding}
    (looked : tables.lookup stack .type name = .ok (some (.item module binding))) :
    tables.variantNamed stack name = .ok (tables.variant? binding) := by
  have good := good_of_lookup intact stack .type name
  rw [looked] at good
  obtain ⟨isVariant, tested, same⟩ :=
    Yields.false_iff.mp (yields_isVariant intact (good module binding rfl))
  unfold variantNamed
  rw [looked, ← same]
  show (do return if ← tables.isVariant binding then _ else none) = _
  rw [tested]
  rfl

/-! ## What is looked up -/

/-- At a point, a name in a path is looked up in a namespace: as the first segment of a relative
    path in scope, and behind other segments in the module that they lead to. Only the last segment
    is looked up where the path is used. The same lookup can be made in any namespace. -/
inductive Seeks (tables : Tables) (stack : ScopeStack) (ns : Namespace) (path : Path) :
    Ident → Namespace → (Namespace → Except Fault (Option Found)) → Prop where
  | name {ident : Ident} {rest : List Segment} (relative : path.global = false)
      (split : path.segments = .ofIdent ident :: rest) :
      Seeks tables stack ns path ident (segmentNamespace ns rest) fun other =>
        tables.lookup stack other ident.name
  | member {lead rest : List Segment} {ident : Ident} {id : DefId} {module : ModuleId}
      (split : path.segments = lead ++ .ofIdent ident :: rest)
      (front : tables.FrontLeadsTo stack path lead id)
      (home : tables.defs.module? id = some module) :
      Seeks tables stack ns path ident (segmentNamespace ns rest) fun other =>
        return (← tables.findMember module other ident.name).map (.item module)

/-- Why something in a path is reported as not found. A name is looked up in vain, and what is
    suggested is what the same lookup finds in the other namespaces; for a value that is never a
    variant, which would have been found as a value. Nothing is suggested for one of the words that
    stands where there is none, or for a name behind something that has no members to look up. -/
inductive Unfound (tables : Tables) (stack : ScopeStack) (ns : Namespace) (path : Path) :
    Diagnostic → Prop where
  | name {ident : Ident} {ns' : Namespace} {look : Namespace → Except Fault (Option Found)}
      {find : Namespace → Option Found} {alternatives : List String} {help : Option String}
      (seeks : tables.Seeks stack ns path ident ns' look)
      (finds : ∀ other, look other = .ok (find other)) (missing : find ns' = none)
      (suggests : tables.Suggests find ns' alternatives)
      (accepted : ns' = .value → ∀ other module binding,
        find other = some (.item module binding) → tables.variant? binding = none)
      (unsuggested : ns' = .value → ∀ other : Namespace,
        s!"{DefKind.variant.description} in the {other.text} namespace" ∉ alternatives) :
      Unfound tables stack ns path (.unresolvedName ident.name ns' ident.span alternatives help)
  | word {segment : Segment} {help : Option String} (mem : segment ∈ path.segments)
      (isWord : segment.ident? = none) :
      Unfound tables stack ns path
        (.unresolvedName segment.kind.text .type segment.span [] help)
  | memberless {lead rest : List Segment} {ident : Ident} {id : DefId} {help : Option String}
      (split : path.segments = lead ++ .ofIdent ident :: rest)
      (front : tables.FrontLeadsTo stack path lead id)
      (homeless : tables.defs.module? id = none) :
      Unfound tables stack ns path
        (.unresolvedName ident.name (segmentNamespace ns rest) ident.span [] help)

/-! ## Names that are looked up in vain -/

section

variable {path : Path} {lead rest : List Segment} {ident : Ident} {id : DefId}

/-- Where a member is missing, no variant takes the place of one in any namespace. -/
theorem memberIn?_eq_of_none (missing : tables.memberIn? module ns name = none)
    (notLifetime : ns ≠ .lifetime) (other : Namespace) :
    tables.memberIn? module other name = tables.tree.bindingAt? module other name := by
  unfold memberIn? at missing ⊢
  rw [Option.or_eq_none_iff] at missing
  by_cases isValue : other = .value
  · subst isValue
    rw [if_pos rfl]
    cases ns with
    | value =>
      rw [if_pos rfl] at missing
      rw [missing.1, missing.2, Option.or_none]
    | type => rw [missing.1, Option.filter_none, Option.or_none]
    | lifetime => exact absurd rfl notLifetime
  · rw [if_neg isValue, Option.or_none]

/-- A type is no variant if it does not take the place of a value that is missing. -/
theorem variant?_eq_none_of_memberIn? {binding : Binding}
    (missing : tables.memberIn? module .value name = none)
    (bound : tables.tree.bindingAt? module .type name = some binding) :
    tables.variant? binding = none := by
  unfold memberIn? at missing
  rw [Option.or_eq_none_iff, if_pos rfl, bound] at missing
  simpa using missing.2

/-- Among what has been found under a name that is missing as a value, only types could be
    variants. -/
theorem plain_of_missing (sorted : WellSorted labels tables.defs tables.tree)
    (bound : ∀ other module binding, find other = some (.item module binding) →
      tables.tree.bindingAt? module other name = some binding)
    (missing : find .value = none)
    (noVariant : ∀ module binding, find .type = some (.item module binding) →
      tables.variant? binding = none) (other : Namespace) (module : ModuleId) (binding : Binding)
    (here : find other = some (.item module binding)) : tables.variant? binding = none := by
  cases other with
  | value =>
    rw [missing] at here
    cases here
  | type => exact noVariant module binding here
  | lifetime =>
    exact variant?_eq_none_of_sorted (sorted.bindings (bound _ module binding here)) (by decide)

variable (sound : Sound labels (tables.defs, tables.tree))

include sound

/-- A name that is not bound in scope. -/
theorem unfound_of_name (placed : stack.Placed tables) (relative : path.global = false)
    (split : path.segments = .ofIdent ident :: rest)
    (missing : tables.lookup stack (segmentNamespace ns rest) ident.name = .ok none)
    (noVariant : segmentNamespace ns rest = .value →
      tables.variantNamed stack ident.name = .ok none) :
    Yields True (tables.unresolvedLexical stack ident (segmentNamespace ns rest))
      (tables.Unfound stack ns path) := by
  have intact : Intact tables.defs tables.tree := sound.intact
  have each (other : Namespace) :
      ∃ found, tables.lookup stack other ident.name = .ok found := by
    obtain ⟨found, finds, -⟩ :=
      Yields.false_iff.mp (yields_lookup placed.modules intact other ident.name)
    exact ⟨found, finds⟩
  choose find finds using each
  have bound (other : Namespace) (module : ModuleId) (binding : Binding)
      (here : find other = some (.item module binding)) :
      tables.tree.bindingAt? module other ident.name = some binding := by
    have bound : Yields True (tables.lookup stack other ident.name) fun found =>
        ∀ module binding, found = some (.item module binding) →
          tables.tree.bindingAt? module other ident.name = some binding :=
      bound_of_lookup intact.validTree
    rw [finds other] at bound
    exact bound module binding here
  obtain ⟨alternatives, help, suggests, said⟩ :=
    unresolvedLexical_suggests intact ident (segmentNamespace ns rest) finds
  have missing : find (segmentNamespace ns rest) = none :=
    Except.ok.inj ((finds _).symm.trans missing)
  have plain (isValue : segmentNamespace ns rest = .value) :=
    plain_of_missing sound.sorted bound (isValue ▸ missing) fun module binding here => by
      -- the type of that name would have been taken for a value if it were a variant
      have looked := finds .type
      rw [here] at looked
      have named := variantNamed_of_lookup intact looked
      rw [noVariant isValue] at named
      exact (Except.ok.inj named).symm
  rw [said]
  exact .name (.name relative split) finds missing suggests plain fun isValue =>
    suggests.no_variant (plain isValue)

/-- A name that the module of a definition does not bind. -/
theorem unfound_of_member (split : path.segments = lead ++ [.ofIdent ident])
    (front : tables.FrontLeadsTo stack path lead id) (home : tables.defs.module? id = some module)
    (missing : tables.memberIn? module ns ident.name = none) (notLifetime : ns ≠ .lifetime) :
    Yields True (tables.unresolvedMember module ident ns) (tables.Unfound stack ns path) := by
  have intact : Intact tables.defs tables.tree := sound.intact
  have there := intact.modules home
  have same := memberIn?_eq_of_none missing notLifetime
  have finds (other : Namespace) :
      (do return (← tables.findMember module other ident.name).map (.item module) :
        Except Fault (Option Found)) =
      .ok ((tables.tree.bindingAt? module other ident.name).map (.item module)) := by
    rw [findMember_eq intact there, same]
    rfl
  have unbound : tables.tree.bindingAt? module ns ident.name = none := (same ns).symm.trans missing
  have plain (isValue : ns = .value) : ∀ other owner binding,
      (tables.tree.bindingAt? module other ident.name).map (Found.item module) =
        some (.item owner binding) → tables.variant? binding = none := by
    subst isValue
    have bound (other : Namespace) (owner : ModuleId) (binding : Binding)
        (here : (tables.tree.bindingAt? module other ident.name).map (Found.item module) =
          some (.item owner binding)) :
        tables.tree.bindingAt? owner other ident.name = some binding := by
      obtain ⟨_, bound, ⟨⟩⟩ := Option.map_eq_some_iff.mp here
      exact bound
    refine plain_of_missing sound.sorted bound ?_ ?_
    · rw [unbound, Option.map_none]
    · intro owner binding here
      obtain ⟨_, bound, ⟨⟩⟩ := Option.map_eq_some_iff.mp here
      exact variant?_eq_none_of_memberIn? missing bound
  obtain ⟨alternatives, help, suggests, said⟩ := unresolvedMember_suggests intact there ident ns
  rw [said]
  refine .name (.member split front home) finds ?_ suggests plain fun isValue =>
    suggests.no_variant (plain isValue)
  show (tables.tree.bindingAt? module ns ident.name).map (Found.item module) = none
  rw [unbound, Option.map_none]

/-! ## Errors of a path -/

omit sound in
/-- What is bound has been found, whatever is selected of it. -/
theorem selectMember_fails_otherwise (binding : Binding) (ident : Ident)
    (suffix : Option String) : FailsWith (tables.selectMember binding ident suffix) fun d =>
      d.isUnresolvedName = true → tables.Unfound stack ns path d :=
  failsWith_selectMember tables binding ident suffix (by rintro _ _ _ _ _ ⟨⟩)
    (by rintro _ _ _ _ ⟨⟩)

omit sound in
theorem followAlias_fails_otherwise (id : DefId) (ident : Ident) :
    FailsWith (tables.followAlias id ident) fun d =>
      d.isUnresolvedName = true → tables.Unfound stack ns path d :=
  failsWith_followAlias tables id ident (by rintro _ _ _ ⟨⟩)

/-- Wherever the search goes on from, the last segment is not found for one of these reasons. -/
theorem failsWith_last {last : Segment} (split : path.segments = lead ++ [last])
    (front : tables.FrontLeadsTo stack path lead id) (notLifetime : ns ≠ .lifetime)
    (origin : ModuleId) (suffix : Option String) :
    FailsWith (tables.followMembers origin ns suffix id [last]) fun d =>
      d.isUnresolvedName = true → tables.Unfound stack ns path d := by
  have intact : Intact tables.defs tables.tree := sound.intact
  have mem : last ∈ path.segments := by simp [split]
  unfold followMembers
  cases isName : last.ident? with
  | none => exact .throw fun _ => .word mem isName
  | some ident =>
    obtain rfl := Segment.eq_ofIdent isName
    refine .bind (.lift _) fun definition => ?_
    cases home : tables.defs.module? id with
    | none =>
      dsimp only [pure_bind]
      split
      · exact .pure _
      · exact .throw fun _ => .memberless split front home
    | some module =>
      dsimp only
      rw [findMember_eq intact (intact.modules home), PathSearch.lift_ok, pure_bind]
      cases bound : tables.memberIn? module (segmentNamespace ns []) ident.name with
      | some binding =>
        dsimp only
        refine .bind (selectMember_fails_otherwise _ _ _) fun member => ?_
        refine .bind (failsWith_checkPrivacy tables _ _ _ _) fun _ => ?_
        refine .bind (followAlias_fails_otherwise _ _) fun final => ?_
        unfold followMembers
        exact .pure _
      | none =>
        dsimp only
        split
        · exact .pure _
        · have unfound := unfound_of_member sound split front home bound notLifetime
          exact .throw_lift (unfound.mono fun d unfound _ => unfound)

/-- Where a path starts, its first name is not found for one of these reasons. -/
theorem failsWith_first (placed : stack.Placed tables) (relative : path.global = false)
    {first : Segment} (split : path.segments = first :: rest) (suffix : Option String) :
    FailsWith (tables.resolveFirst stack ns suffix first rest) fun d =>
      d.isUnresolvedName = true → tables.Unfound stack ns path d := by
  unfold resolveFirst
  split
  · split
    · exact .pure _
    · exact .throw (by rintro ⟨⟩)
  · exact .bind (.lift _) fun _ => .bind (.lift _) fun _ => .pure _
  · refine .bind (.lift _) fun module => .bind ?_ fun _ => .pure _
    refine .mono (failsWith_climb_word tables module (first :: rest)) ?_
    rintro _ ⟨segment, mem, help, isWord, rfl⟩ -
    exact .word (split ▸ mem) isWord
  · next name isName =>
    obtain ⟨kind, span⟩ := first
    obtain rfl : kind = .name name := isName
    have missing (unbound : tables.lookup stack (segmentNamespace ns rest) name = .ok none)
        (noVariant : segmentNamespace ns rest = .value →
          tables.variantNamed stack name = .ok none) :
        FailsWith (do
          throw (← tables.unresolvedLexical stack ⟨name, span⟩ (segmentNamespace ns rest)) :
            PathSearch (Resolution ⊕ DefId × List Segment)) fun d =>
              d.isUnresolvedName = true → tables.Unfound stack ns path d := by
      have unfound : Yields True (tables.unresolvedLexical stack ⟨name, span⟩
          (segmentNamespace ns rest)) (tables.Unfound stack ns path) :=
        unfound_of_name sound placed relative split unbound noVariant
      exact .throw_lift (unfound.mono fun d unfound _ => unfound)
    refine .bind_of_gives (.lift _) (.lift (Yields.true_iff.mpr fun found eq => eq))
      fun found looked => ?_
    cases found with
    | some found =>
      cases found with
      | localVar node => exact .pure _
      | item module binding =>
        refine .bind (selectMember_fails_otherwise _ _ _) fun member => ?_
        exact .bind (followAlias_fails_otherwise _ _) fun _ => .pure _
    | none =>
      dsimp only
      split
      · refine .bind_of_gives (.lift _) (.lift (Yields.true_iff.mpr fun variant eq => eq))
          fun variant named => ?_
        cases variant with
        | some id => exact .pure _
        | none => exact missing looked fun _ => named
      · next noValue =>
        rw [pure_bind]
        refine missing looked fun isValue => absurd ?_ noValue
        -- only the last segment is looked up as a value
        unfold segmentNamespace at isValue
        split at isValue
        · next last => simp [last, isValue]
        · cases isValue

end

/-- A segment in front is looked up as a type, whatever the whole path is. -/
theorem Seeks.of_front {path : Path} {front : List Segment} {last : Segment} {ident : Ident}
    {look : Namespace → Except Fault (Option Found)} (split : path.segments = front ++ [last])
    (h : tables.Seeks stack .type { path with segments := front } ident ns' look) :
    tables.Seeks stack ns path ident ns' look := by
  have inFront (rest : List Segment) :
      segmentNamespace .type rest = segmentNamespace ns (rest ++ [last]) := by
    rw [segmentNamespace_type, segmentNamespace_concat]
  cases h with
  | @name ident rest relative split' =>
    obtain rfl : front = .ofIdent ident :: rest := split'
    rw [inFront]
    exact .name relative split
  | @member lead rest ident id module split' lead' home =>
    obtain rfl : front = lead ++ .ofIdent ident :: rest := split'
    rw [inFront]
    exact .member (by rw [split, List.append_assoc, List.cons_append])
      (frontLeadsTo_front.mp lead') home

theorem Unfound.of_front {path : Path} {front : List Segment} {last : Segment} {d : Diagnostic}
    (split : path.segments = front ++ [last])
    (h : tables.Unfound stack .type { path with segments := front } d) :
    tables.Unfound stack ns path d := by
  cases h with
  | name seeks finds missing suggests accepted unsuggested =>
    exact .name (seeks.of_front split) finds missing suggests accepted unsuggested
  | word mem isWord => exact .word (split ▸ List.mem_append_left _ mem) isWord
  | @memberless lead rest ident id help split' lead' homeless =>
    obtain rfl : front = lead ++ .ofIdent ident :: rest := split'
    rw [segmentNamespace_type, ← segmentNamespace_concat ns rest last]
    exact .memberless (by rw [split, List.append_assoc, List.cons_append])
      (frontLeadsTo_front.mp lead') homeless

/-- In any scopes, what a path is reported for as not found is not found for one of these reasons.
    A lifetime is looked up by its name alone. -/
theorem unfound_of_resolvePath (sound : Sound labels (tables.defs, tables.tree))
    (placed : stack.Placed tables) {path : Path} {suffix : Option String} {d : Diagnostic}
    (short : ns = .lifetime → path.global = false ∧ path.segments.length = 1)
    {warnings : List Diagnostic}
    (run : (tables.resolvePath stack ns path suffix).run.run [] = .ok (.error d, warnings))
    (isUnresolved : d.isUnresolvedName = true) : tables.Unfound stack ns path d := by
  -- from the end: the error is that of the front part, or the last segment is not found behind it
  induction segments : path.segments using List.reverseRecOn
    generalizing path ns suffix warnings with
  | nil =>
    unfold resolvePath at run
    rw [segments] at run
    cases run
  | append_singleton front last ih =>
    rcases frontless_or_goesOn segments with frontless | ⟨notEmpty, goesOn⟩
    · obtain ⟨first, rest, split⟩ : ∃ first rest, path.segments = first :: rest :=
        List.exists_cons_of_ne_nil (by simp [segments])
      by_cases global : path.global = true
      · obtain rfl := frontless.rest_eq_nil_of_global split global
        rw [resolvePath_of_global global (by simp [split]), split] at run
        refine (failsWith_last sound split (.root global) ?_ _ suffix).of_run run isUnresolved
        rintro rfl
        simp [(short rfl).1] at global
      · have relative : path.global = false := by simpa using global
        rw [resolvePath_of_relative relative split] at run
        rcases PathSearch.error_of_bind run with fails | ⟨start, between, starts, behind⟩
        · exact (failsWith_first sound placed relative split suffix).of_run fails isUnresolved
        · -- behind the only segment, or behind all the climbing, nothing is left to fail
          have alone := Yields.true_iff.mp
            (gives_resolveFirst_alone (frontless.rest split) []) _ starts start rfl
          rcases start with resolution | ⟨id, left⟩
          · cases behind
          · obtain rfl : left = [] := alone
            unfold followMembers at behind
            cases behind
    · rw [goesOn] at run
      rcases PathSearch.error_of_bind run with inFront | ⟨r, between, lead, behind⟩
      · exact .of_front segments (ih (by simp) inFront rfl)
      · cases r with
        | definition id =>
          refine (failsWith_last sound segments (.lead notEmpty lead) ?_ _ suffix).of_run behind
            isUnresolved
          rintro rfl
          have alone := (short rfl).2
          rw [segments, List.length_append, List.length_singleton] at alone
          exact notEmpty (List.eq_nil_of_length_eq_zero (by omega))
        | typeRelative base left => cases behind
        | localVar node => cases behind
        | error => cases behind

/-- What a path is warned of is never that something is not found. -/
theorem warned_of_resolvePath {path : Path} {suffix : Option String}
    {result : Except Diagnostic Resolution} {warnings : List Diagnostic}
    (run : (tables.resolvePath stack ns path suffix).run.run [] = .ok (result, warnings)) :
    Warned [] warnings := by
  -- a search that is compared with itself has only such warnings
  have same : PathSearch.SameButWarnings (tables.resolvePath stack ns path suffix)
      (tables.resolvePath stack ns path suffix) := by
    cases segments : path.segments with
    | nil =>
      unfold resolvePath
      rw [segments]
      exact fun _ _ => .fault
    | cons first rest =>
      by_cases global : path.global = true
      · rw [resolvePath_of_global global (by simp [segments])]
        exact sameButWarnings_followMembers _ _
      · rw [resolvePath_of_relative (by simpa using global) segments]
        refine .bind (.of_silent (silent_resolveFirst tables stack ns suffix first rest))
          fun start => ?_
        cases start with
        | inl resolution => exact .of_silent (.pure _)
        | inr start => exact sameButWarnings_followMembers _ _
  exact (same [] [] _ _ run run).2.1

end Tables

end NameResolution
