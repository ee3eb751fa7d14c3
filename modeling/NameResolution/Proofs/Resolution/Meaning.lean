import NameResolution.Proofs.Declaration.Owners
import NameResolution.Proofs.Import.Trail
import NameResolution.Proofs.Resolution.Paths

/-! # What an import and its path mean

    The path of an import is followed by the import phase, in tables that are
    still being filled. A path in the text is followed in the finished tables,
    by another search. Where an import starts from the root, from `self` or from
    `super`, the two go the same way segment by segment, and what the import has
    found on its way is there still. So the path of the import leads to what
    the import has brought in, from any point of its module. -/

namespace NameResolution

/-! ## Searches that find something -/

/-- What a binding comes to in the end, of a set by a suffix. -/
inductive Selects (defs : Definitions) (suffix : Option String) : Binding → DefId → Prop where
  | single {binding : Binding} {target final : DefId}
      (names : binding = .definition target ∨ binding = .imported target)
      (stands : defs.Names target final) : Selects defs suffix binding final
  | function {set : OverloadId} {label : String} {member final : DefId}
      (isSuffix : suffix = some label) (mem : defs.member? set label = some member)
      (stands : defs.Names member final) : Selects defs suffix (.overloads set) final

/-- A search that can give no error comes to its result. -/
theorem Searches.ends {α : Type} {m : PathSearch α} {a : α} (h : Searches [] m (· = a))
    (warnings : List Diagnostic) :
    ∃ more, (∀ d ∈ more, d.isError = false) ∧
      m.run.run warnings = .ok (.ok a, warnings ++ more) := by
  obtain ⟨⟨r, warnings'⟩, run, ⟨more, eq, all⟩, ended⟩ := Yields.false_iff.mp (h warnings)
  have eq : warnings' = warnings ++ more := eq
  subst eq
  cases r with
  | ok b =>
    cases ended
    exact ⟨more, all, run⟩
  | error d => exact absurd ended.2 List.not_mem_nil

theorem Searches.lift_ok {α : Type} {spans : List Span} {result : Except Fault α} {a : α}
    (h : result = .ok a) : Searches spans (liftM result : PathSearch α) (· = a) := by
  refine .lift ?_
  rw [h]
  rfl

namespace Tables

variable {tables : Tables} {spans : List Span} {origin module : ModuleId} {ns : Namespace}
  {suffix : Option String} {binding : Binding} {id final : DefId} {segment : Segment}
  {rest : List Segment} {name : String} {post : Resolution → Prop}

theorem searches_selectMember_of_selects (h : Selects tables.defs suffix binding final)
    (ident : Ident) :
    ∃ member, tables.defs.Names member final ∧
      Searches spans (tables.selectMember binding ident suffix) (· = member) := by
  cases h with
  | @single _ target _ names stands =>
    refine ⟨target, stands, ?_⟩
    rcases names with rfl | rfl
    · exact .pure rfl
    · exact .pure rfl
  | @function set label member _ isSuffix mem stands =>
    subst isSuffix
    obtain ⟨members, held, mem⟩ := Definitions.member?_eq_some.mp mem
    refine ⟨member, stands, ?_⟩
    unfold selectMember
    refine .bind (.lift_ok (Definitions.overloadSet_of_getElem? held)) ?_
    rintro _ rfl
    dsimp only
    rw [mem]
    exact .pure rfl

theorem searches_followAlias_of_names (valid : tables.defs.Valid)
    (names : tables.defs.Names id final) (ident : Ident) :
    Searches spans (tables.followAlias id ident) (· = final) := by
  unfold followAlias
  rw [(valid.resolveAlias_iff names.known).mpr names]
  exact .pure rfl

/-- A name that is bound in the module of a definition is followed to what it stands for. -/
theorem searches_followMembers_cons (intact : Intact tables.defs tables.tree)
    (known : tables.tree.Known origin) (home : tables.defs.module? id = some module)
    (isName : segment.kind = .name name)
    (bound : tables.tree.bindingAt? module (segmentNamespace ns rest) name = some binding)
    (selects : Selects tables.defs (segmentSuffix suffix rest) binding final)
    (others : Searches spans (tables.followMembers origin ns suffix final rest) post) :
    Searches spans (tables.followMembers origin ns suffix id (segment :: rest)) post := by
  have isIdent : segment.ident? = some ⟨name, segment.span⟩ := by
    unfold Segment.ident?
    rw [isName]
  have there := intact.modules home
  obtain ⟨m, found⟩ := there.find?
  have member : tables.findMember module (segmentNamespace ns rest) name = .ok (some binding) := by
    rw [ModuleTree.bindingAt?_of_find? found] at bound
    refine Except.bind_eq_ok.mpr ⟨m, ModuleTree.get_of_find? found, ?_⟩
    rw [bound]
    rfl
  have id_known : tables.defs.Known id := intact.validDefs.owners home
  unfold followMembers
  rw [isIdent]
  dsimp only
  refine .bind (.lift id_known.get) ?_
  intro definition _
  rw [home]
  refine .bind (.lift_ok member) ?_
  rintro _ rfl
  obtain ⟨id', names, selected⟩ := searches_selectMember_of_selects selects ⟨name, segment.span⟩
  refine .bind selected ?_
  rintro _ rfl
  refine .bind (searches_checkPrivacy intact known there names.known _) ?_
  intro _ _
  refine .bind (searches_followAlias_of_names intact.validDefs names _) ?_
  rintro _ rfl
  exact others

/-- A `mod` belongs to a definition, which leads back to it. -/
theorem yields_modDefinition_of_housed (housed : Housed tables.defs tables.tree)
    (intact : Intact tables.defs tables.tree)
    (enclosing : tables.tree.enclosingMod tables.defs origin = .ok module) :
    Yields False (tables.modDefinition module) fun id => tables.defs.module? id = some module := by
  obtain ⟨m, owner, found, isOwner⟩ := intact.owned_of_enclosingMod enclosing
  simp only [modDefinition, Yields.bind_iff, ModuleTree.get_of_find? found, Yields.ok_iff, isOwner]
  exact housed.module? found isOwner

end Tables

/-! ## The way of an import -/

namespace Importing

variable {n : Nat} {labels : NodeId → String → Prop} {imports : Imports n} {s s' : ImportState n}
  {i : Fin n} {position : PathPosition} {home module final : ModuleId}
  {lead segments : List Segment}
  {last : Segment} {binding : Binding} {ns : Namespace} {suffix : Option String} {id : DefId}

/-- The finished tables, for paths in the text. -/
def tablesOf (s : ImportState n) (config : Config) : Tables := ⟨s.defs, s.tree, config⟩

/-- The same words, wherever they are written. -/
def SameWords (segments segments' : List Segment) : Prop :=
  segments.map (·.kind) = segments'.map (·.kind)

theorem SameWords.nil (same : SameWords segments []) : segments = [] :=
  List.map_eq_nil_iff.mp same

theorem SameWords.cons {segment : Segment} (same : SameWords segments (segment :: lead)) :
    ∃ segment' segments', segments = segment' :: segments' ∧ segment'.kind = segment.kind ∧
      SameWords segments' lead := by
  obtain ⟨segment', segments', rfl, sameFirst, sameRest⟩ := List.map_eq_cons_iff.mp same
  exact ⟨segment', segments', rfl, sameFirst, sameRest⟩

theorem SameWords.append (same : SameWords segments (lead ++ [last])) :
    ∃ segments' last', segments = segments' ++ [last'] ∧ SameWords segments' lead ∧
      last'.kind = last.kind := by
  unfold SameWords at same
  rw [List.map_append] at same
  obtain ⟨segments', rest, rfl, sameLead, sameLast⟩ := List.map_eq_append_iff.mp same
  obtain ⟨last', rest, rfl, isLast, noMore⟩ := SameWords.cons sameLast
  obtain rfl := noMore.nil
  exact ⟨segments', last', rfl, sameLead, isLast⟩

/-- A path that does not start with a name. -/
def StartsWithWord (segments : List Segment) : Prop :=
  ∀ first ∈ segments.head?, ∀ name, first.kind ≠ .name name

/-- Where no name is looked for outward, the way is the same in later tables. -/
theorem Arrives.later (h : Arrives imports i s position module lead final)
    (word : position = .start → StartsWithWord lead) (inOrder : InOrder labels imports s)
    (later : Later labels s s') : Arrives imports i s' position module lead final := by
  induction h with
  | here => exact .here
  | selfModule isSelf enclosing _ ih =>
    exact .selfModule isSelf (later.tree.enclosingMod later.defs_keeps enclosing) (ih (by simp))
  | super isSuper before outer _ ih =>
    exact .super isSuper before (outer.later later) (ih (by simp))
  | outward isName _ _ _ _ => exact absurd isName (word rfl _ (by simp) _)
  | member isName behind bound leadsTo _ ih =>
    have good := inOrder.sound.intact.bindings bound
    exact .member isName behind (later.tree_keeps.bound bound)
      (leadsTo.later inOrder.sound later good) (ih (by simp))

/-- What a binding on the way stands for, paths come to as well. -/
theorem selects_of_definitionOf (sound : Sound labels (s.defs, s.tree))
    (sorted : binding.Sorted s.defs ns) {stands : DefId}
    (got : definitionOf s.defs binding = .ok stands) : Selects s.defs suffix binding stands := by
  have single {target : DefId} (names : binding = .definition target ∨ binding = .imported target) :
      Selects s.defs suffix binding stands := by
    obtain ⟨final, got', namesFinal⟩ :=
      exists_definitionOf sound.intact.validDefs sound.sorted.defs sorted names
    rw [got] at got'
    cases got'
    exact .single names namesFinal
  cases binding with
  | definition target => exact single (.inl rfl)
  | imported target => exact single (.inr rfl)
  | overloads set => cases got

section

variable {config : Config} {origin : ModuleId} {post : Resolution → Prop}

/-- Behind the first words, a path goes where the import went. -/
theorem Arrives.searches_followMembers (h : Arrives imports i s .inside module lead final)
    (sound : Sound labels (s.defs, s.tree)) (known : s.tree.Known origin)
    (same : SameWords segments lead) (there : s.defs.module? id = some module)
    (ends : ∀ id, s.defs.module? id = some final →
      Searches [] ((tablesOf s config).followMembers origin ns suffix id [last]) post) :
    Searches [] ((tablesOf s config).followMembers origin ns suffix id (segments ++ [last]))
      post := by
  induction lead generalizing module id segments with
  | nil =>
    obtain rfl := same.nil
    obtain rfl := h.eq_of_nil
    exact ends id there
  | cons segment lead ih =>
    obtain ⟨segment', segments, rfl, sameFirst, sameRest⟩ := same.cons
    cases h with
    | super _ before _ _ => exact absurd rfl before
    | member isName _ bound leadsTo others =>
      obtain ⟨stands, got, next⟩ := leadsTo
      have selects : Selects s.defs (Tables.segmentSuffix suffix (segments ++ [last])) _ stands :=
        selects_of_definitionOf sound (sound.sorted.bindings bound) got
      have onTheWay : Tables.segmentNamespace ns (segments ++ [last]) = .type := by
        unfold Tables.segmentNamespace
        simp
      rw [← onTheWay] at bound
      exact Tables.searches_followMembers_cons sound.intact known there (sameFirst.trans isName)
        bound selects (ih others sameRest next)

/-- Where a path stands after its first words, an import has stood as well. -/
def StandsWith (imports : Imports n) (i : Fin n) (s : ImportState n) (final : ModuleId)
    (last : Segment) (p : DefId × List Segment) : Prop :=
  ∃ module lead segments, p.2 = segments ++ [last] ∧ SameWords segments lead ∧
    s.defs.module? p.1 = some module ∧ Arrives imports i s .inside module lead final

/-- Each `super` leads to where it led the import. -/
theorem Arrives.searches_climb (h : Arrives imports i s .climbing module lead final)
    (sound : Sound labels (s.defs, s.tree)) (housed : Housed s.defs s.tree)
    (itself : s.tree.enclosingMod s.defs module = .ok module) (same : SameWords segments lead)
    (ordinary : last.kind ≠ .super) :
    Searches [] ((tablesOf s config).climb module (segments ++ [last]))
      (StandsWith imports i s final last) := by
  induction lead generalizing module segments with
  | nil =>
    obtain rfl := same.nil
    obtain rfl := h.eq_of_nil
    rw [List.nil_append]
    unfold Tables.climb
    rw [if_neg ordinary]
    refine .bind (.lift (Tables.yields_modDefinition_of_housed housed sound.intact itself)) ?_
    intro id there
    exact .pure ⟨_, [], [], rfl, rfl, there, .here⟩
  | cons segment lead ih =>
    have words := same
    obtain ⟨segment', segments, rfl, sameFirst, sameRest⟩ := same.cons
    rw [List.cons_append]
    unfold Tables.climb
    cases h with
    | super isSuper _ outer others =>
      obtain ⟨current, m, parent, enclosing, got, inside, next⟩ := outer
      rw [itself] at enclosing
      cases enclosing
      rw [if_pos (sameFirst.trans isSuper)]
      refine .bind (.lift_ok got) ?_
      rintro _ rfl
      rw [inside]
      refine .bind (.lift_ok next) ?_
      rintro _ rfl
      exact ih others (sound.intact.enclosingMod_self next) sameRest
    | @member _ _ _ _ _ _ name _ isName _ bound leadsTo others =>
      have ordinary' : segment'.kind ≠ .super := by
        rw [sameFirst, isName]
        simp
      rw [if_neg ordinary']
      refine .bind (.lift (Tables.yields_modDefinition_of_housed housed sound.intact itself)) ?_
      intro id there
      exact .pure ⟨_, segment :: lead, segment' :: segments, rfl, words, there,
        .member isName (by simp) bound leadsTo others⟩

/-- Behind `self` and behind each `super` at the start, a path stands where the import stood. -/
theorem Arrives.searches_resolveFirst {segment first : Segment}
    (h : Arrives imports i s .start home (segment :: lead) final)
    (sound : Sound labels (s.defs, s.tree)) (housed : Housed s.defs s.tree)
    {stack : ScopeStack} (nearest : stack.nearestModule = home)
    (word : ∀ name, segment.kind ≠ .name name) (sameFirst : first.kind = segment.kind)
    (same : SameWords segments lead) (ordinary : last.kind ≠ .super) :
    Searches [] ((tablesOf s config).resolveFirst stack ns suffix first (segments ++ [last]))
      fun start => ∃ p, start = .inr p ∧ StandsWith imports i s final last p := by
  unfold Tables.resolveFirst
  rw [nearest]
  cases h with
  | selfModule isSelf enclosing others =>
    rw [sameFirst, isSelf]
    refine .bind (.lift_ok enclosing) ?_
    rintro _ rfl
    refine .bind (.lift (Tables.yields_modDefinition_of_housed housed sound.intact enclosing)) ?_
    intro id there
    exact .pure ⟨_, rfl, _, lead, segments, rfl, same, there, others⟩
  | super isSuper before outer others =>
    rw [sameFirst, isSuper]
    obtain ⟨current, m, parent, enclosing, got, inside, next⟩ := outer
    refine .bind (.lift_ok enclosing) ?_
    rintro _ rfl
    -- counted from the `mod` that encloses the module, the way is the same
    have itself := sound.intact.enclosingMod_self enclosing
    have climbs : Arrives imports i s .climbing _ (segment :: lead) final :=
      .super isSuper (by simp) ⟨_, m, parent, itself, got, inside, next⟩ others
    have words : SameWords (first :: segments) (segment :: lead) :=
      congrArg₂ List.cons sameFirst same
    refine .bind (climbs.searches_climb sound housed itself words ordinary) ?_
    intro p stands
    exact .pure ⟨p, rfl, stands⟩
  | outward isName _ _ _ => exact absurd isName (word _)
  | member _ behind _ _ _ => exact absurd rfl behind

/-- What a path leads to that starts from the root, from `self` or from `super`, as an import
    does. -/
theorem Arrives.searches_resolvePath {directive : Directive}
    (h : Arrives imports i s (firstPosition directive) (firstModule directive) lead final)
    (sound : Sound labels (s.defs, s.tree)) (housed : Housed s.defs s.tree)
    (known : s.tree.Known directive.module)
    (anchored : directive.path.global = true ∨ lead ≠ [] ∧ StartsWithWord lead)
    {stack : ScopeStack} (nearest : stack.nearestModule = directive.module) {path : Path}
    (sameStart : path.global = directive.path.global) (split : path.segments = segments ++ [last])
    (same : SameWords segments lead) (ordinary : last.kind ≠ .super)
    (ends : ∀ id, s.defs.module? id = some final →
      Searches [] ((tablesOf s config).followMembers directive.module ns suffix id [last]) post) :
    Searches [] ((tablesOf s config).resolvePath stack ns path suffix) post := by
  unfold firstPosition firstModule at h
  unfold Tables.resolvePath
  rw [nearest, sameStart, split]
  dsimp only
  by_cases global : directive.path.global = true
  · rw [if_pos global, if_pos global] at h
    obtain ⟨m, found, owner, -⟩ := sound.intact.validTree.root
    have root : s.defs.module? .root = some .root := housed.module? found owner
    have follows := h.searches_followMembers sound known same root ends
    cases segments with
    | nil =>
      rw [List.nil_append] at follows ⊢
      dsimp only
      rw [if_pos global]
      exact follows
    | cons first segments =>
      rw [List.cons_append] at follows ⊢
      dsimp only
      rw [if_pos global]
      exact follows
  · rw [if_neg global, if_neg global] at h
    obtain ⟨notEmpty, word⟩ := anchored.resolve_left global
    cases lead with
    | nil => exact absurd rfl notEmpty
    | cons segment lead =>
      obtain ⟨first, segments, rfl, sameFirst, sameRest⟩ := same.cons
      rw [List.cons_append]
      dsimp only
      rw [if_neg global]
      refine .bind (h.searches_resolveFirst sound housed nearest (word _ rfl) sameFirst sameRest
        ordinary) ?_
      rintro _ ⟨p, rfl, module, lead, segments, split, same, there, others⟩
      dsimp only
      rw [split]
      exact others.searches_followMembers sound known same there ends

end

/-! ## What an import makes -/

/-- What an import has made of something it has found: an alias of it, or of a function of a set.
    Whatever has been made of a set is in some set in turn. -/
inductive MadeFor (defs : Definitions) (node : NodeId) (id : DefId) : Binding → Prop where
  | alias' {binding : Binding} {target : DefId}
      (names : binding = .definition target ∨ binding = .imported target)
      (made : defs.AliasAt node id target) : MadeFor defs node id binding
  | copy {source : OverloadId} (joined : ∃ set suffix, defs.member? set suffix = some id)
      (copies : ∀ set suffix, defs.member? set suffix = some id → ∃ original,
        defs.AliasAt node id original ∧ defs.member? source suffix = some original) :
      MadeFor defs node id (.overloads source)

theorem MadeFor.later {node : NodeId} (h : MadeFor s.defs node id binding)
    (later : Later labels s s') (known : s.defs.Known id) : MadeFor s'.defs node id binding := by
  cases h with
  | alias' names made => exact .alias' names (later.defs_keeps.aliasAt made)
  | copy joined copies =>
    obtain ⟨set, suffix, mem⟩ := joined
    refine .copy ⟨set, suffix, later.defs_keeps.member? mem⟩ fun set suffix mem => ?_
    obtain ⟨original, made, from_⟩ := copies set suffix (later.members known mem)
    exact ⟨original, later.defs_keeps.aliasAt made, later.defs_keeps.member? from_⟩

variable {directive : Directive} {name : Ident} {source : ModuleId} {publicOnly : Bool}

theorem Outcome.madeFor (outcome : Outcome directive ns name publicOnly s binding s')
    (valid : s.defs.Valid) (new : ¬ s.defs.Known id) (known : s'.defs.Known id) :
    MadeFor s'.defs directive.node id binding := by
  -- one alias is made, and that is the new definition
  have aliasOf {target id' : DefId} {defs : Definitions}
      (names : binding = .definition target ∨ binding = .imported target)
      (made : s.defs.defineAlias directive.isPub directive.node name target = .ok (id', defs))
      (known : defs.Known id) : MadeFor defs directive.node id binding := by
    obtain ⟨isAlias, -, only⟩ := Definitions.aliasAt_of_defineAlias made
    rw [only id known new]
    exact .alias' names isAlias
  have copied {g f : OverloadId} {into : Option OverloadId} {taken : List (String × DefId)}
      {defs : Definitions}
      (made : s.defs.importOverloads directive.isPub directive.node g into publicOnly =
        .ok (f, taken, defs))
      (known : defs.Known id) : MadeFor defs directive.node id (.overloads g) := by
    obtain ⟨-, copies⟩ := Yields.true_iff.mp Definitions.importOverloads_copies _ made
    obtain ⟨suffix, mem⟩ := copies.joined id new known
    refine .copy ⟨_, suffix, mem⟩ fun set suffix mem => ?_
    obtain ⟨-, original, made, from_, -⟩ := copies.exists_target valid new mem
    exact ⟨original, made, copies.keeps.member? from_⟩
  cases outcome with
  | refused _ _ _ => exact absurd known new
  | aliased names made _ _ _ => exact aliasOf names made known
  | aliasTaken names made _ _ => exact aliasOf names made known
  | joined _ made _ => exact copied made known
  | blocked _ _ _ => exact absurd known new
  | opened _ made => exact copied made known

theorem BringsAll.madeFor {found : List (Namespace × ModuleId × Binding)}
    (brings : BringsAll directive name found s s') (prepared : Prepared labels directive found s)
    (new : ¬ s.defs.Known id) (known : s'.defs.Known id) :
    ∃ p ∈ found, MadeFor s'.defs directive.node id p.2.2 := by
  induction brings with
  | nil => exact absurd known new
  | @cons _ _ _ _ s s₁ _ first others ih =>
    obtain ⟨-, rest⟩ := prepared.first first
    by_cases known₁ : s₁.defs.Known id
    · obtain ⟨_, _, _, outcome⟩ := first
      have made := outcome.madeFor prepared.sound.intact.validDefs new known₁
      exact ⟨_, List.mem_cons_self .., made.later (others.later rest) known₁⟩
    · obtain ⟨p, mem, made⟩ := ih rest known₁ known
      exact ⟨p, List.mem_cons_of_mem _ mem, made⟩

/-! ## What it means -/

/-- At any point of a module, a path with these words leads to a definition. There may be warnings,
    but no error. -/
def PathLeadsTo (s : ImportState n) (home : ModuleId) (words : UsePath) (ns : Namespace)
    (suffix : Option String) (final : DefId) : Prop :=
  ∀ (config : Config) (stack : ScopeStack) (path : Path), stack.nearestModule = home →
    path.global = words.global → SameWords path.segments words.segments →
    ∀ warnings, ∃ more, (∀ d ∈ more, d.isError = false) ∧
      ((tablesOf s config).resolvePath stack ns path suffix).run.run warnings =
        .ok (.ok (.definition final), warnings ++ more)

/-- An alias stands for what a path leads to in its namespace. If that is a function, the path
    leads to it with each suffix that the alias has. -/
def StandsForPath (s : ImportState n) (home : ModuleId) (words : UsePath) (id : DefId) : Prop :=
  ∃ final d, s.defs.resolveAlias id = .ok final ∧ s.defs.find? final = some d ∧
    (d.kind.isCallable = false →
      ∃ ns, d.kind.namespace? = some ns ∧ ∀ suffix, PathLeadsTo s home words ns suffix final) ∧
    (d.kind.isCallable = true → (∃ set suffix, s.defs.member? set suffix = some id) ∧
      ∀ set suffix, s.defs.member? set suffix = some id →
        PathLeadsTo s home words .value (some suffix) final)

theorem MadeFor.standsForPath {node : NodeId} {words : UsePath}
    (made : MadeFor s.defs node id binding) (sound : Sound labels (s.defs, s.tree))
    (sorted : binding.Sorted s.defs ns)
    (leads : ∀ suffix final, Selects s.defs suffix binding final →
      PathLeadsTo s home words ns suffix final) : StandsForPath s home words id := by
  have valid := sound.intact.validDefs
  cases made with
  | alias' names made =>
    obtain ⟨final, d, resolved, found, sort, notCallable⟩ :=
      sorted.finallyIs names valid sound.sorted.defs
    obtain ⟨_, _, stands⟩ := exists_definitionOf valid sound.sorted.defs sorted names
    obtain rfl := stands.unique ((valid.resolveAlias_iff stands.known).mp resolved)
    refine ⟨_, d, names_of_aliasAt valid made stands, found, fun _ => ⟨ns, sort, ?_⟩, ?_⟩
    · intro suffix
      exact leads suffix _ (.single names stands)
    · intro callable
      rw [notCallable] at callable
      cases callable
  | copy joined copies =>
    obtain ⟨rfl, -⟩ := sorted
    obtain ⟨set, suffix, mem⟩ := joined
    obtain ⟨members, held, mem'⟩ := Definitions.member?_eq_some.mp mem
    obtain ⟨final, d, resolved, found, isFunction, -⟩ := sound.sorted.defs.members held mem'
    have callable : d.kind.isCallable = true := by
      rcases isFunction with kind | kind
      · rw [kind]
        rfl
      · rw [kind]
        rfl
    refine ⟨final, d, resolved, found, fun notCallable => ?_,
      fun _ => ⟨⟨set, suffix, mem⟩, fun set suffix mem => ?_⟩⟩
    · rw [callable] at notCallable
      cases notCallable
    · obtain ⟨original, made, from_⟩ := copies set suffix mem
      obtain ⟨final', resolved', -⟩ := valid.resolveAlias (valid.known_of_member? from_)
      have stands := (valid.resolveAlias_iff (valid.known_of_member? from_)).mp resolved'
      have same := names_of_aliasAt valid made stands
      rw [resolved] at same
      cases same
      exact leads _ _ (.function rfl from_ stands)

end Importing

/-! ## Anchored imports -/

open Importing

/-- A path that starts from the root, from `self` or from `super`. -/
def UsePath.Anchored (path : UsePath) : Prop :=
  path.global = true ∨
    ∃ first ∈ path.segments.head?, first.kind = .selfModule ∨ first.kind = .super

/-- A path whose last segment is a name. -/
def UsePath.EndsInName (path : UsePath) : Prop :=
  ∃ lead last name, path.segments = lead ++ [last] ∧ last.kind = .name name

/-- Such an import looks for its last segment, in the module that the others lead to. -/
theorem Import.split_of_target? {directive : Import} {target : ImportTarget}
    (ends : directive.path.EndsInName) (hasTarget : directive.target? = some target) :
    ∃ last, directive.path.segments = target.lead ++ [last] ∧
      last.kind = .name target.last.name := by
  obtain ⟨lead, last, name, split, isName⟩ := ends
  unfold Import.target? at hasTarget
  split at hasTarget
  · cases hasTarget
  · rw [split, List.reverse_append] at hasTarget
    simp only [List.reverse_cons, List.reverse_nil, List.nil_append, List.cons_append,
      isName] at hasTarget
    cases hasTarget
    refine ⟨last, ?_, isName⟩
    rw [split, List.reverse_reverse]

theorem UsePath.Anchored.lead {path : UsePath} (anchored : path.Anchored) {lead : List Segment}
    {last : Segment} {name : String} (split : path.segments = lead ++ [last])
    (isName : last.kind = .name name) :
    path.global = true ∨ lead ≠ [] ∧ StartsWithWord lead := by
  rcases anchored with global | ⟨first, isFirst, word⟩
  · exact .inl global
  · refine .inr ?_
    rw [split] at isFirst
    cases lead with
    | nil =>
      cases isFirst
      rw [isName] at word
      simp at word
    | cons segment lead =>
      cases isFirst
      refine ⟨by simp, fun other isFirst name isName => ?_⟩
      cases isFirst
      rw [isName] at word
      simp at word

variable {n : Nat} {labels : NodeId → String → Prop} {imports : Imports n}
  {start s : ImportState n} {trail : List (Occasion n)} {o : Occasion n} {id : DefId}

/-- What it has found is in that module. -/
theorem Importing.SingleFound.bound_of_lead {target : ImportTarget} {module : ModuleId}
    {found : List (Namespace × ModuleId × Binding)} {i : Fin n}
    (h : SingleFound imports i s target module found)
    (lead : (imports.get i).path.global = true ∨ target.lead ≠ [])
    {p : Namespace × ModuleId × Binding} (isFound : p ∈ found) :
    s.tree.bindingAt? module p.1 target.last.name = some p.2.2 := by
  rw [← h.eq_of_lead lead isFound]
  exact h.there p isFound

/-- In later tables the path still leads there. -/
theorem Importing.SingleFound.arrives_later {target : ImportTarget} {module : ModuleId}
    {found : List (Namespace × ModuleId × Binding)} {i : Fin n} {s' : ImportState n}
    (h : SingleFound imports i s target module found)
    (lead : (imports.get i).path.global = true ∨ StartsWithWord target.lead)
    (inOrder : InOrder labels imports s) (later : Later labels s s') :
    Arrives imports i s' (firstPosition (imports.get i)) (firstModule (imports.get i)) target.lead
      module := by
  refine h.arrives.later (fun atStart => ?_) inOrder later
  have notGlobal : ¬ (imports.get i).path.global = true := by
    intro global
    unfold firstPosition at atStart
    rw [if_pos global] at atStart
    cases atStart
  exact lead.resolve_left notGlobal

/-- Whatever a single import makes it makes of something it has found. -/
theorem Occasion.Resolves.madeFor {target : ImportTarget} {module : ModuleId}
    {found : List (Namespace × ModuleId × Binding)}
    (h : o.Resolves imports target module found) (inOrder : InOrder labels imports o.before)
    (makes : o.Makes id) :
    ∃ p ∈ found, MadeFor o.after.defs (imports.get o.index).node id p.2.2 := by
  obtain ⟨s₁, brings, eq⟩ := h.brings
  have known := makes.2
  rw [eq] at known ⊢
  exact brings.madeFor (inOrder.prepared h.finds) makes.1 known

/-- Whatever an anchored import has made stands for what its path leads to in the end. -/
theorem Trail.standsForPath (h : Trail imports start trail s)
    (inOrder : InOrder labels imports start) (housed : Housed start.defs start.tree)
    (mem : o ∈ trail) (single : (imports.get o.index).isGlob = false)
    (anchored : (imports.get o.index).path.Anchored)
    (ends : (imports.get o.index).path.EndsInName) (makes : o.Makes id) :
    StandsForPath s (imports.get o.index).module (imports.get o.index).path id := by
  have inOrder₀ := h.inOrder_before inOrder mem
  have inOrder₁ := h.inOrder_after inOrder mem
  have later₁ := inOrder₁.path (h.after mem)
  have later := (inOrder₀.move (h.move mem)).trans later₁
  have sound := later.sound
  have known : s.tree.Known (imports.get o.index).module := (later.inOrder inOrder₀).homes o.index
  have housed : Housed s.defs s.tree :=
    housed.grows (inOrder.path h.steps).defs.modules (inOrder.path h.steps).tree
  obtain ⟨target, module, found, resolves⟩ := h.exists_resolves_of_makes mem single makes
  obtain ⟨last, split, isName⟩ := Import.split_of_target? ends resolves.hasTarget
  have lead := anchored.lead split isName
  -- what it has made of something is made of it in the end as well
  obtain ⟨p, isFound, made⟩ := resolves.madeFor inOrder₀ makes
  have made := made.later later₁ makes.2
  -- and it has been found in the module that the path leads to
  have bound :=
    later.tree_keeps.bound (resolves.finds.bound_of_lead (lead.imp_right And.left) isFound)
  have arrives := resolves.finds.arrives_later (lead.imp_right And.right) inOrder₀ later
  refine made.standsForPath sound (sound.sorted.bindings bound) ?_
  intro suffix final selects config stack path nearest sameStart words
  rw [split] at words
  obtain ⟨segments, last', split', same, sameLast⟩ := words.append
  have isName' : last'.kind = .name target.last.name := sameLast.trans isName
  have ordinary : last'.kind ≠ .super := by
    rw [isName']
    simp
  refine (arrives.searches_resolvePath sound housed known lead nearest sameStart split' same
    ordinary fun id there => ?_).ends
  exact Tables.searches_followMembers_cons sound.intact known there isName' bound selects
    (.pure rfl)

/-- Over what the first pass makes of any program, and with its imports in any order: each
    definition that a single import has made stands for what the path of the import leads to in
    the finished tables, if this path starts from the root, from `self` or from `super` and ends
    in a name. An import that fails has made none. -/
theorem anchored_imports_stand_for_their_paths {program : Program} {built : DeclareState}
    {log log' : Log} (declared : declareProgram .empty .new program log = .ok built log')
    {directives : List Directive} (reordered : directives.Perm built.directives) {lint : Bool}
    {s : ImportState directives.length} {log₀ log₁ : Log}
    (run : resolveImports built.defs built.tree lint directives log₀ = .ok s log₁)
    {i : Fin directives.length} (single : (directives.get i).isGlob = false)
    (anchored : (directives.get i).path.Anchored) (ends : (directives.get i).path.EndsInName) :
    (∃ trail, Trail (Imports.ofList directives lint) (.start _ built.defs built.tree) trail s) ∧
      ∀ trail, Trail (Imports.ofList directives lint) (.start _ built.defs built.tree) trail s →
        ∀ o ∈ trail, o.index = i → ∀ id, o.Makes id →
          StandsForPath s (directives.get i).module (directives.get i).path id := by
  obtain ⟨inOrder, goes⟩ := resolveImports_goes declared reordered run
  refine ⟨goes.steps.exists_trail, ?_⟩
  rintro trail h o mem rfl id makes
  exact h.standsForPath inOrder (declareProgram_housed declared) mem single anchored ends makes

/-- A structure and a function of one name, and an import of both from inside:

        mod a {
          mod b { pub use super::f; }
          pub struct f;
          pub func f(x); } -/
def fromInside : Program :=
  ⟨⟨0⟩, ⟨0, 9⟩,
    [.mod ⟨⟨1⟩, true, ⟨1, 1⟩⟩ ⟨"a", ⟨1, 1⟩⟩
      [.mod ⟨⟨2⟩, true, ⟨2, 1⟩⟩ ⟨"b", ⟨2, 1⟩⟩
        [.useDecl ⟨⟨3⟩, true, ⟨3, 1⟩⟩
          (.path ⟨4⟩ ⟨4, 1⟩ ⟨false, [⟨.super, ⟨4, 1⟩⟩, ⟨.name "f", ⟨4, 1⟩⟩]⟩ none)],
      .struct ⟨⟨5⟩, true, ⟨5, 1⟩⟩ ⟨"f", ⟨5, 1⟩⟩ [] [],
      .func ⟨⟨6⟩, true, ⟨6, 1⟩⟩ .func ⟨"f", ⟨6, 1⟩⟩ []
        [.mk none (.ident ⟨7⟩ ⟨"x", ⟨7, 1⟩⟩ none) none none] none none]]⟩

theorem anchored_imports_stand_for_their_paths_from_inside :
    ∃ built log', declareProgram .empty .new fromInside .empty = .ok built log' ∧
      ∃ s log₁, resolveImports built.defs built.tree true built.directives .empty = .ok s log₁ ∧
        ∃ i : Fin built.directives.length, (built.directives.get i).isGlob = false ∧
          (built.directives.get i).path.Anchored ∧ (built.directives.get i).path.EndsInName ∧
          s.statusOf i = .done none ∧
          (∃ trail, Trail (Imports.ofList built.directives true)
            (.start _ built.defs built.tree) trail s) ∧
          ∀ trail, Trail (Imports.ofList built.directives true)
              (.start _ built.defs built.tree) trail s →
            ∀ o ∈ trail, o.index = i → ∀ id, o.Makes id →
              StandsForPath s (built.directives.get i).module (built.directives.get i).path id := by
  obtain ⟨built, log', declared, s, log₁, run, rest⟩ := exists_resolved_of_check fromInside
    (fun built s => decide (∃ i ∈ List.finRange _, (built.directives.get i).isGlob = false ∧
      (built.directives.get i).path =
        ⟨false, [⟨.super, ⟨4, 1⟩⟩] ++ [⟨.name "f", ⟨4, 1⟩⟩]⟩ ∧ s.statusOf i = .done none))
    (by decide +kernel)
  obtain ⟨i, -, single, path, done⟩ := of_decide_eq_true rest
  have anchored : (built.directives.get i).path.Anchored := by
    rw [path]
    exact .inr ⟨_, rfl, .inr rfl⟩
  have ends : (built.directives.get i).path.EndsInName := by
    rw [path]
    exact ⟨_, _, "f", rfl, rfl⟩
  exact ⟨built, log', declared, s, log₁, run, i, single, anchored, ends, done,
    anchored_imports_stand_for_their_paths declared (List.Perm.refl _) run single anchored ends⟩

end NameResolution
