import NameResolution.Proofs.Declaration.Mirror
import NameResolution.Proofs.Resolution.Variables
import NameResolution.Proofs.Resolution.Segments

/-! # Searches in tables that mirror each other

    At one point of a text, a name and a path come to the same in two tables that
    mirror each other: to definitions of one node, to one variable, or to an
    error in both. Numbers of definitions, of modules and of sets differ, so each
    search is gone through once in both tables, with what belongs together. -/

namespace NameResolution

/-! ## Searches with errors -/

/-- Results that belong together, or two errors. -/
inductive Outcomes {α β : Type} (rel : α → β → Prop) :
    Except Diagnostic α → Except Diagnostic β → Prop where
  | ok {a : α} {b : β} (related : rel a b) : Outcomes rel (.ok a) (.ok b)
  | error (d d' : Diagnostic) : Outcomes rel (.error d) (.error d')

/-- Two path searches that come to results that belong together or to an error each, whatever
    there is to warn of. -/
def PathSearch.Concur {α β : Type} (rel : α → β → Prop) (m : PathSearch α) (m' : PathSearch β) :
    Prop :=
  ∀ warnings warnings', NameResolution.Concur (fun p p' => Outcomes rel p.1 p'.1)
    (m.run.run warnings) (m'.run.run warnings')

namespace PathSearch.Concur

variable {α β γ δ : Type} {rel : α → β → Prop} {m : PathSearch α} {m' : PathSearch β}

theorem pure {a : α} {b : β} (h : rel a b) : Concur rel (Pure.pure a) (Pure.pure b) :=
  fun _ _ => .ok (.ok h)

theorem throw (d d' : Diagnostic) :
    Concur rel (MonadExcept.throw d : PathSearch α) (MonadExcept.throw d') :=
  fun _ _ => .ok (.error d d')

theorem bind {rel' : γ → δ → Prop} {f : α → PathSearch γ} {f' : β → PathSearch δ}
    (h : Concur rel m m') (h' : ∀ a b, rel a b → Concur rel' (f a) (f' b)) :
    Concur rel' (m >>= f) (m' >>= f') := by
  intro warnings warnings'
  -- the warnings are a state below the errors, so they are kept when an error is thrown
  show NameResolution.Concur _ (m.run.run warnings >>= fun p => (ExceptT.bindCont f p.1).run p.2)
    (m'.run.run warnings' >>= fun p => (ExceptT.bindCont f' p.1).run p.2)
  refine (h warnings warnings').bind fun outcome outcome' both => ?_
  obtain ⟨r, warnings₁⟩ := outcome
  obtain ⟨r', warnings₁'⟩ := outcome'
  cases both with
  | ok related => exact h' _ _ related warnings₁ warnings₁'
  | error d d' => exact .ok (.error d d')

theorem lift {result : Except Fault α} {result' : Except Fault β}
    (h : NameResolution.Concur rel result result') :
    Concur rel (liftM result : PathSearch α) (liftM result') := by
  intro warnings warnings'
  cases result with
  | error fault => exact .fault
  | ok a =>
    cases result' with
    | ok b => exact .ok (.ok (h a b rfl rfl))
    | error fault => rintro _ _ - ⟨⟩

/-- Two errors that are made up in whatever way. -/
theorem throw_lift (d d' : Except Fault Diagnostic) :
    Concur rel (do MonadExcept.throw (← d) : PathSearch α) (do MonadExcept.throw (← d')) := by
  have any : Concur (fun _ _ => True) (liftM d : PathSearch Diagnostic) (liftM d') :=
    .lift fun _ _ _ _ => trivial
  exact any.bind fun d d' _ => .throw d d'

/-- Searches that never come to an error. -/
theorem of_searches {post : α → Prop} {post' : β → Prop} (h : Searches [] m post)
    (h' : Searches [] m' post') (imp : ∀ a b, post a → post' b → rel a b) : Concur rel m m' := by
  intro warnings warnings'
  refine .of_yields (h warnings) (h' warnings') ?_
  rintro ⟨r, _⟩ ⟨r', _⟩ ⟨-, holds⟩ ⟨-, holds'⟩
  cases r with
  | error d => cases holds.2
  | ok a =>
    cases r' with
    | error d => cases holds'.2
    | ok b => exact .ok (imp a b holds holds')

end PathSearch.Concur

/-- The first of some elements for which a check holds. -/
theorem Concur.findM? {α β : Type} {rel : α → β → Prop} {xs : List α} {ys : List β}
    {p : α → Except Fault Bool} {q : β → Except Fault Bool} (h : List.Forall₂ rel xs ys)
    (checks : ∀ x y, rel x y → Concur (· = ·) (p x) (q y)) :
    Concur (Option.Rel rel) (xs.findM? p) (ys.findM? q) := by
  induction h with
  | nil => exact .ok .none
  | @cons x y xs ys first _ ih =>
    rw [List.findM?, List.findM?]
    refine (checks x y first).bind fun holds holds' same => ?_
    rw [same]
    cases holds' with
    | true => exact .ok (.some first)
    | false => exact ih

/-- Sets whose members belong together have members that do picked from them. -/
theorem OverloadSet.rel_pick? {rel : DefId → DefId → Prop} {set set' : OverloadSet}
    (members : ∀ suffix, Option.Rel rel (set.get? suffix) (set'.get? suffix))
    (suffix : Option String) : Option.Rel rel (set.pick? suffix) (set'.pick? suffix) := by
  cases suffix with
  | some labels => exact members labels
  | none =>
    refine rel_of_forall (fun id only => ?_) fun id' only => ?_
    · obtain ⟨suffix, held, alone⟩ := single?_eq_some_iff.mp only
      have member := members suffix
      rw [held] at member
      obtain ⟨id', held', related⟩ := exists_right_of_rel member
      refine ⟨id', single?_eq_some_iff.mpr ⟨suffix, held', fun other there => ?_⟩, related⟩
      exact alone other (by rw [isSome_eq_of_rel (members other)]; exact there)
    · obtain ⟨suffix, held', alone⟩ := single?_eq_some_iff.mp only
      obtain ⟨id, held⟩ := Option.isSome_iff_exists.mp
        ((isSome_eq_of_rel (members suffix)).trans (by rw [held']; rfl))
      have only' : set.single? = some id := single?_eq_some_iff.mpr ⟨suffix, held,
        fun other there => alone other (by rw [← isSome_eq_of_rel (members other)]; exact there)⟩
      show (set.single?).isSome
      rw [only']
      rfl

/-! ## What belongs together -/

/-- Two resolutions that lead to the same node, each in its own table. -/
inductive Resolution.Mirrored (defs defs' : Definitions) : Resolution → Resolution → Prop where
  | definition {id id' : DefId} (twins : defs.Twins defs' id id') :
      Mirrored defs defs' (.definition id) (.definition id')
  | localVar (node : NodeId) : Mirrored defs defs' (.localVar node) (.localVar node)
  | typeRelative {base base' : DefId} (twins : defs.Twins defs' base base') (unresolved : Nat) :
      Mirrored defs defs' (.typeRelative base unresolved) (.typeRelative base' unresolved)
  | error : Mirrored defs defs' .error .error

/-- The same variable, or items that belong together. -/
inductive Found.Mirrored (defs defs' : Definitions) : Found → Found → Prop where
  | localVar (node : NodeId) : Mirrored defs defs' (.localVar node) (.localVar node)
  | item {module module' : ModuleId} {binding binding' : Binding}
      (same : defs.SameModule defs' module module')
      (mirrored : binding.Mirrored defs defs' binding') :
      Mirrored defs defs' (.item module binding) (.item module' binding')

/-- Two scopes of one region. -/
structure Scope.Mirrored (defs defs' : Definitions) (scope scope' : Scope) : Prop where
  kind : scope.kind = scope'.kind
  module : Option.Rel (defs.SameModule defs') scope.module scope'.module
  find? : ∀ ns name, scope.find? ns name = scope'.find? ns name

/-- Two modules of one owner that are alike. -/
structure Module.Twin (defs defs' : Definitions) (m m' : Module) : Prop extends
    Module.Mirrored defs defs' m m' where
  same : defs.SameModule defs' m.id m'.id

namespace Tables

variable {tables tables' : Tables}

/-- What a binding stands for. -/
theorem rel_finalDefinition? {binding binding' : Binding}
    (mirrored : binding.Mirrored tables.defs tables'.defs binding') :
    Option.Rel (tables.defs.Twins tables'.defs) (tables.finalDefinition? binding)
      (tables'.finalDefinition? binding') := by
  cases mirrored with
  | definition twins => exact .some twins
  | overloads _ => exact .none

theorem concur_overloadSet {set set' : OverloadId}
    (members : ∀ suffix, Option.Rel (tables.defs.Twins tables'.defs)
      (tables.defs.member? set suffix) (tables'.defs.member? set' suffix)) :
    Concur (fun held held' => ∀ suffix, Option.Rel (tables.defs.Twins tables'.defs)
      (held.get? suffix) (held'.get? suffix)) (tables.defs.overloadSet set)
      (tables'.defs.overloadSet set') := by
  intro held held' got got' suffix
  have both := members suffix
  rw [Definitions.member?, Definitions.member?, Definitions.getElem?_of_overloadSet got,
    Definitions.getElem?_of_overloadSet got'] at both
  exact both

theorem concur_selectMember {binding binding' : Binding}
    (mirrored : binding.Mirrored tables.defs tables'.defs binding') (ident : Ident)
    (suffix : Option String) : PathSearch.Concur (tables.defs.Twins tables'.defs)
      (tables.selectMember binding ident suffix) (tables'.selectMember binding' ident suffix) := by
  cases mirrored with
  | definition twins => exact .pure twins
  | overloads members =>
    unfold selectMember
    dsimp only
    refine .bind (.lift (concur_overloadSet members)) fun set set' members => ?_
    have picked := OverloadSet.rel_pick? members suffix
    cases suffix with
    | some labels =>
      dsimp only [OverloadSet.pick?] at picked ⊢
      generalize set.get? labels = member at picked
      generalize set'.get? labels = member' at picked
      cases picked with
      | some twins => exact .pure twins
      | none => exact .throw _ _
    | none =>
      dsimp only [OverloadSet.pick?] at picked ⊢
      generalize set.single? = member at picked
      generalize set'.single? = member' at picked
      cases picked with
      | some twins => exact .pure twins
      | none => exact .throw _ _

/-- Without aliases there is nothing to follow. -/
theorem followAlias_eq (plain : tables.defs.Plain) (id : DefId) (ident : Ident) :
    tables.followAlias id ident = pure id := by
  rw [followAlias, plain.resolveAlias]

variable (mirror : Mirror tables.defs tables.tree tables'.defs tables'.tree)

include mirror

/-! ## What regions say -/

theorem rel_itemIn (ns : Namespace) (name : String) (region : Region) :
    Option.Rel (fun item item' => tables.defs.SameModule tables'.defs item.1 item'.1 ∧
        item.2.Mirrored tables.defs tables'.defs item'.2)
      (tables.itemIn ns name region) (tables'.itemIn ns name region) :=
  rel_bind (mirror.moduleOf region.owner) fun _ _ same =>
    rel_map (mirror.bindingAt? same ns name) fun _ _ mirrored => ⟨same, mirrored⟩

theorem rel_nearestItem (ns : Namespace) (name : String) (around : Regions) :
    Option.Rel (fun item item' => tables.defs.SameModule tables'.defs item.1 item'.1 ∧
        item.2.Mirrored tables.defs tables'.defs item'.2)
      (tables.nearestItem ns name around) (tables'.nearestItem ns name around) := by
  induction around with
  | nil => exact .none
  | cons region around ih =>
    have here := rel_itemIn mirror ns name region
    rw [nearestItem, nearestItem]
    generalize tables.itemIn ns name region = item at here
    generalize tables'.itemIn ns name region = item' at here
    cases here with
    | none => exact ih
    | some both => exact .some both

/-- Definitions of one node are variants, or neither is. -/
theorem isVariant_eq_of_twins {id id' : DefId} (twins : tables.defs.Twins tables'.defs id id') :
    (tables.defs.find? id).any (·.kind == .variant) =
      (tables'.defs.find? id').any (·.kind == .variant) := by
  obtain ⟨d, d', found, found', same⟩ := twins
  rw [found, found', Option.any_some, Option.any_some, mirror.kind found found' same]

theorem rel_variant? {binding binding' : Binding}
    (mirrored : binding.Mirrored tables.defs tables'.defs binding') :
    Option.Rel (tables.defs.Twins tables'.defs) (tables.variant? binding)
      (tables'.variant? binding') := by
  have final := rel_finalDefinition? mirrored
  rw [variant?, variant?]
  generalize tables.finalDefinition? binding = id at final
  generalize tables'.finalDefinition? binding' = id' at final
  cases final with
  | none => exact .none
  | some twins =>
    rw [Option.filter_some, Option.filter_some, isVariant_eq_of_twins mirror twins]
    split
    · exact .some twins
    · exact .none

theorem rel_variantInReach (name : String) (around : Regions) :
    Option.Rel (tables.defs.Twins tables'.defs) (tables.variantInReach name around)
      (tables'.variantInReach name around) :=
  rel_bind (rel_nearestItem mirror .type name around) fun _ _ both => rel_variant? mirror both.2

/-- The same names stand for variants, so the same names are bound. -/
theorem variableIn_eq (name : String) (region : Region) (around : Regions) :
    tables.variableIn name region around = tables'.variableIn name region around := by
  rw [variableIn, variableIn,
    isSome_eq_of_rel (rel_variantInReach mirror name (region :: around))]

theorem rel_selfAt (around : Regions) :
    Option.Rel (tables.defs.Twins tables'.defs) (tables.selfAt around) (tables'.selfAt around) := by
  induction around with
  | nil => exact .none
  | cons region around ih =>
    obtain ⟨kind, owner, binders⟩ := region
    by_cases isItem : ∃ node, kind = .item ∧ owner = .item node
    · obtain ⟨node, rfl, rfl⟩ := isItem
      have ofNode := mirror.ofNode? node
      rw [selfAt, selfAt]
      generalize tables.defs.ofNode? node = id at ofNode
      generalize tables'.defs.ofNode? node = id' at ofNode
      cases ofNode with
      | none => exact ih
      | some twins =>
        obtain ⟨d, d', found, found', same⟩ := twins
        rw [Option.bind_some, Option.bind_some, found, found']
        dsimp only
        rw [Resolving.selfInside, Resolving.selfInside, mirror.kind found found' same,
          mirror.intact.validDefs.ids found, mirror.intact'.validDefs.ids found']
        split
        · exact .some ⟨d, d', found, found', same⟩
        · split
          · exact .none
          · exact ih
    · have outer (tables : Tables) :
          tables.selfAt (⟨kind, owner, binders⟩ :: around) = tables.selfAt around := by
        cases kind with
        | item =>
          cases owner with
          | item node => exact absurd ⟨node, rfl, rfl⟩ isItem
          | none | block => rfl
        | root | func | lambda | block | loop | matchArm | const => rfl
      rw [outer, outer]
      exact ih

/-! ## Scopes of the same regions -/

theorem mirrored_of_agrees {scope scope' : Scope} {region : Region} {around : Regions}
    (agrees : Agrees tables scope region around) (agrees' : Agrees tables' scope' region around) :
    scope.Mirrored tables.defs tables'.defs scope' where
  kind := agrees.kind.trans agrees'.kind.symm
  module := by
    rw [agrees.module, agrees'.module]
    exact mirror.moduleOf region.owner
  find? ns name := by
    by_cases value : ns = .value
    · rw [value, agrees.locals, agrees'.locals, variableIn_eq mirror]
    · rw [agrees.others ns name value, agrees'.others ns name value]

theorem forall₂_mirrored {scopes scopes' : List Scope} {around : Regions}
    (matching : Matches tables scopes around) (matching' : Matches tables' scopes' around) :
    List.Forall₂ (Scope.Mirrored tables.defs tables'.defs) scopes scopes' := by
  induction matching generalizing scopes' with
  | nil =>
    cases matching'
    exact .nil
  | cons first _ ih =>
    cases matching' with
    | cons first' rest' => exact .cons (mirrored_of_agrees mirror first first') (ih rest')

section

variable {stack stack' : ScopeStack} {around : Regions} (stands : Stands tables stack around)
  (stands' : Stands tables' stack' around)

include stands stands'

theorem same_nearestModule :
    tables.defs.SameModule tables'.defs stack.nearestModule stack'.nearestModule := by
  have mirrored := forall₂_mirrored mirror stands.matching stands'.matching
  have first : Option.Rel (tables.defs.SameModule tables'.defs)
      (stack.toList.findSome? (·.module)) (stack'.toList.findSome? (·.module)) := by
    generalize stack.toList = scopes at mirrored
    generalize stack'.toList = scopes' at mirrored
    induction mirrored with
    | nil => exact .none
    | @cons scope scope' _ _ here _ ih =>
      have module := here.module
      rw [List.findSome?_cons, List.findSome?_cons]
      generalize scope.module = module₁ at module
      generalize scope'.module = module₂ at module
      cases module with
      | none => exact ih
      | some same => exact .some same
  rw [ScopeStack.nearestModule, ScopeStack.nearestModule]
  generalize stack.toList.findSome? (·.module) = module at first
  generalize stack'.toList.findSome? (·.module) = module' at first
  cases first with
  | none => exact mirror.rootModule
  | some same => exact same

theorem rel_innermost_selfItem : Option.Rel (tables.defs.Twins tables'.defs)
    stack.innermost.selfItem stack'.innermost.selfItem := by
  rw [stands.innermost_selfItem, stands'.innermost_selfItem]
  exact rel_selfAt mirror around

end

/-! ## Names -/

theorem concur_get {id id' : ModuleId} (same : tables.defs.SameModule tables'.defs id id') :
    Concur (Module.Twin tables.defs tables'.defs) (tables.tree.get id) (tables'.tree.get id') := by
  obtain ⟨m, m', found, found', mirrored⟩ := mirror.modules same
  rw [ModuleTree.get_of_find? found, ModuleTree.get_of_find? found']
  refine .ok ⟨mirrored, ?_⟩
  rw [mirror.intact.validTree.ids found, mirror.intact'.validTree.ids found']
  exact same

theorem concur_definition {id id' : DefId} (twins : tables.defs.Twins tables'.defs id id') :
    Concur (fun d d' => d.kind = d'.kind) (tables.defs.get id) (tables'.defs.get id') := by
  obtain ⟨d, d', found, found', same⟩ := twins
  rw [Definitions.get_of_find? found, Definitions.get_of_find? found']
  exact .ok (mirror.kind found found' same)

theorem concur_itemOf (ns : Namespace) (name : String) {module module' : Option ModuleId}
    (same : Option.Rel (tables.defs.SameModule tables'.defs) module module') :
    Concur (Option.Rel (Found.Mirrored tables.defs tables'.defs)) (tables.itemOf ns name module)
      (tables'.itemOf ns name module') := by
  cases same with
  | none => exact .ok .none
  | some same =>
    exact (concur_get mirror same).bind fun m m' twin =>
      .ok (rel_map (twin.names ns name) fun _ _ mirrored => .item same mirrored)

theorem concur_searchScopes (ns : Namespace) (name : String) {scopes scopes' : List Scope}
    (mirrored : List.Forall₂ (Scope.Mirrored tables.defs tables'.defs) scopes scopes')
    (hidden : Bool) :
    Concur (Option.Rel (Found.Mirrored tables.defs tables'.defs))
      (tables.searchScopes ns name hidden scopes)
      (tables'.searchScopes ns name hidden scopes') := by
  induction mirrored generalizing hidden with
  | nil => exact .ok .none
  | @cons scope scope' scopes scopes' first _ ih =>
    rw [searchScopes_cons, searchScopes_cons, first.find?]
    split
    · exact .ok (.some (.localVar _))
    · refine (concur_itemOf mirror ns name first.module).bind fun found found' both => ?_
      cases both with
      | some mirrored => exact .ok (.some mirrored)
      | none =>
        rw [first.kind]
        exact ih _

section

variable {stack stack' : ScopeStack} {around : Regions} (stands : Stands tables stack around)
  (stands' : Stands tables' stack' around)

include stands stands'

theorem concur_lookup (ns : Namespace) (name : String) :
    Concur (Option.Rel (Found.Mirrored tables.defs tables'.defs)) (tables.lookup stack ns name)
      (tables'.lookup stack' ns name) := by
  have mirrored := forall₂_mirrored mirror stands.matching stands'.matching
  rw [lookup, lookup]
  refine (concur_searchScopes mirror ns name mirrored false).bind fun found found' both => ?_
  cases both with
  | some mirrored => exact .ok (.some mirrored)
  | none =>
    -- all modules around have been searched with the scopes
    refine .of_yields (stands.searchModules mirror.intact.validTree ns name)
      (stands'.searchModules mirror.intact'.validTree ns name) ?_
    rintro _ _ rfl rfl
    exact .none

end

theorem concur_isVariant {binding binding' : Binding}
    (mirrored : binding.Mirrored tables.defs tables'.defs binding') :
    Concur (· = ·) (tables.isVariant binding) (tables'.isVariant binding') := by
  have final := rel_finalDefinition? mirrored
  rw [isVariant, isVariant]
  generalize tables.finalDefinition? binding = id at final
  generalize tables'.finalDefinition? binding' = id' at final
  cases final with
  | none => exact .ok rfl
  | some twins =>
    exact (concur_definition mirror twins).bind fun d d' same => .ok (by rw [same])

theorem concur_variantNamed {stack stack' : ScopeStack} {around : Regions}
    (stands : Stands tables stack around) (stands' : Stands tables' stack' around)
    (name : String) : Concur (Option.Rel (tables.defs.Twins tables'.defs))
      (tables.variantNamed stack name) (tables'.variantNamed stack' name) := by
  rw [variantNamed, variantNamed]
  refine (concur_lookup mirror stands stands' .type name).bind fun found found' both => ?_
  cases both with
  | none => exact .ok .none
  | some mirrored =>
    cases mirrored with
    | localVar node => exact .ok .none
    | item _ mirrored =>
      refine (concur_isVariant mirror mirrored).bind fun isVariant isVariant' same => ?_
      rw [same]
      cases isVariant' with
      | true => exact .ok (rel_finalDefinition? mirrored)
      | false => exact .ok .none

theorem concur_findMember {module module' : ModuleId}
    (same : tables.defs.SameModule tables'.defs module module') (ns : Namespace) (name : String) :
    Concur (Option.Rel (Binding.Mirrored tables.defs tables'.defs))
      (tables.findMember module ns name) (tables'.findMember module' ns name) := by
  rw [findMember, findMember]
  refine (concur_get mirror same).bind fun m m' twin => ?_
  have here := twin.names ns name
  generalize m.find? ns name = binding at here
  generalize m'.find? ns name = binding' at here
  cases here with
  | some mirrored => exact .ok (.some mirrored)
  | none =>
    have type := twin.names .type name
    generalize m.find? .type name = binding at type
    generalize m'.find? .type name = binding' at type
    cases type with
    | none => exact .ok .none
    | some mirrored =>
      refine (concur_isVariant mirror mirrored).bind fun isVariant isVariant' same => ?_
      rw [same]
      split
      · exact .ok (.some mirrored)
      · exact .ok .none

/-! ## Members -/

theorem concur_checkPrivacy {origin origin' module module' : ModuleId}
    (outside : tables.defs.SameModule tables'.defs origin origin')
    (inside : tables.defs.SameModule tables'.defs module module') {id id' : DefId}
    (twins : tables.defs.Twins tables'.defs id id') (ident : Ident) :
    PathSearch.Concur (fun _ _ => True) (tables.checkPrivacy origin module id ident)
      (tables'.checkPrivacy origin' module' id' ident) := by
  obtain ⟨_, _, found, found', -⟩ := mirror.modules outside
  obtain ⟨_, _, found₁, found₁', -⟩ := mirror.modules inside
  obtain ⟨_, _, made, made', -⟩ := twins
  -- there may be something to warn of, but no error
  exact .of_searches
    (searches_checkPrivacy mirror.intact (ModuleTree.known_of_find? found)
      (ModuleTree.known_of_find? found₁) (Definitions.known_of_find? made) ident)
    (searches_checkPrivacy mirror.intact' (ModuleTree.known_of_find? found')
      (ModuleTree.known_of_find? found₁') (Definitions.known_of_find? made') ident)
    fun _ _ _ _ => trivial

theorem concur_followMembers {origin origin' : ModuleId}
    (outside : tables.defs.SameModule tables'.defs origin origin') (ns : Namespace)
    (suffix : Option String) (segments : List Segment) {id id' : DefId}
    (twins : tables.defs.Twins tables'.defs id id') :
    PathSearch.Concur (Resolution.Mirrored tables.defs tables'.defs)
      (tables.followMembers origin ns suffix id segments)
      (tables'.followMembers origin' ns suffix id' segments) := by
  induction segments generalizing id id' with
  | nil => exact .pure (.definition twins)
  | cons segment rest ih =>
    unfold followMembers
    cases segment.ident? with
    | none => exact .throw _ _
    | some ident =>
      dsimp only
      refine .bind (.lift (concur_definition mirror twins)) fun d d' kind => ?_
      have home := mirror.module? twins
      generalize tables.defs.module? id = module at home
      generalize tables'.defs.module? id' = module' at home
      cases home with
      | none =>
        simp only [pure_bind, kind]
        split
        · exact .pure (.typeRelative twins _)
        · exact .throw _ _
      | some inside =>
        refine .bind (.lift (concur_findMember mirror inside _ ident.name)) fun _ _ found => ?_
        cases found with
        | none =>
          simp only [kind]
          split
          · exact .pure (.typeRelative twins _)
          · exact .throw_lift _ _
        | some mirrored =>
          refine .bind (concur_selectMember mirrored ident _) fun member member' twins => ?_
          refine .bind (concur_checkPrivacy mirror outside inside twins ident) fun _ _ _ => ?_
          rw [followAlias_eq mirror.plain, followAlias_eq mirror.plain', pure_bind, pure_bind]
          exact ih twins

/-! ## Modules around -/

theorem concur_modDefinition {module module' : ModuleId}
    (same : tables.defs.SameModule tables'.defs module module') :
    Concur (tables.defs.Twins tables'.defs) (tables.modDefinition module)
      (tables'.modDefinition module') := by
  rw [modDefinition, modDefinition]
  refine (concur_get mirror same).bind fun m m' twin => ?_
  have owner := twin.owner
  generalize m.owner = owner₁ at owner
  generalize m'.owner = owner₂ at owner
  cases owner with
  | definition twins => exact .ok twins
  | block node => exact .fault

theorem forall₂_outward (steps : Nat) {m m' : Module}
    (twin : m.Twin tables.defs tables'.defs m') :
    List.Forall₂ (Module.Twin tables.defs tables'.defs) (tables.tree.outward steps m)
      (tables'.tree.outward steps m') := by
  induction steps generalizing m m' with
  | zero => exact .cons twin .nil
  | succ steps ih =>
    have parent := twin.parent
    rw [ModuleTree.outward, ModuleTree.outward]
    generalize m.parent = id at parent
    generalize m'.parent = id' at parent
    refine .cons twin ?_
    cases parent with
    | none => exact .nil
    | some same =>
      obtain ⟨p, p', found, found', mirrored⟩ := mirror.modules same
      rw [Option.bind_some, Option.bind_some, found, found']
      refine ih ⟨mirrored, ?_⟩
      rw [mirror.intact.validTree.ids found, mirror.intact'.validTree.ids found']
      exact same

theorem concur_isMod {m m' : Module} (twin : m.Twin tables.defs tables'.defs m') :
    Concur (· = ·) (ModuleTree.isMod tables.defs m) (ModuleTree.isMod tables'.defs m') := by
  have owner := twin.owner
  rw [ModuleTree.isMod, ModuleTree.isMod]
  generalize m.owner = owner₁ at owner
  generalize m'.owner = owner₂ at owner
  cases owner with
  | definition twins =>
    exact (concur_definition mirror twins).bind fun d d' same => .ok (by rw [same])
  | block node => exact .ok rfl

theorem concur_enclosingMod {id id' : ModuleId}
    (same : tables.defs.SameModule tables'.defs id id') :
    Concur (tables.defs.SameModule tables'.defs) (tables.tree.enclosingMod tables.defs id)
      (tables'.tree.enclosingMod tables'.defs id') := by
  have around : Concur (List.Forall₂ (Module.Twin tables.defs tables'.defs))
      (tables.tree.ancestors id) (tables'.tree.ancestors id') := by
    refine (concur_get mirror same).bind fun m m' twin => .ok ?_
    rw [mirror.size]
    exact forall₂_outward mirror _ twin
  rw [ModuleTree.enclosingMod, ModuleTree.enclosingMod]
  refine around.bind fun ms ms' twins => ?_
  refine (Concur.findM? twins fun m m' => concur_isMod mirror).bind fun m m' found => ?_
  cases found with
  | none => exact .ok mirror.rootModule
  | some twin => exact .ok twin.same

theorem concur_climb (segments : List Segment) {module module' : ModuleId}
    (same : tables.defs.SameModule tables'.defs module module') :
    PathSearch.Concur (fun p p' => tables.defs.Twins tables'.defs p.1 p'.1 ∧ p.2 = p'.2)
      (tables.climb module segments) (tables'.climb module' segments) := by
  induction segments generalizing module module' with
  | nil =>
    refine .bind (.lift (concur_modDefinition mirror same)) fun id id' twins => ?_
    exact .pure ⟨twins, rfl⟩
  | cons segment rest ih =>
    unfold climb
    split
    · refine .bind (.lift (concur_get mirror same)) fun m m' twin => ?_
      have parent := twin.parent
      generalize m.parent = id at parent
      generalize m'.parent = id' at parent
      cases parent with
      | none => exact .throw _ _
      | some same => exact .bind (.lift (concur_enclosingMod mirror same)) fun _ _ => ih
    · refine .bind (.lift (concur_modDefinition mirror same)) fun id id' twins => ?_
      exact .pure ⟨twins, rfl⟩

/-! ## Paths -/

section

variable {stack stack' : ScopeStack} {around : Regions} (stands : Stands tables stack around)
  (stands' : Stands tables' stack' around)

include stands stands'

theorem concur_resolveFirst (ns : Namespace) (suffix : Option String) (first : Segment)
    (rest : List Segment) :
    PathSearch.Concur (Sum.LiftRel (Resolution.Mirrored tables.defs tables'.defs)
        fun p p' => tables.defs.Twins tables'.defs p.1 p'.1 ∧ p.2 = p'.2)
      (tables.resolveFirst stack ns suffix first rest)
      (tables'.resolveFirst stack' ns suffix first rest) := by
  have nearest := same_nearestModule mirror stands stands'
  unfold resolveFirst
  cases first.kind with
  | selfType =>
    have item := rel_innermost_selfItem mirror stands stands'
    dsimp only
    generalize stack.innermost.selfItem = id at item
    generalize stack'.innermost.selfItem = id' at item
    cases item with
    | some twins => exact .pure (.inr ⟨twins, rfl⟩)
    | none => exact .throw _ _
  | selfModule =>
    refine .bind (.lift (concur_enclosingMod mirror nearest)) fun module module' same => ?_
    refine .bind (.lift (concur_modDefinition mirror same)) fun id id' twins => ?_
    exact .pure (.inr ⟨twins, rfl⟩)
  | super =>
    refine .bind (.lift (concur_enclosingMod mirror nearest)) fun module module' same => ?_
    refine .bind (concur_climb mirror (first :: rest) same) fun p p' both => ?_
    exact .pure (.inr both)
  | name name =>
    dsimp only
    refine .bind (.lift (concur_lookup mirror stands stands' _ name)) fun found found' both => ?_
    cases both with
    | some mirrored =>
      cases mirrored with
      | localVar node => exact .pure (.inl (.localVar node))
      | item same mirrored =>
        refine .bind (concur_selectMember mirrored _ _) fun member member' twins => ?_
        rw [followAlias_eq mirror.plain, followAlias_eq mirror.plain', pure_bind, pure_bind]
        exact .pure (.inr ⟨twins, rfl⟩)
    | none =>
      dsimp only
      split
      · refine .bind (.lift (concur_variantNamed mirror stands stands' name))
          fun variant variant' both => ?_
        cases both with
        | some twins => exact .pure (.inl (.definition twins))
        | none => exact .throw_lift _ _
      · exact .throw_lift _ _

/-- At one point of a text a path comes to the same in both tables. -/
theorem concur_resolvePath (ns : Namespace) (path : Path) (suffix : Option String) :
    PathSearch.Concur (Resolution.Mirrored tables.defs tables'.defs)
      (tables.resolvePath stack ns path suffix) (tables'.resolvePath stack' ns path suffix) := by
  have nearest := same_nearestModule mirror stands stands'
  unfold resolvePath
  cases path.segments with
  | nil => exact fun _ _ => .fault
  | cons first rest =>
    dsimp only
    split
    · exact concur_followMembers mirror nearest ns suffix (first :: rest) mirror.root
    · refine .bind (concur_resolveFirst mirror stands stands' ns suffix first rest)
        fun start start' both => ?_
      cases both with
      | inl mirrored => exact .pure mirrored
      | @inr p p' both =>
        obtain ⟨id, left⟩ := p
        obtain ⟨id', left'⟩ := p'
        obtain ⟨twins, rfl⟩ := both
        exact concur_followMembers mirror nearest ns suffix left twins

/-- A generic argument names a value in both tables, or in neither. -/
theorem concur_isValueArg (path : Path) :
    Concur (· = ·) (Resolving.isValueArg tables stack path)
      (Resolving.isValueArg tables' stack' path) := by
  unfold Resolving.isValueArg
  cases path.loneIdent? with
  | none => exact .ok rfl
  | some ident =>
    dsimp only
    refine (concur_lookup mirror stands stands' .type ident.name).bind fun found found' both => ?_
    rw [isSome_eq_of_rel both]
    split
    · exact .ok rfl
    · refine .bind (concur_lookup mirror stands stands' .value ident.name) fun _ _ both => ?_
      cases both with
      | none => exact .ok rfl
      | some mirrored => cases mirrored <;> exact .ok rfl

end

end Tables

end NameResolution
