import NameResolution.Proofs.Agreement
import NameResolution.Proofs.Import.Advice
import NameResolution.Proofs.Resolution.Paths

/-! # Paths under two configurations

    The configuration is asked in the midst of every search for a path. Two
    searches over the same tables come to the same definition, or to the same
    error but for its advice, whatever it says. -/

namespace NameResolution

/-- The same tables under another configuration. -/
def Tables.withConfig (tables : Tables) (config : Config) : Tables := { tables with config }

/-! ## Two path searches -/

/-- The outcomes of path searches that differ in advice and warnings at most. -/
def SearchOutcome.Alike {α : Type} (rel : α → α → Prop) :
    Except Diagnostic α × List Diagnostic → Except Diagnostic α × List Diagnostic → Prop
  | (.ok a, warnings), (.ok a', warnings') =>
    rel a a' ∧ bareErrors warnings = bareErrors warnings'
  | (.error d, warnings), (.error d', warnings') =>
    bareErrors [d] = bareErrors [d'] ∧ bareErrors warnings = bareErrors warnings'
  | _, _ => False

/-- Two path searches that come to the same fault, or to such outcomes, one with the results of
    the other as far as `rel` says. -/
def PathSearch.Alike {α : Type} (rel : α → α → Prop) (m m' : PathSearch α) : Prop :=
  ∀ warnings warnings', bareErrors warnings = bareErrors warnings' →
    Agree (SearchOutcome.Alike rel) (m.run.run warnings) (m'.run.run warnings')

namespace PathSearch.Alike

variable {α β : Type} {rel : α → α → Prop} {m m' : PathSearch α}

theorem pure {a a' : α} (h : rel a a') : Alike rel (Pure.pure a) (Pure.pure a') :=
  fun _ _ same => .ok ⟨h, same⟩

theorem throw {d d' : Diagnostic} (h : bareErrors [d] = bareErrors [d']) :
    Alike rel (MonadExcept.throw d : PathSearch α) (MonadExcept.throw d') :=
  fun _ _ same => .ok ⟨h, same⟩

theorem bind {rel' : β → β → Prop} {f f' : α → PathSearch β} (h : Alike rel m m')
    (h' : ∀ a a', rel a a' → Alike rel' (f a) (f' a')) : Alike rel' (m >>= f) (m' >>= f') := by
  intro warnings warnings' same
  -- the warnings are a state below the errors, so they are kept when an error is thrown
  show Agree _ (m.run.run warnings >>= fun p => (ExceptT.bindCont f p.1).run p.2)
    (m'.run.run warnings' >>= fun p => (ExceptT.bindCont f' p.1).run p.2)
  refine (h warnings warnings' same).bind fun outcome outcome' alike => ?_
  obtain ⟨r, warnings₁⟩ := outcome
  obtain ⟨r', warnings₁'⟩ := outcome'
  cases r with
  | ok a =>
    cases r' with
    | ok a' => exact h' a a' alike.1 warnings₁ warnings₁' alike.2
    | error d' => exact alike.elim
  | error d =>
    cases r' with
    | ok a' => exact alike.elim
    | error d' => exact .ok alike

theorem lift {result result' : Except Fault α} (h : Agree rel result result') :
    Alike rel (liftM result : PathSearch α) (liftM result') := by
  intro warnings warnings' same
  cases h with
  | ok related => exact .ok ⟨related, same⟩
  | fault fault => exact .fault fault

/-- Searches that go through and only warn. -/
theorem of_warnings {m m' : PathSearch PUnit} (h : Searches [] m fun _ => True)
    (h' : Searches [] m' fun _ => True) : Alike (fun _ _ => True) m m' := by
  have warned {m : PathSearch PUnit} (h : Searches [] m fun _ => True)
      (warnings : List Diagnostic) : Yields False (m.run.run warnings) fun r =>
        r.1 = .ok ⟨⟩ ∧ bareErrors r.2 = bareErrors warnings := by
    refine (h warnings).mono fun outcome ended => ?_
    obtain ⟨r, warnings₁⟩ := outcome
    obtain ⟨⟨more, eq, all⟩, ended⟩ := ended
    have none : bareErrors more = [] := by simpa [bareErrors, Diagnostic.isError] using all
    cases r with
    | ok => exact ⟨rfl, by rw [show warnings₁ = warnings ++ more from eq]; simp [none]⟩
    | error d => exact absurd ended.2 List.not_mem_nil
  intro warnings warnings' same
  refine .of_yields_false (warned h warnings) (warned h' warnings') ?_
  rintro ⟨_, _⟩ ⟨_, _⟩ ⟨rfl, eq⟩ ⟨rfl, eq'⟩
  exact ⟨trivial, eq.trans (same.trans eq'.symm)⟩

end PathSearch.Alike

/-! ## What the configuration is not asked for -/

namespace Tables

variable {tables : Tables} {config : Config}

@[simp] theorem searchScopes_withConfig (ns : Namespace) (name : String) (hidden : Bool)
    (scopes : List Scope) : (tables.withConfig config).searchScopes ns name hidden scopes =
      tables.searchScopes ns name hidden scopes := by
  induction scopes generalizing hidden with
  | nil => rfl
  | cons scope scopes ih =>
    simp only [searchScopes, ih]
    rfl

@[simp] theorem lookup_withConfig (stack : ScopeStack) (ns : Namespace) (name : String) :
    (tables.withConfig config).lookup stack ns name = tables.lookup stack ns name := by
  simp only [lookup, searchScopes_withConfig]
  rfl

@[simp] theorem variantNamed_withConfig (stack : ScopeStack) (name : String) :
    (tables.withConfig config).variantNamed stack name = tables.variantNamed stack name := by
  simp only [variantNamed, lookup_withConfig]
  rfl

/-! ## Single names -/

/-- A name is bound to something that is there, whatever the scopes around are. -/
theorem good_of_lookup (intact : Intact tables.defs tables.tree) (stack : ScopeStack)
    (ns : Namespace) (name : String) : Yields True (tables.lookup stack ns name) fun found =>
      ∀ module binding, found = some (.item module binding) → binding.Good tables.defs ns :=
  (bound_of_lookup intact.validTree).mono fun _ bound module binding eq =>
    intact.bindings (bound module binding eq)

theorem agree_unresolvedMember (module : ModuleId) (ident : Ident) (ns : Namespace) :
    Agree (fun d d' => bareErrors [d] = bareErrors [d']) (tables.unresolvedMember module ident ns)
      ((tables.withConfig config).unresolvedMember module ident ns) := by
  refine .bind (.refl _) fun m m' same => ?_
  subst same
  refine .bind (.refl _) fun found found' same => ?_
  subst same
  exact .ok rfl

theorem agree_unresolvedLexical (stack : ScopeStack) (ident : Ident) (ns : Namespace) :
    Agree (fun d d' => bareErrors [d] = bareErrors [d']) (tables.unresolvedLexical stack ident ns)
      ((tables.withConfig config).unresolvedLexical stack ident ns) := by
  simp only [unresolvedLexical, lookup_withConfig]
  refine .bind (.refl _) fun found found' same => ?_
  subst same
  exact .ok rfl

/-! ## Members -/

variable (intact : Intact tables.defs tables.tree)

include intact

theorem alike_selectMember {ns : Namespace} {binding : Binding}
    (good : binding.Good tables.defs ns) (ident : Ident) (suffix : Option String) :
    PathSearch.Alike (fun id id' => id = id' ∧ tables.defs.Known id)
      (tables.selectMember binding ident suffix)
      ((tables.withConfig config).selectMember binding ident suffix) := by
  cases binding with
  | definition id | imported id => exact .pure ⟨rfl, good⟩
  | overloads id =>
    refine .bind (.lift (.of_yields good.1.overloadSet)) ?_
    rintro set _ ⟨rfl, held, -⟩
    cases suffix with
    | some suffix =>
      dsimp only
      split
      · next member found => exact .pure ⟨rfl, intact.validDefs.members held found⟩
      · exact .throw rfl
    | none =>
      dsimp only
      split
      · next member found =>
        obtain ⟨suffix, found⟩ := OverloadSet.get?_of_single? found
        exact .pure ⟨rfl, intact.validDefs.members held found⟩
      · exact .throw rfl

theorem alike_followAlias {id : DefId} (known : tables.defs.Known id) (ident : Ident) :
    PathSearch.Alike (fun id id' => id = id' ∧ tables.defs.Known id)
      (tables.followAlias id ident) ((tables.withConfig config).followAlias id ident) := by
  obtain ⟨final, resolved, known⟩ := intact.validDefs.resolveAlias known
  show PathSearch.Alike _ (tables.followAlias id ident) (tables.followAlias id ident)
  rw [followAlias, resolved]
  exact .pure ⟨rfl, known⟩

/-- Whether there is a warning is all that depends on the configuration here. -/
theorem alike_checkPrivacy {origin owner : ModuleId} (known : tables.tree.Known origin)
    (known' : tables.tree.Known owner) {member : DefId} (known'' : tables.defs.Known member)
    (ident : Ident) : PathSearch.Alike (fun _ _ => True)
      (tables.checkPrivacy origin owner member ident)
      ((tables.withConfig config).checkPrivacy origin owner member ident) :=
  have intact' : Intact (tables.withConfig config).defs (tables.withConfig config).tree := intact
  .of_warnings (searches_checkPrivacy intact known known' known'' ident)
    (searches_checkPrivacy intact' known known' known'' ident)

theorem alike_followMembers {origin : ModuleId} (known : tables.tree.Known origin)
    (ns : Namespace) (suffix : Option String) {id : DefId} (id_known : tables.defs.Known id)
    (segments : List Segment) : PathSearch.Alike (· = ·)
      (tables.followMembers origin ns suffix id segments)
      ((tables.withConfig config).followMembers origin ns suffix id segments) := by
  induction segments generalizing id with
  | nil =>
    unfold followMembers
    exact .pure rfl
  | cons segment rest ih =>
    unfold followMembers
    split
    · exact .throw rfl
    · next ident isName =>
      refine .bind (.lift (.refl _)) ?_
      rintro definition _ rfl
      dsimp only
      cases home : tables.defs.module? id with
      | none =>
        -- an item without a module has no members to look among
        have home' : (tables.withConfig config).defs.module? id = none := home
        rw [home']
        dsimp only
        split
        · exact .pure rfl
        · exact .throw rfl
      | some module =>
        have home' : (tables.withConfig config).defs.module? id = some module := home
        have there := intact.modules home
        rw [home']
        refine .bind (.lift (.of_yields (yields_findMember intact there _ ident.name))) ?_
        rintro found _ ⟨rfl, good⟩
        cases found with
        | none =>
          dsimp only
          split
          · exact .pure rfl
          · exact .bind (.lift (agree_unresolvedMember module ident _)) fun _ _ same => .throw same
        | some binding =>
          -- the member is selected, checked, and followed to what it stands for
          obtain ⟨ns', good⟩ := good binding rfl
          refine .bind (alike_selectMember intact good ident _) ?_
          rintro member _ ⟨rfl, member_known⟩
          refine .bind (alike_checkPrivacy intact known there member_known ident) fun _ _ _ => ?_
          refine .bind (alike_followAlias intact member_known ident) ?_
          rintro final _ ⟨rfl, final_known⟩
          exact ih final_known

/-! ## The start of a path -/

theorem known_of_modDefinition (module : ModuleId) :
    Yields True (tables.modDefinition module) tables.defs.Known := by
  rw [modDefinition, Yields.bind_iff]
  refine Yields.true_iff.mpr fun m got => ?_
  split
  · next id owned => exact intact.owners (ModuleTree.find?_of_get got) owned
  · trivial

theorem alike_climb (module : ModuleId) (segments : List Segment) :
    PathSearch.Alike (fun start start' => start = start' ∧ tables.defs.Known start.1)
      (tables.climb module segments) ((tables.withConfig config).climb module segments) := by
  induction segments generalizing module with
  | nil =>
    unfold climb
    refine .bind (.lift (.of_yields (known_of_modDefinition intact module))) ?_
    rintro id _ ⟨rfl, known⟩
    exact .pure ⟨rfl, known⟩
  | cons segment rest ih =>
    unfold climb
    split
    · refine .bind (.lift (.refl _)) ?_
      rintro m _ rfl
      split
      · refine .bind (.lift (.refl _)) ?_
        rintro outer _ rfl
        exact ih outer
      · exact .throw rfl
    · refine .bind (.lift (.of_yields (known_of_modDefinition intact module))) ?_
      rintro id _ ⟨rfl, known⟩
      exact .pure ⟨rfl, known⟩

end Tables

/-! ## Scopes over the tables -/

/-- Every module that a scope is bound to is there. -/
def ScopeStack.Bound (stack : ScopeStack) (tree : ModuleTree) : Prop :=
  ∀ scope ∈ stack.toList, ∀ module, scope.module = some module → tree.Known module

theorem ScopeStack.Bound.nearestModule {stack : ScopeStack} {tree : ModuleTree}
    (known : stack.Bound tree) (valid : tree.Valid) : tree.Known stack.nearestModule := by
  unfold ScopeStack.nearestModule
  cases first : stack.toList.findSome? (·.module) with
  | none => exact valid.known_root
  | some module =>
    obtain ⟨scope, mem, bound⟩ := List.exists_of_findSome?_eq_some first
    exact known scope mem module bound

/-- Every module that a scope is bound to is there, and so is what `Self` stands for. -/
structure ScopeStack.Placed (stack : ScopeStack) (tables : Tables) : Prop where
  modules : ∀ scope ∈ stack.toList, ∀ module, scope.module = some module →
    tables.tree.Known module
  items : ∀ scope ∈ stack.toList, ∀ id, scope.selfItem = some id → tables.defs.Known id

namespace ScopeStack.Placed

variable {stack : ScopeStack} {tables : Tables}

theorem innermost_mem (stack : ScopeStack) : stack.innermost ∈ stack.toList := by
  unfold innermost toList
  cases stack.inner <;> simp

theorem known_nearest (placed : stack.Placed tables) (intact : Intact tables.defs tables.tree) :
    tables.tree.Known stack.nearestModule :=
  ScopeStack.Bound.nearestModule placed.modules intact.validTree

theorem new (intact : Intact tables.defs tables.tree) : ScopeStack.new.Placed tables where
  modules scope mem module bound := by
    cases List.mem_singleton.mp mem
    cases bound
    exact intact.validTree.known_root
  items scope mem id isSelf := by
    cases List.mem_singleton.mp mem
    cases isSelf

theorem push (placed : stack.Placed tables) {scope : Scope}
    (module : ∀ module, scope.module = some module → tables.tree.Known module)
    (item : ∀ id, scope.selfItem = some id → tables.defs.Known id) :
    (stack.push scope).Placed tables where
  modules := List.forall_mem_cons.mpr ⟨module, placed.modules⟩
  items := List.forall_mem_cons.mpr ⟨item, placed.items⟩

theorem pop (placed : stack.Placed tables) {scope : Scope} {left : ScopeStack}
    (popped : stack.pop = .ok (scope, left)) : left.Placed tables := by
  unfold ScopeStack.pop at popped
  split at popped
  · cases popped
  · next first inner eq =>
    cases popped
    have part : inner ++ [stack.root] ⊆ stack.toList := by
      rw [toList, eq]
      exact List.subset_cons_self ..
    exact ⟨fun scope mem => placed.modules scope (part mem),
      fun scope mem => placed.items scope (part mem)⟩

/-- Variables do not count. -/
theorem define (placed : stack.Placed tables) (ns : Namespace) (name : String) (node : NodeId) :
    (stack.define ns name node).Placed tables := by
  obtain ⟨inner, root⟩ := stack
  cases inner with
  | nil | cons =>
    exact ⟨List.forall_mem_cons.mpr (List.forall_mem_cons.mp placed.modules),
      List.forall_mem_cons.mpr (List.forall_mem_cons.mp placed.items)⟩

theorem known_selfItem (placed : stack.Placed tables) {id : DefId}
    (isSelf : stack.innermost.selfItem = some id) : tables.defs.Known id :=
  placed.items _ (innermost_mem stack) id isSelf

end ScopeStack.Placed

/-! ## Whole paths -/

namespace Tables

/-- Where a path goes on from is there. -/
def GoesOnFrom (tables : Tables) : Resolution ⊕ DefId × List Segment → Prop
  | .inl _ => True
  | .inr (id, _) => tables.defs.Known id

variable {tables : Tables} {config : Config} {stack : ScopeStack}
  (intact : Intact tables.defs tables.tree) (placed : stack.Placed tables)

include intact placed

theorem alike_resolveFirst (ns : Namespace) (suffix : Option String) (first : Segment)
    (rest : List Segment) :
    PathSearch.Alike (fun start start' => start = start' ∧ tables.GoesOnFrom start)
      (tables.resolveFirst stack ns suffix first rest)
      ((tables.withConfig config).resolveFirst stack ns suffix first rest) := by
  unfold resolveFirst
  split
  · split
    · next id isSelf => exact .pure ⟨rfl, placed.known_selfItem isSelf⟩
    · exact .throw rfl
  · refine .bind (.lift (.refl _)) ?_
    rintro module _ rfl
    refine .bind (.lift (.of_yields (known_of_modDefinition intact module))) ?_
    rintro id _ ⟨rfl, known⟩
    exact .pure ⟨rfl, known⟩
  · refine .bind (.lift (.refl _)) ?_
    rintro module _ rfl
    refine .bind (alike_climb intact module _) ?_
    rintro start _ ⟨rfl, known⟩
    exact .pure ⟨rfl, known⟩
  · next name isName =>
    simp only [lookup_withConfig, variantNamed_withConfig]
    refine .bind (.lift (.of_yields (good_of_lookup intact stack _ name))) ?_
    rintro found _ ⟨rfl, good⟩
    split
    · exact .pure ⟨rfl, trivial⟩
    · next module binding =>
      refine .bind (alike_selectMember intact (good module binding rfl) _ _) ?_
      rintro member _ ⟨rfl, known⟩
      refine .bind (alike_followAlias intact known _) ?_
      rintro id _ ⟨rfl, known⟩
      exact .pure ⟨rfl, known⟩
    · -- nothing has the name, but in a value it may still be a variant of an enum around
      split
      · refine .bind (.lift (.refl _)) ?_
        rintro variant _ rfl
        cases variant with
        | some id => exact .pure ⟨rfl, trivial⟩
        | none => exact .bind (.lift (agree_unresolvedLexical ..)) fun _ _ same => .throw same
      · rw [pure_bind, pure_bind]
        exact .bind (.lift (agree_unresolvedLexical ..)) fun _ _ same => .throw same

theorem alike_resolvePath (ns : Namespace) (path : Path) (suffix : Option String) :
    PathSearch.Alike (· = ·) (tables.resolvePath stack ns path suffix)
      ((tables.withConfig config).resolvePath stack ns path suffix) := by
  have origin := placed.known_nearest intact
  unfold resolvePath
  split
  · exact fun _ _ _ => .fault _
  · next first rest segments =>
    split
    · exact alike_followMembers intact origin ns suffix intact.known_root _
    · refine .bind (alike_resolveFirst intact placed ns suffix first rest) ?_
      rintro start _ ⟨rfl, known⟩
      split
      · exact .pure rfl
      · next id left => exact alike_followMembers intact origin ns suffix known left

end Tables

end NameResolution
