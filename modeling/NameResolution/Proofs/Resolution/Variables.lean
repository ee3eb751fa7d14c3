import NameResolution.Proofs.Resolution.Advice
import NameResolution.Proofs.Resolution.Lookups

/-! # Lookups and variables

    Two stacks of scopes may differ in the variables that are bound in them. What
    is looked up among types or lifetimes is the same in both. Among values it is
    the same where no variable is found, and where a barrier hides all scopes in
    which the stacks differ. -/

namespace NameResolution

/-! ## Stacks that differ in variables -/

/-- The same scope, but for the variables in it. -/
structure Scope.AlikeButVariables (scope scope' : Scope) : Prop where
  kind : scope.kind = scope'.kind
  module : scope.module = scope'.module
  selfItem : scope.selfItem = scope'.selfItem
  others : ∀ ns, ns ≠ .value → scope.locals.get ns = scope'.locals.get ns

theorem Scope.AlikeButVariables.refl (scope : Scope) : scope.AlikeButVariables scope :=
  ⟨rfl, rfl, rfl, fun _ _ => rfl⟩

/-- As many scopes, each the same but for the variables in it. -/
def ScopeStack.AlikeButVariables (stack stack' : ScopeStack) : Prop :=
  List.Forall₂ Scope.AlikeButVariables stack.toList stack'.toList

namespace ScopeStack.AlikeButVariables

variable {stack stack' : ScopeStack}

/-- One more variable makes no other difference. -/
theorem define (stack : ScopeStack) (name : String) (node : NodeId) :
    stack.AlikeButVariables (stack.define .value name node) := by
  have rest (scopes : List Scope) : List.Forall₂ Scope.AlikeButVariables scopes scopes :=
    List.forall₂_same.mpr fun scope _ => .refl scope
  have first (scope : Scope) : scope.AlikeButVariables (scope.define .value name node) :=
    ⟨rfl, rfl, rfl, fun _ notValue => (PerNamespace.get_set_of_ne _ notValue _).symm⟩
  obtain ⟨inner, root⟩ := stack
  cases inner with
  | nil => exact .cons (first root) .nil
  | cons scope inner => exact .cons (first scope) (rest (inner ++ [root]))

theorem push (alike : stack.AlikeButVariables stack') (scope : Scope) :
    (stack.push scope).AlikeButVariables (stack'.push scope) := .cons (.refl scope) alike

theorem modules (alike : stack.AlikeButVariables stack') :
    stack.toList.filterMap (·.module) = stack'.toList.filterMap (·.module) := by
  unfold AlikeButVariables at alike
  generalize stack.toList = scopes at alike
  generalize stack'.toList = scopes' at alike
  induction alike with
  | nil => rfl
  | cons first _ ih => rw [List.filterMap_cons, List.filterMap_cons, first.module, ih]

theorem nearestModule (alike : stack.AlikeButVariables stack') :
    stack.nearestModule = stack'.nearestModule := by
  rw [ScopeStack.nearestModule, ScopeStack.nearestModule, ← List.head?_filterMap,
    ← List.head?_filterMap, alike.modules]

theorem selfItem (alike : stack.AlikeButVariables stack') :
    stack.innermost.selfItem = stack'.innermost.selfItem := by
  obtain ⟨inner, root⟩ := stack
  obtain ⟨inner', root'⟩ := stack'
  unfold AlikeButVariables toList at alike
  cases inner <;> cases inner' <;> cases alike <;> next first _ => exact first.selfItem

theorem bound (alike : stack.AlikeButVariables stack') {tree : ModuleTree}
    (known : stack.Bound tree) : stack'.Bound tree := by
  intro scope' mem module eq
  have listed : module ∈ stack'.toList.filterMap (·.module) :=
    List.mem_filterMap.mpr ⟨scope', mem, eq⟩
  rw [← alike.modules] at listed
  obtain ⟨scope, mem, eq⟩ := List.mem_filterMap.mp listed
  exact known scope mem module eq

/-- Listings fail in the same way, whatever the variables in them. -/
theorem agree_dump (alike : stack.AlikeButVariables stack') (tree : ModuleTree) :
    Agree (fun _ _ => True) (stack.dump tree) (stack'.dump tree) := by
  have line (depth : Nat) {scope scope' : Scope} (alike : scope.AlikeButVariables scope') :
      Agree (fun _ _ => True) (line tree depth scope) (line tree depth scope') := by
    unfold ScopeStack.line
    rw [alike.module]
    cases scope'.module with
    | none => exact .ok trivial
    | some module =>
      exact .bind (.refl (tree.get module)) fun _ _ _ => .ok trivial
  have lines (depth : Nat) {scopes scopes' : List Scope}
      (alike : List.Forall₂ Scope.AlikeButVariables scopes scopes') :
      Agree (fun _ _ => True) ((scopes.zipIdx depth).mapM fun p => ScopeStack.line tree p.2 p.1)
        ((scopes'.zipIdx depth).mapM fun p => ScopeStack.line tree p.2 p.1) := by
    induction alike generalizing depth with
    | nil => exact .ok trivial
    | cons first _ ih =>
      simp only [List.zipIdx_cons, List.mapM_cons]
      exact .bind (line depth first) fun _ _ _ => .bind (ih (depth + 1)) fun _ _ _ => .ok trivial
  exact .bind (lines 0 (List.forall₂_reverse_iff.mpr alike)) fun _ _ _ => .ok trivial

end ScopeStack.AlikeButVariables

/-! ## Lookups -/

namespace Tables

variable {tables : Tables} {ns : Namespace} {name : String}

/-- The item of a name in the module that a scope is bound to. -/
def itemOf (tables : Tables) (ns : Namespace) (name : String) (module : Option ModuleId) :
    Except Fault (Option Found) :=
  match module with
  | some module => do return ((← tables.tree.get module).find? ns name).map (.item module)
  | none => return none

/-- In each scope a variable comes first, then an item, and then what is around. -/
theorem searchScopes_cons (hidden : Bool) (scope : Scope) (scopes : List Scope) :
    tables.searchScopes ns name hidden (scope :: scopes) =
      match if hidden then none else scope.find? ns name with
      | some node => .ok (some (.localVar node))
      | none => tables.itemOf ns name scope.module >>= fun
        | some found => .ok (some found)
        | none => tables.searchScopes ns name (hidden || scope.kind.hidesOuterLocals) scopes := by
  rw [searchScopes]
  cases scope.module with
  | none => rfl
  | some module =>
    simp only [itemOf]
    cases tables.tree.get module <;> rfl

/-- What is searched for is the same where variables are out of reach, and in any other namespace
    than that of variables. -/
theorem searchScopes_of_alike {scopes scopes' : List Scope}
    (alike : List.Forall₂ Scope.AlikeButVariables scopes scopes') (hidden : Bool)
    (unseen : hidden = true ∨ ns ≠ .value) :
    tables.searchScopes ns name hidden scopes = tables.searchScopes ns name hidden scopes' := by
  induction alike generalizing hidden with
  | nil => rfl
  | @cons scope scope' scopes scopes' first rest ih =>
    have same : (if hidden then none else scope.find? ns name) =
        if hidden then none else scope'.find? ns name := by
      rcases unseen with rfl | notValue
      · rfl
      · rw [Scope.find?, Scope.find?, first.others ns notValue]
    have outer := ih (hidden || scope.kind.hidesOuterLocals)
      (unseen.imp_left fun hidden => by rw [hidden, Bool.true_or])
    rw [searchScopes_cons, searchScopes_cons, same, first.module, outer, first.kind]

/-- A search that comes upon no variable finds what it finds without all variables. -/
theorem searchScopes_variable_or (hidden : Bool) (scopes : List Scope) :
    (∃ node, tables.searchScopes ns name hidden scopes = .ok (some (.localVar node))) ∨
      tables.searchScopes ns name hidden scopes = tables.searchScopes ns name true scopes := by
  induction scopes generalizing hidden with
  | nil => exact .inr rfl
  | cons scope scopes ih =>
    rw [searchScopes_cons, searchScopes_cons]
    simp only [if_true, Bool.true_or]
    cases if hidden then none else scope.find? ns name with
    | some node => exact .inl ⟨node, rfl⟩
    | none =>
      cases tables.itemOf ns name scope.module with
      | error fault => exact .inr rfl
      | ok found =>
        cases found with
        | some found => exact .inr rfl
        | none => exact ih _

/-- What a name refers to at a point, were there no variables. -/
def lookupItem (tables : Tables) (stack : ScopeStack) (ns : Namespace) (name : String) :
    Except Fault (Option Found) := do
  match ← tables.searchScopes ns name true stack.toList with
  | some found => return some found
  | none => tables.searchModules stack ns name

theorem lookup_variable_or (stack : ScopeStack) :
    (∃ node, tables.lookup stack ns name = .ok (some (.localVar node))) ∨
      tables.lookup stack ns name = tables.lookupItem stack ns name := by
  have search : (∃ node, tables.searchScopes ns name false stack.toList =
      .ok (some (.localVar node))) ∨ tables.searchScopes ns name false stack.toList =
        tables.searchScopes ns name true stack.toList := searchScopes_variable_or false stack.toList
  rcases search with ⟨node, found⟩ | same
  · exact .inl ⟨node, by rw [lookup, found]; rfl⟩
  · exact .inr (by rw [lookup, same]; rfl)

section

variable {stack stack' : ScopeStack} (alike : stack.AlikeButVariables stack')

include alike

theorem searchModules_of_alike :
    tables.searchModules stack ns name = tables.searchModules stack' ns name := by
  simp only [searchModules, alike.modules, alike.nearestModule]

theorem lookupItem_of_alike :
    tables.lookupItem stack ns name = tables.lookupItem stack' ns name := by
  rw [lookupItem, lookupItem, searchModules_of_alike alike,
    searchScopes_of_alike alike true (.inl rfl)]

theorem lookup_of_alike (notValue : ns ≠ .value) :
    tables.lookup stack ns name = tables.lookup stack' ns name := by
  rw [lookup, lookup, searchModules_of_alike alike,
    searchScopes_of_alike alike false (.inr notValue)]

/-- Two lookups that find no variable find the same. -/
theorem lookup_of_noVariable
    (noVariable : ∀ node, tables.lookup stack ns name ≠ .ok (some (.localVar node)))
    (noVariable' : ∀ node, tables.lookup stack' ns name ≠ .ok (some (.localVar node))) :
    tables.lookup stack ns name = tables.lookup stack' ns name := by
  rw [(lookup_variable_or stack).resolve_left fun ⟨node, found⟩ => noVariable node found,
    (lookup_variable_or stack').resolve_left fun ⟨node, found⟩ => noVariable' node found,
    lookupItem_of_alike alike]

theorem variantNamed_of_alike :
    tables.variantNamed stack name = tables.variantNamed stack' name := by
  rw [variantNamed, variantNamed, lookup_of_alike alike (by simp)]

end

/-- Behind a barrier only variables that are bound in front of it are seen. -/
theorem not_sees_of_barrier {scope : Scope} {outer : List Scope}
    (hides : scope.kind.hidesOuterLocals = true) (free : scope.find? ns name = none)
    (node : NodeId) : ¬ tables.Sees ns name (scope :: outer) node := by
  rintro (bound | ⟨_, passable, -, -⟩)
  · cases free.symm.trans bound
  · cases hides.symm.trans passable

section

variable {stack : ScopeStack} (known : stack.Bound tables.tree)

include known

theorem searchScopes_of_bound (hidden : Bool) :
    Yields False (tables.searchScopes ns name hidden stack.toList)
      (tables.Finds ns name hidden stack.toList) := by
  refine searchScopes_finds (fun id mem => ?_) hidden
  obtain ⟨scope, mem, bound⟩ := List.mem_filterMap.mp mem
  exact known scope mem id bound

/-- The variable that is found is the one that is seen. -/
theorem lookup_eq_variable_iff {node : NodeId} :
    tables.lookup stack ns name = .ok (some (.localVar node)) ↔
      tables.Sees ns name stack.toList node := by
  have search : Yields False (tables.searchScopes ns name false stack.toList)
    (tables.Finds ns name false stack.toList) := searchScopes_of_bound known false
  obtain ⟨found, inScopes, finds⟩ := Yields.false_iff.mp search
  have seen : found = some (.localVar node) ↔ tables.Sees ns name stack.toList node :=
    (finds.variable_iff node).trans (and_iff_right rfl)
  rw [lookup, inScopes, ← seen]
  cases found with
  | some found => exact ⟨fun eq => Except.ok.inj eq, fun eq => eq ▸ rfl⟩
  | none =>
    -- the modules around have only items
    refine ⟨fun eq => ?_, fun eq => by cases eq⟩
    have eq : tables.searchModules stack ns name = .ok (some (.localVar node)) := eq
    obtain ⟨around, -, eq⟩ := Except.bind_eq_ok.mp eq
    obtain ⟨m, -, here⟩ := List.exists_of_findSome?_eq_some (Except.ok.inj eq)
    obtain ⟨_, -, ⟨⟩⟩ := Option.map_eq_some_iff.mp here

/-- A lookup goes through, and what it finds is there. -/
theorem yields_lookup (intact : Intact tables.defs tables.tree) (ns : Namespace) (name : String) :
    Yields False (tables.lookup stack ns name) fun found =>
      ∀ module binding, found = some (.item module binding) → binding.Good tables.defs ns := by
  have through : Yields False (tables.lookup stack ns name) fun _ => True := by
    rw [lookup, Yields.bind_iff]
    refine (searchScopes_of_bound known false).mono fun found _ => ?_
    split
    · trivial
    · obtain ⟨m, found⟩ := (known.nearestModule intact.validTree).find?
      simp only [searchModules, Yields.bind_iff]
      exact (intact.validTree.ancestors found).mono fun _ _ => trivial
  obtain ⟨found, eq, -⟩ := Yields.false_iff.mp through
  have good := good_of_lookup intact stack ns name
  rw [eq] at good ⊢
  exact good

end

end Tables

/-! ## Scopes behind a barrier -/

/-- Two stacks with the same scopes on top of two others, so many of them above a barrier. -/
inductive ScopeStack.Above (stack stack' : ScopeStack) : Nat → ScopeStack → ScopeStack → Prop where
  | barrier {scope : Scope} (hides : scope.kind.hidesOuterLocals = true) :
      Above stack stack' 0 (stack.push scope) (stack'.push scope)
  | push {n : Nat} {upper upper' : ScopeStack} (h : Above stack stack' n upper upper')
      (scope : Scope) : Above stack stack' (n + 1) (upper.push scope) (upper'.push scope)

namespace ScopeStack.Above

variable {stack stack' upper upper' : ScopeStack} {n : Nat}

theorem alike (above : Above stack stack' n upper upper')
    (alike : stack.AlikeButVariables stack') : upper.AlikeButVariables upper' := by
  induction above with
  | barrier _ => exact alike.push _
  | push _ _ ih => exact ih.push _

theorem innermost (above : Above stack stack' n upper upper') :
    upper.innermost = upper'.innermost := by
  cases above <;> rfl

theorem define (above : Above stack stack' n upper upper') (ns : Namespace) (name : String)
    (node : NodeId) :
    Above stack stack' n (upper.define ns name node) (upper'.define ns name node) := by
  cases above with
  | barrier hides => exact .barrier hides
  | push below scope => exact .push below _

/-- All that differs is out of reach. -/
theorem lookup (above : Above stack stack' n upper upper')
    (alike : stack.AlikeButVariables stack') (tables : Tables) (ns : Namespace) (name : String) :
    tables.lookup upper ns name = tables.lookup upper' ns name := by
  have search (hidden : Bool) : tables.searchScopes ns name hidden upper.toList =
      tables.searchScopes ns name hidden upper'.toList := by
    induction above generalizing hidden with
    | barrier hides =>
      rw [toList_push, toList_push, Tables.searchScopes_cons, Tables.searchScopes_cons, hides,
        Bool.or_true, Tables.searchScopes_of_alike alike true (.inl rfl)]
    | push below scope ih =>
      rw [toList_push, toList_push, Tables.searchScopes_cons, Tables.searchScopes_cons, ih]
  rw [Tables.lookup, Tables.lookup, search, Tables.searchModules_of_alike (above.alike alike)]

end ScopeStack.Above

/-! ## Paths -/

/-- Two path searches that warn of the same and come to the same fault, to the same, or to errors
    that differ in what they suggest at most. -/
def PathSearch.Same {α : Type} (m m' : PathSearch α) : Prop :=
  ∀ warnings, Agree (fun p p' => p.1.mapError Diagnostic.bare = p'.1.mapError Diagnostic.bare ∧
    p.2 = p'.2) (m.run.run warnings) (m'.run.run warnings)

namespace PathSearch.Same

variable {α β : Type} {m m' : PathSearch α}

theorem refl (m : PathSearch α) : Same m m :=
  fun _ => (Agree.refl _).mono fun _ _ eq => eq ▸ ⟨rfl, rfl⟩

theorem bind {f f' : α → PathSearch β} (h : Same m m') (h' : ∀ a, Same (f a) (f' a)) :
    Same (m >>= f) (m' >>= f') := by
  intro warnings
  -- the warnings are a state below the errors, so they are kept when an error is thrown
  show Agree _ (m.run.run warnings >>= fun p => (ExceptT.bindCont f p.1).run p.2)
    (m'.run.run warnings >>= fun p => (ExceptT.bindCont f' p.1).run p.2)
  refine (h warnings).bind fun outcome outcome' same => ?_
  obtain ⟨r, warnings₁⟩ := outcome
  obtain ⟨r', warnings₁'⟩ := outcome'
  obtain ⟨eq, rfl⟩ := same
  cases r with
  | ok a =>
    cases r' with
    | ok a' =>
      cases eq
      exact h' a warnings₁
    | error d' => cases eq
  | error d =>
    cases r' with
    | ok a' => cases eq
    | error d' =>
      have bare : d.bare = d'.bare := Except.error.inj eq
      exact .ok ⟨congrArg Except.error bare, rfl⟩

/-- An error that is made up in either of two ways. -/
theorem throw {d d' : Except Fault Diagnostic}
    (h : Agree (fun d d' => d.bare = d'.bare) d d') :
    Same (do throw (← d) : PathSearch α) (do throw (← d')) := by
  intro warnings
  cases h with
  | ok same => exact .ok ⟨congrArg Except.error same, rfl⟩
  | fault fault => exact .fault fault

end PathSearch.Same

namespace Tables

variable {tables : Tables} {stack stack' : ScopeStack}

/-- All that is said of a name that is not in reach is the same, suggestions aside. -/
theorem agree_unresolvedLexical_of_bound (intact : Intact tables.defs tables.tree)
    (known : stack.Bound tables.tree) (known' : stack'.Bound tables.tree) (ident : Ident)
    (ns : Namespace) : Agree (fun d d' => d.bare = d'.bare)
      (tables.unresolvedLexical stack ident ns) (tables.unresolvedLexical stack' ident ns) := by
  refine .of_yields_false
    (yields_unresolvedLexical intact stack ident (fun _ => yields_lookup known intact _ _) ns)
    (yields_unresolvedLexical intact stack' ident (fun _ => yields_lookup known' intact _ _) ns) ?_
  rintro _ _ ⟨found, rfl⟩ ⟨found', rfl⟩
  rfl

/-- In stacks that differ in variables a path comes to the same if its first name does. -/
theorem same_resolvePath (alike : stack.AlikeButVariables stack') (ns : Namespace) (path : Path)
    (suffix : Option String)
    (first : ∀ segment rest name, path.segments = segment :: rest → segment.kind = .name name →
      tables.lookup stack (segmentNamespace ns rest) name =
        tables.lookup stack' (segmentNamespace ns rest) name)
    (missing : ∀ ident ns, Agree (fun d d' => d.bare = d'.bare)
      (tables.unresolvedLexical stack ident ns) (tables.unresolvedLexical stack' ident ns)) :
    PathSearch.Same (tables.resolvePath stack ns path suffix)
      (tables.resolvePath stack' ns path suffix) := by
  unfold resolvePath
  rw [← alike.nearestModule]
  split
  · exact .refl _
  · next segment rest split =>
    split
    · exact .refl _
    · refine .bind ?_ fun start => .refl _
      unfold resolveFirst
      rw [← alike.nearestModule, ← alike.selfItem]
      split
      · exact .refl _
      · exact .refl _
      · exact .refl _
      · next name isName =>
        have lookup := first segment rest name split isName
        dsimp only
        rw [← lookup, ← variantNamed_of_alike alike]
        refine .bind (.refl _) fun found => ?_
        split
        · exact .refl _
        · exact .refl _
        · -- nothing has the name, but in a value it may still be a variant of an enum around
          split
          all_goals
            refine .bind (.refl _) fun variant => ?_
            cases variant with
            | some id => exact .refl _
            | none => exact .throw (missing _ _)

end Tables

end NameResolution
