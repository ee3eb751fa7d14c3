import NameResolution.Proofs.Calls
import NameResolution.Proofs.Resolution.Variables

/-! # Types and variables

    What a type refers to does not depend on the variables around it, with one
    exception. A name that stands alone as a generic argument may be a constant,
    and is looked up among values for that: there a variable of the same name
    gets in the way. Array sizes and constant arguments have a scope of their own
    that hides the variables around. -/

namespace NameResolution

/-! ## Arguments of types -/

mutual

/-- The paths that stand as generic arguments, those inside of expressions left out. -/
def GenericArg.argPaths : GenericArg → List Path
  | .type (.path path args) => path :: GenericArg.argPathsOf args
  | .type ty => ty.argPaths
  | .lifetime _ _ => []
  | .const _ => []

def GenericArg.argPathsOf : List GenericArg → List Path
  | [] => []
  | arg :: args => arg.argPaths ++ GenericArg.argPathsOf args

def Ty.argPaths : Ty → List Path
  | .path _ args => GenericArg.argPathsOf args
  | .array elem _ => elem.argPaths
  | .compound _ parts => Ty.argPathsOf parts

def Ty.argPathsOf : List Ty → List Path
  | [] => []
  | ty :: tys => ty.argPaths ++ Ty.argPathsOf tys

end

theorem Path.of_loneIdent? {path : Path} {ident : Ident} (h : path.loneIdent? = some ident) :
    ∃ segment, path.segments = [segment] ∧ segment.ident? = some ident := by
  unfold loneIdent? at h
  split at h
  · next segment eq =>
    split at h
    · cases h
    · exact ⟨segment, eq, h⟩
  · cases h

/-- Where a name stands alone as a generic argument, is no type and would be an item among values, a
    variable of that name is seen in both stacks or in neither. -/
def Path.SeenAlike (path : Path) (tables : Tables) (stack stack' : ScopeStack) : Prop :=
  ∀ ident, path.loneIdent? = some ident → tables.lookup stack .type ident.name = .ok none →
    tables.lookupItem stack .value ident.name ≠ .ok none →
    ((∃ node, tables.Sees .value ident.name stack.toList node) ↔
      ∃ node, tables.Sees .value ident.name stack'.toList node)

/-! ## Two runs of the second pass -/

/-- States that have come to the same so far, in scopes that are related. -/
structure ResolveState.Beside (rel : ScopeStack → ScopeStack → Prop) (s s' : ResolveState) :
    Prop where
  scopes : rel s.scopes s'.scopes
  resolutions : s.resolutions = s'.resolutions
  diagnostics : s.diagnostics.map Diagnostic.bare = s'.diagnostics.map Diagnostic.bare

namespace Resolving

variable {tables : Tables}

/-- From such states both come to the same fault, or to such states, with their scopes related in
    the other way. -/
abbrev Beside (rel rel' : ScopeStack → ScopeStack → Prop) (m m' : Resolving Unit) : Prop :=
  Together (ResolveState.Beside rel) (ResolveState.Beside rel') (fun _ _ => True) m m'

variable {rel rel' : ScopeStack → ScopeStack → Prop}

theorem beside_report {reports reports' : List Diagnostic}
    (h : reports.map Diagnostic.bare = reports'.map Diagnostic.bare) :
    Beside rel rel (report reports) (report reports') :=
  .modify fun s s' beside => { beside with
    diagnostics := by rw [List.map_append, List.map_append, beside.diagnostics, h] }

theorem beside_record (node : NodeId) (resolution : Resolution) :
    Beside rel rel (record node resolution) (record node resolution) := by
  refine .reads fun s s' beside => ?_
  rw [← beside.resolutions]
  cases s.resolutions[node]? with
  | some first => exact .lift (.fault _)
  | none =>
    refine fun _ _ _ => .pure ⟨trivial, { beside with resolutions := ?_ }⟩
    rw [beside.resolutions]

/-- Two searches for a path that are the same are recorded in the same way. -/
theorem beside_resolvePath {ns : Namespace} {path : Path} {suffix : Option String}
    (listings : ∀ stack stack', rel stack stack' →
      Agree (fun _ _ => True) (stack.dump tables.tree) (stack'.dump tables.tree))
    (same : ∀ stack stack', rel stack stack' → PathSearch.Same
      (tables.resolvePath stack ns path suffix) (tables.resolvePath stack' ns path suffix)) :
    Beside rel rel (resolvePath tables ns path suffix) (resolvePath tables ns path suffix) := by
  refine .reads fun s s' beside => ?_
  refine .traced_of_agree (listings _ _ beside.scopes) _ ?_
  refine .bind (.lift (same _ _ beside.scopes [])) ?_
  rintro ⟨r, warnings⟩ ⟨r', _⟩ ⟨eq, rfl⟩
  cases r with
  | ok resolution =>
    cases r' with
    | ok resolution' =>
      cases eq
      exact .bind (beside_report rfl) fun _ _ _ => beside_record _ _
    | error d' => cases eq
  | error d =>
    cases r' with
    | ok resolution' => cases eq
    | error d' =>
      have bare : d.bare = d'.bare := Except.error.inj eq
      refine .bind (.emit _ _) fun _ _ _ => .bind (beside_report ?_) fun _ _ _ => beside_record _ _
      rw [List.map_append, List.map_append, List.map_singleton, List.map_singleton, bare]

theorem beside_nothing : Beside rel rel (follow tables []) (follow tables []) := .pure trivial

theorem beside_append {between : ScopeStack → ScopeStack → Prop} {first second : Walk}
    (h : Beside rel between (follow tables first) (follow tables first))
    (h' : Beside between rel' (follow tables second) (follow tables second)) :
    Beside rel rel' (follow tables (first ++ second)) (follow tables (first ++ second)) := by
  rw [follow_append]
  exact .bind h fun _ _ _ => h'

theorem beside_cons {between : ScopeStack → ScopeStack → Prop} {first : WalkStep} {walk : Walk}
    (h : Beside rel between (step tables first) (step tables first))
    (h' : Beside between rel' (follow tables walk) (follow tables walk)) :
    Beside rel rel' (follow tables (first :: walk)) (follow tables (first :: walk)) :=
  .bind h fun _ _ _ => h'

/-- What is inside a scope is done between entering and leaving it. -/
theorem beside_within {inside : ScopeStack → ScopeStack → Prop} {first : WalkStep} {walk : Walk}
    (enters : Beside rel inside (step tables first) (step tables first))
    (h : Beside inside inside (follow tables walk) (follow tables walk))
    (leaves : Beside inside rel' (step tables .leave) (step tables .leave)) :
    Beside rel rel' (follow tables (Walk.within first walk))
      (follow tables (Walk.within first walk)) :=
  beside_cons enters (beside_append h (beside_cons leaves beside_nothing))

/-! ## Scopes -/

/-- Both enter the same scope. -/
theorem beside_push (scope : ScopeStack → Scope)
    (same : ∀ upper upper', rel upper upper' → scope upper = scope upper')
    (push : ∀ upper upper', rel upper upper' →
      rel' (upper.push (scope upper)) (upper'.push (scope upper))) :
    Beside rel rel' (modify fun s => { s with scopes := s.scopes.push (scope s.scopes) })
      (modify fun s => { s with scopes := s.scopes.push (scope s.scopes) }) :=
  .modify fun s s' beside => { beside with
    scopes := by
      rw [← same _ _ beside.scopes]
      exact push _ _ beside.scopes }

/-- Both leave a scope. -/
theorem beside_leave (pop : ∀ upper upper', rel upper upper' → ∃ scope scope' left left',
      upper.pop = .ok (scope, left) ∧ upper'.pop = .ok (scope', left') ∧ rel' left left') :
    Beside rel rel' (step tables .leave) (step tables .leave) := by
  refine .reads_here fun s s' beside => ?_
  obtain ⟨scope, scope', left, left', popped, popped', related⟩ := pop _ _ beside.scopes
  rw [popped, popped']
  exact .set { beside with scopes := related }

/-! ## Inside of constant expressions -/

section

open ScopeStack (Above)

variable {stack stack' : ScopeStack} {n : Nat}

theorem beside_bindLocal (ident : Ident) (node : NodeId) :
    Beside (Above stack stack' n) (Above stack stack' n) (bindLocal ident node)
      (bindLocal ident node) :=
  .bind (.emit _ _) fun _ _ _ => .modify fun _ _ beside => { beside with
    scopes := beside.scopes.define _ _ _ }

theorem beside_enter (kind : ScopeKind) (module : Option ModuleId) :
    Beside (Above stack stack' n) (Above stack stack' (n + 1)) (enter kind module)
      (enter kind module) :=
  beside_push (fun upper => .new kind module upper.innermost.selfItem)
    (fun _ _ above => by rw [above.innermost]) fun _ _ above => above.push _

theorem beside_opens {around inside : Regions} {step : WalkStep} {node : NodeId} {role : Role}
    (opens : Opens around step node role inside) :
    Beside (Above stack stack' n) (Above stack stack' (n + 1)) (Resolving.step tables step)
      (Resolving.step tables step) := by
  have definition {node : NodeId} : Together (ResolveState.Beside (Above stack stack' n))
      (ResolveState.Beside (Above stack stack' n)) (· = ·) (definitionAt tables node)
      (definitionAt tables node) := by
    unfold definitionAt
    split
    · exact .lift (.refl _)
    · exact .lift (.refl _)
  cases opens with
  | item =>
    refine .bind definition ?_
    rintro definition _ rfl
    refine .bind (.lift (.refl _)) ?_
    rintro module _ rfl
    exact beside_push
      (fun upper => .new .item (some module) (selfInside definition upper.innermost.selfItem))
      (fun _ _ above => by rw [above.innermost]) fun _ _ above => above.push _
  | func =>
    refine .bind definition ?_
    rintro definition _ rfl
    exact beside_enter _ _
  | block =>
    unfold Resolving.step enterBlock
    dsimp only
    split
    · exact .bind (.lift (.refl _)) fun _ _ _ => beside_enter _ _
    · exact beside_enter _ _

theorem beside_leave_of_above :
    Beside (Above stack stack' (n + 1)) (Above stack stack' n) (step tables .leave)
      (step tables .leave) := by
  refine beside_leave fun upper upper' above => ?_
  cases above with
  | push below scope => exact ⟨_, _, _, _, rfl, rfl, below⟩

variable (alike : stack.AlikeButVariables stack')

include alike

/-- Behind a barrier a path comes to the same in any namespace. -/
theorem beside_resolvePath_of_above (ns : Namespace) (path : Path) (suffix : Option String) :
    Beside (Above stack stack' n) (Above stack stack' n) (resolvePath tables ns path suffix)
      (resolvePath tables ns path suffix) := by
  refine beside_resolvePath (fun upper upper' above => (above.alike alike).agree_dump _)
    fun upper upper' above => ?_
  refine Tables.same_resolvePath (above.alike alike) ns path suffix
    (fun _ _ _ _ _ => above.lookup alike _ _ _) fun ident ns => ?_
  have same : tables.unresolvedLexical upper ident ns =
      tables.unresolvedLexical upper' ident ns := by
    simp only [Tables.unresolvedLexical, above.lookup alike]
  rw [same]
  exact (Agree.refl _).mono fun _ _ eq => eq ▸ rfl

theorem beside_refers {step : WalkStep} {node : NodeId} {role : Role}
    (refers : Refers step node role) : Beside (Above stack stack' n) (Above stack stack' n)
      (Resolving.step tables step) (Resolving.step tables step) := by
  cases refers with
  | expr | field | pattern | type | lifetime _ => exact beside_resolvePath_of_above alike _ _ _
  | @typeArg path =>
    refine .reads fun s s' beside => ?_
    have same : isValueArg tables s.scopes path = isValueArg tables s'.scopes path := by
      simp only [isValueArg, beside.scopes.lookup alike]
    rw [same]
    refine .bind (.lift (.refl _)) ?_
    rintro isValue _ rfl
    exact beside_resolvePath_of_above alike _ _ _
  | selfValue =>
    refine .reads fun s s' beside => ?_
    rw [beside.scopes.innermost]
    cases s'.scopes.innermost.selfItem with
    | some id => exact beside_record _ _
    | none => exact .bind (beside_report rfl) fun _ _ _ => beside_record _ _

/-- A bare name in a pattern is the same variant in both, or bound in both. -/
theorem beside_bindOrMatch (ident : Ident) (node : NodeId) :
    Beside (Above stack stack' n) (Above stack stack' n)
      (step tables (.bindOrMatch ident node)) (step tables (.bindOrMatch ident node)) := by
  refine .reads fun s s' beside => ?_
  rw [Tables.variantNamed_of_alike (beside.scopes.alike alike)]
  refine .bind (.lift (.refl _)) ?_
  rintro variant _ rfl
  cases variant with
  | some variant => exact beside_record _ _
  | none => exact beside_bindLocal ident node

/-- Behind a barrier all steps of a walk that stays there do the same. -/
theorem beside_traces {around after : Regions} {walk : Walk} {occs : List Occurrence}
    (traces : Traces around walk occs after) :
    Beside (Above stack stack' n) (Above stack stack' n) (follow tables walk)
      (follow tables walk) := by
  induction traces generalizing n with
  | nothing | silent => exact beside_nothing
  | refer refers => exact beside_cons (beside_refers alike refers) beside_nothing
  | bind => exact beside_cons (beside_bindLocal _ _) beside_nothing
  | bareName => exact beside_cons (beside_bindOrMatch alike _ _) beside_nothing
  | plain binders _ ih => exact beside_within (beside_enter _ _) ih beside_leave_of_above
  | within binders opens _ ih => exact beside_within (beside_opens opens) ih beside_leave_of_above
  | append _ _ ih ih' => exact beside_append ih ih'

end

/-! ## Types -/

/-- A path that is a value as an argument is the name of an item. -/
theorem item_of_isValueArg {stack : ScopeStack} {path : Path}
    (isValue : isValueArg tables stack path = .ok true) {segment : Segment} {rest : List Segment}
    (split : path.segments = segment :: rest) {name : String} (isName : segment.kind = .name name) :
    rest = [] ∧ ∃ module binding,
      tables.lookup stack .value name = .ok (some (.item module binding)) := by
  unfold isValueArg at isValue
  cases lone : path.loneIdent? with
  | none =>
    rw [lone] at isValue
    cases isValue
  | some ident =>
    rw [lone] at isValue
    obtain ⟨types, -, others⟩ := Except.bind_eq_ok.mp isValue
    split at others
    · cases others
    · obtain ⟨found, looked, isItem⟩ := Except.bind_eq_ok.mp others
      obtain ⟨segment', eq, isIdent⟩ := Path.of_loneIdent? lone
      rw [split] at eq
      cases eq
      rw [Segment.ident?, isName] at isIdent
      cases isIdent
      split at isItem
      · next module binding => exact ⟨rfl, module, binding, looked⟩
      · cases isItem

section

variable {stack stack' : ScopeStack} (known : stack.Bound tables.tree)
  (alike : stack.AlikeButVariables stack')

/-- Exactly these stacks. -/
def Just (stack stack' : ScopeStack) (s s' : ScopeStack) : Prop := s = stack ∧ s' = stack'

include alike

/-- The value of an array size or of a constant argument. -/
theorem beside_const (value : Expr) : Beside (Just stack stack') (Just stack stack')
    (follow tables (Walk.within (.enter .const) (Walk.ofExpr value)))
    (follow tables (Walk.within (.enter .const) (Walk.ofExpr value))) := by
  have inside : Beside (ScopeStack.Above stack stack' 0) (ScopeStack.Above stack stack' 0)
      (follow tables (Walk.ofExpr value)) (follow tables (Walk.ofExpr value)) :=
    beside_traces alike (traces_expr [] value)
  refine beside_within ?_ inside ?_
  · refine beside_push (fun upper => .new .const none upper.innermost.selfItem) ?_ ?_
    · rintro _ _ ⟨rfl, rfl⟩
      rw [alike.selfItem]
    · rintro _ _ ⟨rfl, rfl⟩
      exact .barrier rfl
  · refine beside_leave fun upper upper' above => ?_
    cases above with
    | barrier _ => exact ⟨_, _, _, _, rfl, rfl, rfl, rfl⟩

include known

/-- Whether an argument is a value is the same in both. -/
theorem isValueArg_of_seenAlike {path : Path} (seen : path.SeenAlike tables stack stack') :
    isValueArg tables stack path = isValueArg tables stack' path := by
  unfold isValueArg
  cases lone : path.loneIdent? with
  | none => rfl
  | some ident =>
    dsimp only
    have types : tables.lookup stack .type ident.name = tables.lookup stack' .type ident.name :=
      Tables.lookup_of_alike alike (by simp)
    rw [← types]
    cases looked : tables.lookup stack .type ident.name with
    | error fault => rfl
    | ok found =>
      cases found with
      | some found => rfl
      | none =>
        by_cases noItem : tables.lookupItem stack .value ident.name = .ok none
        · have variableAtMost {stack : ScopeStack}
              (noItem : tables.lookupItem stack .value ident.name = .ok none) :
              (∃ node, tables.lookup stack .value ident.name = .ok (some (.localVar node))) ∨
                tables.lookup stack .value ident.name = .ok none :=
            (Tables.lookup_variable_or stack).imp_right fun same => same.trans noItem
          have noItem' := noItem
          rw [Tables.lookupItem_of_alike alike] at noItem'
          -- be it a variable or nothing, in no case is the argument a value
          rcases variableAtMost noItem with ⟨_, here⟩ | here <;>
          rcases variableAtMost noItem' with ⟨_, there⟩ | there <;>
          simp only [here, there, bind, Except.bind]
        · -- the name is the one of a variable in both stacks, or in neither
          have both := seen ident lone looked noItem
          simp only [← Tables.lookup_eq_variable_iff known,
            ← Tables.lookup_eq_variable_iff (alike.bound known)] at both
          by_cases isVariable : ∃ node, tables.lookup stack .value ident.name =
              .ok (some (.localVar node))
          · obtain ⟨node, here⟩ := isVariable
            obtain ⟨node', there⟩ := both.mp ⟨node, here⟩
            rw [here, there]
            rfl
          · rw [Tables.lookup_of_noVariable alike (not_exists.mp isVariable)
              (not_exists.mp (mt both.mpr isVariable))]

end

/-- Two stacks of scopes that differ in nothing but variables, over tables that are in order. -/
structure AsideFromVariables (tables : Tables) (stack stack' : ScopeStack) : Prop where
  intact : Intact tables.defs tables.tree
  known : stack.Bound tables.tree
  alike : stack.AlikeButVariables stack'

section

variable {stack stack' : ScopeStack}

/-- Among types and lifetimes a path comes to the same. -/
theorem beside_resolvePath_of_ne (h : AsideFromVariables tables stack stack') {ns : Namespace}
    (notValue : ns ≠ .value) (path : Path) (suffix : Option String) :
    Beside (Just stack stack') (Just stack stack') (resolvePath tables ns path suffix)
      (resolvePath tables ns path suffix) := by
  refine beside_resolvePath ?_ ?_
  · rintro _ _ ⟨rfl, rfl⟩
    exact h.alike.agree_dump _
  · rintro _ _ ⟨rfl, rfl⟩
    refine Tables.same_resolvePath h.alike ns path suffix
      (fun segment rest name _ _ => ?_) fun _ _ =>
        Tables.agree_unresolvedLexical_of_bound h.intact h.known (h.alike.bound h.known) _ _
    refine Tables.lookup_of_alike h.alike ?_
    unfold Tables.segmentNamespace
    split
    · exact notValue
    · simp

/-- A path as a generic argument. -/
theorem beside_typeArg (h : AsideFromVariables tables stack stack') {path : Path}
    (seen : path.SeenAlike tables stack stack') :
    Beside (Just stack stack') (Just stack stack') (step tables (.typeArg path))
      (step tables (.typeArg path)) := by
  have same := isValueArg_of_seenAlike h.known h.alike seen
  refine .reads fun s s' beside => ?_
  rw [beside.scopes.1, beside.scopes.2, ← same]
  refine .bind (.lift (.of_yields (Yields.true_iff.mpr fun isValue eq => eq))) ?_
  rintro isValue _ ⟨rfl, asked⟩
  cases isValue with
  | false => exact beside_resolvePath_of_ne h (by simp) path none
  | true =>
    -- the name is an item in both, so it is the same in both
    refine beside_resolvePath ?_ ?_
    · rintro _ _ ⟨rfl, rfl⟩
      exact h.alike.agree_dump _
    · rintro _ _ ⟨rfl, rfl⟩
      refine Tables.same_resolvePath h.alike .value path none
        (fun segment rest name split isName => ?_) fun _ _ =>
          Tables.agree_unresolvedLexical_of_bound h.intact h.known (h.alike.bound h.known) _ _
      obtain ⟨rfl, item⟩ := item_of_isValueArg asked split isName
      obtain ⟨-, item'⟩ := item_of_isValueArg (same ▸ asked) split isName
      refine Tables.lookup_of_noVariable h.alike (fun node found => ?_) fun node found => ?_
      · obtain ⟨module, binding, item⟩ := item
        cases item.symm.trans found
      · obtain ⟨module, binding, item⟩ := item'
        cases item.symm.trans found

mutual

theorem beside_genericArg (h : AsideFromVariables tables stack stack') : (arg : GenericArg) →
    (∀ path ∈ arg.argPaths, path.SeenAlike tables stack stack') →
    Beside (Just stack stack') (Just stack stack') (follow tables (Walk.ofGenericArg arg))
      (follow tables (Walk.ofGenericArg arg))
  | .type (.path path args), seen => by
    rw [GenericArg.argPaths] at seen
    rw [Walk.ofGenericArg]
    exact beside_cons (beside_typeArg h (seen path (List.mem_cons_self ..)))
      (beside_genericArgs h args fun path mem => seen path (List.mem_cons_of_mem _ mem))
  | .type (.array elem size), seen => by
    rw [Walk.ofGenericArg]
    · exact beside_ty h (.array elem size) (by simpa [GenericArg.argPaths] using seen)
    all_goals simp
  | .type (.compound form parts), seen => by
    rw [Walk.ofGenericArg]
    · exact beside_ty h (.compound form parts) (by simpa [GenericArg.argPaths] using seen)
    all_goals simp
  | .lifetime id name, _ => by
    rw [Walk.ofGenericArg]
    split
    · exact beside_nothing
    · exact beside_cons (beside_resolvePath_of_ne h (by simp) _ none)
        beside_nothing
  | .const value, _ => by
    rw [Walk.ofGenericArg]
    exact beside_const h.alike value

theorem beside_genericArgs (h : AsideFromVariables tables stack stack') :
    (args : List GenericArg) →
    (∀ path ∈ GenericArg.argPathsOf args, path.SeenAlike tables stack stack') →
    Beside (Just stack stack') (Just stack stack') (follow tables (Walk.ofGenericArgs args))
      (follow tables (Walk.ofGenericArgs args))
  | [], _ => by
    rw [Walk.ofGenericArgs]
    exact beside_nothing
  | arg :: args, seen => by
    rw [GenericArg.argPathsOf] at seen
    rw [Walk.ofGenericArgs]
    exact beside_append
      (beside_genericArg h arg fun path mem => seen path (List.mem_append_left _ mem))
      (beside_genericArgs h args fun path mem => seen path (List.mem_append_right _ mem))

theorem beside_ty (h : AsideFromVariables tables stack stack') : (ty : Ty) →
    (∀ path ∈ ty.argPaths, path.SeenAlike tables stack stack') →
    Beside (Just stack stack') (Just stack stack') (follow tables (Walk.ofTy ty))
      (follow tables (Walk.ofTy ty))
  | .path path args, seen => by
    rw [Ty.argPaths] at seen
    rw [Walk.ofTy]
    exact beside_cons (beside_resolvePath_of_ne h (by simp) path none)
      (beside_genericArgs h args seen)
  | .array elem size, seen => by
    rw [Ty.argPaths] at seen
    rw [Walk.ofTy]
    exact beside_append (beside_ty h elem seen) (beside_const h.alike size)
  | .compound form parts, seen => by
    rw [Ty.argPaths] at seen
    rw [Walk.ofTy]
    exact beside_tys h parts seen

theorem beside_tys (h : AsideFromVariables tables stack stack') : (tys : List Ty) →
    (∀ path ∈ Ty.argPathsOf tys, path.SeenAlike tables stack stack') →
    Beside (Just stack stack') (Just stack stack') (follow tables (Walk.ofTys tys))
      (follow tables (Walk.ofTys tys))
  | [], _ => by
    rw [Walk.ofTys]
    exact beside_nothing
  | ty :: tys, seen => by
    rw [Ty.argPathsOf] at seen
    rw [Walk.ofTys]
    exact beside_append (beside_ty h ty fun path mem => seen path (List.mem_append_left _ mem))
      (beside_tys h tys fun path mem => seen path (List.mem_append_right _ mem))

end

end

end Resolving

namespace Session

open Resolving

/-- What a type comes to does not depend on the variables around it, but for names that stand alone
    as generic arguments. Let two stacks of scopes over the tables of a program differ in nothing
    but variables, and let each such name that could be an item among values be seen as a variable
    in both or in neither. Then in both the type comes to the same fault, or it is left with the
    same records and with the same reports but for what they suggest. -/
theorem types_ignore_variables {config : Config} {program : Program} {log log' : Log}
    {reported : List Diagnostic} {built : Session}
    (run : (new config).build program log = .ok (reported, built) log') {stack stack' : ScopeStack}
    (known : stack.Bound built.tree) (alike : stack.AlikeButVariables stack') (ty : Ty)
    (seen : ∀ path ∈ ty.argPaths, path.SeenAlike built.tables stack stack')
    (resolutions : Std.TreeMap NodeId Resolution) (diagnostics : List Diagnostic) :
    Logged.Agree (fun p p' => p.2.resolutions = p'.2.resolutions ∧
        p.2.diagnostics.map Diagnostic.bare = p'.2.diagnostics.map Diagnostic.bare ∧
        p.2.scopes = stack ∧ p'.2.scopes = stack')
      (follow built.tables (.ofTy ty) ⟨stack, resolutions, diagnostics⟩)
      (follow built.tables (.ofTy ty) ⟨stack', resolutions, diagnostics⟩) := by
  obtain ⟨sound, -⟩ := sound_of_build run
  have both := beside_ty ⟨sound.intact, known, alike⟩ ty seen ⟨stack, resolutions, diagnostics⟩
    ⟨stack', resolutions, diagnostics⟩ ⟨⟨rfl, rfl⟩, rfl, rfl⟩
  intro log₁ log₁'
  refine (both log₁ log₁').mono fun p p' ⟨_, beside⟩ => ?_
  exact ⟨beside.resolutions, beside.diagnostics, beside.scopes⟩

/-- A constant that serves as an argument:

        struct Buffer<T>;
        const SIZE; -/
def sized : Program :=
  ⟨⟨0⟩, ⟨0, 30⟩,
    [.struct ⟨⟨1⟩, false, ⟨1, 1⟩⟩ ⟨"Buffer", ⟨1, 1⟩⟩ [.type ⟨2⟩ ⟨"T", ⟨2, 1⟩⟩ none] [],
    .const ⟨⟨3⟩, false, ⟨3, 1⟩⟩ ⟨"SIZE", ⟨3, 1⟩⟩ none none]⟩

/-- The type `Buffer<SIZE>`. -/
def buffer : Ty :=
  .path ⟨⟨10⟩, false, [⟨.name "Buffer", ⟨10, 1⟩⟩], true⟩
    [.type (.path ⟨⟨11⟩, false, [⟨.name "SIZE", ⟨11, 1⟩⟩], false⟩ [])]

/-- Inside a function that has bound nothing yet. -/
def inFunction : ScopeStack := ScopeStack.new.push (.new .func none none)

/-- The same place, behind a `let` of this name. -/
def behindLet (name : String) : ScopeStack := inFunction.define .value name ⟨20⟩

theorem bound_inFunction {tree : ModuleTree} (valid : tree.Valid) : inFunction.Bound tree := by
  intro scope mem module eq
  have mem : scope ∈ [Scope.new .func none none, .new .root (some .root) none] := mem
  rcases List.mem_pair.mp mem with rfl | rfl
  · cases eq
  · cases eq
    exact valid.known_root

/-- Where a variable of the name `size` is around the type `Buffer<SIZE>` comes to the same as where
    there is none. -/
theorem types_ignore_variables_of_size :
    ∃ reported built log, (new {}).build sized .empty = .ok (reported, built) log ∧
      ∃ p p' log₁ log₂,
        follow built.tables (.ofTy buffer) ⟨inFunction, ∅, []⟩ log = .ok p log₁ ∧
        follow built.tables (.ofTy buffer) ⟨behindLet "size", ∅, []⟩ log₁ = .ok p' log₂ ∧
        p.2.resolutions[(⟨11⟩ : NodeId)]? = some (.definition ⟨3⟩) ∧
        p'.2.resolutions = p.2.resolutions := by
  have checked : ∃ r log₂, ((new {}).build sized >>= fun p => do
      let first ← follow p.2.tables (.ofTy buffer) ⟨inFunction, ∅, []⟩
      return (p, first,
        ← follow p.2.tables (.ofTy buffer) ⟨behindLet "size", ∅, []⟩)) .empty = .ok r log₂ ∧
        decide (r.2.1.2.resolutions[(⟨11⟩ : NodeId)]? = some (.definition ⟨3⟩)) = true :=
    Logged.exists_of_check (by decide +kernel)
  obtain ⟨⟨⟨reported, built⟩, first, second⟩, log₂, all, holds⟩ := checked
  obtain ⟨_, log, run, follows⟩ := Logged.bind_eq_ok.mp all
  obtain ⟨_, log₁, inFirst, follows⟩ := Logged.bind_eq_ok.mp follows
  obtain ⟨_, _, inSecond, last⟩ := Logged.bind_eq_ok.mp follows
  cases last
  obtain ⟨sound, -⟩ := sound_of_build run
  have agree := types_ignore_variables run (bound_inFunction sound.intact.validTree)
    (.define inFunction "size" ⟨20⟩) buffer (fun path mem ident lone _ _ => ?_) ∅ []
  · refine ⟨reported, built, log, run, first, second, log₁, log₂, inFirst, inSecond,
      of_decide_eq_true holds, ?_⟩
    exact (Logged.of_agree (agree log log₁) inFirst inSecond).1.symm
  · cases List.mem_singleton.mp (show path ∈ [_] from mem)
    cases lone
    exact iff_of_false (not_exists.mpr (Tables.not_sees_of_barrier rfl (by decide)))
      (not_exists.mpr (Tables.not_sees_of_barrier rfl (by decide +kernel)))

/-- Where a variable has the name of the constant, the argument is not the constant any more, and
    there is an error. -/
theorem argument_depends_on_variable :
    inFunction.AlikeButVariables (behindLet "SIZE") ∧
    ∃ built log, (new {}).build sized .empty = .ok ([], built) log ∧
      inFunction.Bound built.tree ∧
      ∃ p p' log₁ log₂,
        follow built.tables (.ofTy buffer) ⟨inFunction, ∅, []⟩ log = .ok p log₁ ∧
        follow built.tables (.ofTy buffer) ⟨behindLet "SIZE", ∅, []⟩ log₁ = .ok p' log₂ ∧
        p.2.resolutions[(⟨11⟩ : NodeId)]? = some (.definition ⟨3⟩) ∧
        p'.2.resolutions[(⟨11⟩ : NodeId)]? = some .error ∧
        p.2.diagnostics = [] ∧
        p'.2.diagnostics.map Diagnostic.bare = [.unresolvedName "SIZE" .type ⟨11, 1⟩ [] none] := by
  refine ⟨.define _ _ _, ?_⟩
  have checked : ∃ r log₂, ((new {}).build sized >>= fun p => do
      let first ← follow p.2.tables (.ofTy buffer) ⟨inFunction, ∅, []⟩
      return (p, first,
        ← follow p.2.tables (.ofTy buffer) ⟨behindLet "SIZE", ∅, []⟩)) .empty = .ok r log₂ ∧
        decide (r.1.1 = [] ∧ r.2.1.2.resolutions[(⟨11⟩ : NodeId)]? = some (.definition ⟨3⟩) ∧
          r.2.2.2.resolutions[(⟨11⟩ : NodeId)]? = some .error ∧ r.2.1.2.diagnostics = [] ∧
          r.2.2.2.diagnostics.map Diagnostic.bare =
            [.unresolvedName "SIZE" .type ⟨11, 1⟩ [] none]) = true :=
    Logged.exists_of_check (by decide +kernel)
  obtain ⟨⟨⟨reported, built⟩, first, second⟩, log₂, all, holds⟩ := checked
  obtain ⟨_, log, run, follows⟩ := Logged.bind_eq_ok.mp all
  obtain ⟨_, log₁, inFirst, follows⟩ := Logged.bind_eq_ok.mp follows
  obtain ⟨_, _, inSecond, last⟩ := Logged.bind_eq_ok.mp follows
  cases last
  obtain ⟨rfl, holds⟩ := of_decide_eq_true holds
  obtain ⟨sound, -⟩ := sound_of_build run
  exact ⟨built, log, run, bound_inFunction sound.intact.validTree, first, second, log₁, log₂,
    inFirst, inSecond, holds⟩

end Session

end NameResolution
