import NameResolution.Proofs.Resolution.Warnings

/-! # Tables with other visibilities

    Whether a definition is `pub` is asked in one place of the whole search: where
    a member has been selected and it is to be decided whether to warn of it. So
    with any other visibilities a path comes to the same result, or to the same
    error. -/

namespace NameResolution

/-- The same definition with another visibility. -/
def Definition.withVisibility (visible : Definition → Bool) (d : Definition) : Definition :=
  { d with isPub := visible d }

/-- The same definitions with other visibilities. -/
def Definitions.withVisibility (visible : Definition → Bool) (defs : Definitions) : Definitions :=
  { defs with entries := defs.entries.map (·.withVisibility visible) }

/-- The same tables with other visibilities. -/
def Tables.withVisibility (visible : Definition → Bool) (tables : Tables) : Tables :=
  { tables with defs := tables.defs.withVisibility visible }

/-! ## What visibility is not asked for -/

namespace Definitions

variable (defs : Definitions) (visible : Definition → Bool)

@[simp] theorem size_withVisibility : (defs.withVisibility visible).size = defs.size :=
  Array.size_map

@[simp] theorem find?_withVisibility (id : DefId) :
    (defs.withVisibility visible).find? id = (defs.find? id).map (·.withVisibility visible) :=
  Array.getElem?_map

@[simp] theorem get_withVisibility (id : DefId) :
    (defs.withVisibility visible).get id = (·.withVisibility visible) <$> defs.get id := by
  unfold get
  rw [find?_withVisibility]
  cases defs.find? id <;> rfl

/-- What is read of a definition is the same, unless it is the visibility. -/
theorem get_bind_withVisibility {α : Type} {f : Definition → Except Fault α} (id : DefId)
    (same : ∀ d, f (d.withVisibility visible) = f d) :
    (defs.withVisibility visible).get id >>= f = defs.get id >>= f := by
  rw [get_withVisibility]
  cases defs.get id with
  | ok d => exact same d
  | error fault => rfl

@[simp] theorem target?_withVisibility (id : DefId) :
    (defs.withVisibility visible).target? id = defs.target? id := by
  unfold target?
  rw [find?_withVisibility]
  cases defs.find? id <;> rfl

@[simp] theorem resolveAlias_withVisibility (id : DefId) :
    (defs.withVisibility visible).resolveAlias id = defs.resolveAlias id := by
  have follows (steps : Nat) (passed : List DefId) (id : DefId) :
      (defs.withVisibility visible).followTargets steps passed id =
        defs.followTargets steps passed id := by
    induction steps generalizing passed id with
    | zero =>
      unfold followTargets
      rw [target?_withVisibility]
    | succ steps ih =>
      unfold followTargets
      simp only [target?_withVisibility, ih]
  unfold resolveAlias
  rw [follows, size_withVisibility]

end Definitions

namespace ModuleTree

variable (tree : ModuleTree) (defs : Definitions) (visible : Definition → Bool)

@[simp] theorem isMod_withVisibility : isMod (defs.withVisibility visible) = isMod defs := by
  funext m
  unfold isMod
  cases m.owner with
  | block _ => rfl
  | definition id => exact Definitions.get_bind_withVisibility defs visible id fun _ => rfl

@[simp] theorem enclosingMod_withVisibility (id : ModuleId) :
    tree.enclosingMod (defs.withVisibility visible) id = tree.enclosingMod defs id := by
  unfold enclosingMod
  rw [isMod_withVisibility]

end ModuleTree

@[simp] theorem Module.name_withVisibility (m : Module) (defs : Definitions)
    (visible : Definition → Bool) : m.name (defs.withVisibility visible) = m.name defs := by
  unfold name
  cases m.owner with
  | block _ => rfl
  | definition id => exact Definitions.get_bind_withVisibility defs visible id fun _ => rfl

namespace Tables

section

variable (tables : Tables) (visible : Definition → Bool)

@[simp] theorem searchScopes_withVisibility (ns : Namespace) (name : String) (hidden : Bool)
    (scopes : List Scope) : (tables.withVisibility visible).searchScopes ns name hidden scopes =
      tables.searchScopes ns name hidden scopes := by
  induction scopes generalizing hidden with
  | nil => rfl
  | cons scope scopes ih =>
    simp only [searchScopes, ih]
    rfl

@[simp] theorem lookup_withVisibility (stack : ScopeStack) (ns : Namespace) (name : String) :
    (tables.withVisibility visible).lookup stack ns name = tables.lookup stack ns name := by
  simp only [lookup, searchScopes_withVisibility]
  rfl

@[simp] theorem finalDefinition?_withVisibility (binding : Binding) :
    (tables.withVisibility visible).finalDefinition? binding = tables.finalDefinition? binding := by
  cases binding with
  | definition id | overloads id => rfl
  | imported id =>
    show ((tables.defs.withVisibility visible).resolveAlias id).toOption = _
    rw [Definitions.resolveAlias_withVisibility]
    rfl

@[simp] theorem isVariant_withVisibility (binding : Binding) :
    (tables.withVisibility visible).isVariant binding = tables.isVariant binding := by
  unfold isVariant
  rw [finalDefinition?_withVisibility]
  cases tables.finalDefinition? binding with
  | none => rfl
  | some id => exact Definitions.get_bind_withVisibility tables.defs visible id fun _ => rfl

@[simp] theorem variantNamed_withVisibility (stack : ScopeStack) (name : String) :
    (tables.withVisibility visible).variantNamed stack name = tables.variantNamed stack name := by
  simp only [variantNamed, lookup_withVisibility, isVariant_withVisibility,
    finalDefinition?_withVisibility]

@[simp] theorem findMember_withVisibility (module : ModuleId) (ns : Namespace) (name : String) :
    (tables.withVisibility visible).findMember module ns name =
      tables.findMember module ns name := by
  simp only [findMember, isVariant_withVisibility]
  rfl

@[simp] theorem describe_withVisibility (binding : Binding) :
    (tables.withVisibility visible).describe binding = tables.describe binding := by
  have kind (id : DefId) :
      ((tables.withVisibility visible).defs.get id >>= fun d => pure d.kind.description) =
        (tables.defs.get id >>= fun d => pure d.kind.description : Except Fault String) :=
    Definitions.get_bind_withVisibility tables.defs visible id fun _ => rfl
  simp only [describe, finalDefinition?_withVisibility, kind]

@[simp] theorem unresolvedLexical_withVisibility (stack : ScopeStack) (ident : Ident)
    (ns : Namespace) : (tables.withVisibility visible).unresolvedLexical stack ident ns =
      tables.unresolvedLexical stack ident ns := by
  have described : (tables.withVisibility visible).describeFound = tables.describeFound := by
    funext found
    cases found with
    | localVar node => rfl
    | item module binding => exact describe_withVisibility tables visible binding
  simp only [unresolvedLexical, lookup_withVisibility, described]
  rfl

@[simp] theorem unresolvedMember_withVisibility (module : ModuleId) (ident : Ident)
    (ns : Namespace) : (tables.withVisibility visible).unresolvedMember module ident ns =
      tables.unresolvedMember module ident ns := by
  simp only [unresolvedMember, describe_withVisibility]
  rfl

@[simp] theorem selectMember_withVisibility (binding : Binding) (ident : Ident)
    (suffix : Option String) : (tables.withVisibility visible).selectMember binding ident suffix =
      tables.selectMember binding ident suffix := by
  cases binding <;> rfl

@[simp] theorem followAlias_withVisibility (id : DefId) (ident : Ident) :
    (tables.withVisibility visible).followAlias id ident = tables.followAlias id ident := by
  have named : (fun link => do
      return (← liftM ((tables.withVisibility visible).defs.get link) : Definition).ident.name :
        DefId → PathSearch String) =
      fun link => do return (← liftM (tables.defs.get link) : Definition).ident.name := by
    funext link
    show (liftM ((tables.defs.withVisibility visible).get link) >>= _ : PathSearch String) = _
    rw [Definitions.get_withVisibility]
    cases tables.defs.get link <;> rfl
  have resolved : (tables.withVisibility visible).defs.resolveAlias id =
      tables.defs.resolveAlias id := Definitions.resolveAlias_withVisibility tables.defs visible id
  simp only [followAlias, resolved, named]

@[simp] theorem climb_withVisibility (module : ModuleId) (segments : List Segment) :
    (tables.withVisibility visible).climb module segments = tables.climb module segments := by
  have outward (id : ModuleId) : (tables.withVisibility visible).tree.enclosingMod
      (tables.withVisibility visible).defs id = tables.tree.enclosingMod tables.defs id :=
    ModuleTree.enclosingMod_withVisibility tables.tree tables.defs visible id
  induction segments generalizing module with
  | nil => rfl
  | cons segment rest ih =>
    simp only [climb, outward, ih]
    rfl

@[simp] theorem resolveFirst_withVisibility (stack : ScopeStack) (ns : Namespace)
    (suffix : Option String) (first : Segment) (rest : List Segment) :
    (tables.withVisibility visible).resolveFirst stack ns suffix first rest =
      tables.resolveFirst stack ns suffix first rest := by
  have outward (id : ModuleId) : (tables.withVisibility visible).tree.enclosingMod
      (tables.withVisibility visible).defs id = tables.tree.enclosingMod tables.defs id :=
    ModuleTree.enclosingMod_withVisibility tables.tree tables.defs visible id
  simp only [resolveFirst, outward, lookup_withVisibility, selectMember_withVisibility,
    followAlias_withVisibility, climb_withVisibility, variantNamed_withVisibility,
    unresolvedLexical_withVisibility]
  rfl

end

end Tables

/-! ## Two searches with one result -/

/-- Two searches that come to the same fault, to the same result or to the same error, whatever
    they warn of. -/
def PathSearch.SameResult {α : Type} (m m' : PathSearch α) : Prop :=
  ∀ warnings warnings', Agree (fun p p' => p.1 = p'.1) (m.run.run warnings) (m'.run.run warnings')

namespace PathSearch.SameResult

variable {α β : Type} {m m' : PathSearch α} {f f' : α → PathSearch β}

theorem of_silent (h : Silent m) : SameResult m m := by
  intro warnings warnings'
  obtain ⟨outcome, runs⟩ := h
  rw [runs, runs]
  cases outcome with
  | ok r => exact .ok rfl
  | error fault => exact .fault fault

theorem bind_of_gives {post : α → Prop} (h : SameResult m m') (gives : Gives m post)
    (h' : ∀ a, post a → SameResult (f a) (f' a)) : SameResult (m >>= f) (m' >>= f') := by
  intro warnings warnings'
  show Agree _ (m.run.run warnings >>= fun p => (ExceptT.bindCont f p.1).run p.2)
    (m'.run.run warnings' >>= fun p => (ExceptT.bindCont f' p.1).run p.2)
  have given := gives warnings
  have same := h warnings warnings'
  cases run : m.run.run warnings with
  | error fault =>
    rw [run] at same
    cases run' : m'.run.run warnings' with
    | ok p =>
      rw [run'] at same
      cases same
    | error fault' =>
      rw [run'] at same
      cases same
      exact .fault _
  | ok p =>
    rw [run] at same given
    cases run' : m'.run.run warnings' with
    | error fault =>
      rw [run'] at same
      cases same
    | ok p' =>
      rw [run'] at same
      obtain ⟨r, warnings₁⟩ := p
      obtain ⟨r', warnings₁'⟩ := p'
      cases same with
      | ok eq =>
        cases eq
        cases r with
        | ok a => exact h' a (given a rfl) warnings₁ warnings₁'
        | error d => exact .ok rfl

end PathSearch.SameResult

/-- What a search comes to is what it gives. -/
theorem Searches.gives {α : Type} {spans : List Span} {m : PathSearch α} {post : α → Prop}
    (h : Searches spans m post) : Gives m post := by
  intro warnings
  obtain ⟨⟨r, warnings'⟩, run, -, ended⟩ := Yields.false_iff.mp (h warnings)
  rw [run]
  rintro a rfl
  exact ended

namespace Tables

variable {tables : Tables} {stack : ScopeStack} {origin owner : ModuleId} {ns : Namespace}
  {suffix : Option String} {path : Path} {id member : DefId}
  (intact : Intact tables.defs tables.tree)

include intact

/-- Whether there is a warning is all that visibility decides. -/
theorem sameResult_checkPrivacy (visible : Definition → Bool) (known : tables.tree.Known origin)
    (known' : tables.tree.Known owner) (known'' : tables.defs.Known member) (ident : Ident) :
    PathSearch.SameResult (tables.checkPrivacy origin owner member ident)
      ((tables.withVisibility visible).checkPrivacy origin owner member ident) := by
  obtain ⟨m, found⟩ := known'.find?
  obtain ⟨d, found'⟩ := known''.find?
  obtain ⟨within, inside⟩ := exists_isWithin intact known owner
  obtain ⟨name, named, -⟩ := Yields.false_iff.mp (intact.name found)
  have isPub : tables.defs.isPub member = .ok d.isPub := by
    unfold Definitions.isPub
    rw [Definitions.get_of_find? found']
    rfl
  have isPub' : (tables.defs.withVisibility visible).isPub member = .ok (visible d) := by
    unfold Definitions.isPub
    rw [Definitions.get_withVisibility, Definitions.get_of_find? found']
    rfl
  have named' : m.name (tables.defs.withVisibility visible) = .ok name := by
    rw [Module.name_withVisibility, named]
  have inside' : (tables.withVisibility visible).tree.isWithin origin owner = .ok within := inside
  intro warnings warnings'
  rw [run_checkPrivacy inside isPub found named ident,
    run_checkPrivacy inside' isPub' found named' ident]
  exact .ok rfl

theorem sameResult_followMembers (visible : Definition → Bool)
    (known : tables.tree.Known origin) (segments : List Segment) (known' : tables.defs.Known id) :
    PathSearch.SameResult (tables.followMembers origin ns suffix id segments)
      ((tables.withVisibility visible).followMembers origin ns suffix id segments) := by
  induction segments generalizing id with
  | nil =>
    unfold followMembers
    exact .of_silent (.pure _)
  | cons segment rest ih =>
    unfold followMembers
    cases isName : segment.ident? with
    | none => exact .of_silent (.throw _)
    | some ident =>
      obtain ⟨d, found⟩ := known'.find?
      -- of the definition only the kind and the name are read
      have got : (tables.withVisibility visible).defs.get id =
          .ok (d.withVisibility visible) := by
        show (tables.defs.withVisibility visible).get id = _
        rw [Definitions.get_withVisibility, Definitions.get_of_find? found]
        rfl
      have kind : (d.withVisibility visible).kind = d.kind := rfl
      have named : (d.withVisibility visible).ident = d.ident := rfl
      dsimp only
      rw [got, Definitions.get_of_find? found]
      simp only [PathSearch.lift_ok, pure_bind, kind, named]
      cases home : tables.defs.module? id with
      | none =>
        have home' : (tables.withVisibility visible).defs.module? id = none := home
        rw [home']
        dsimp only
        split
        · exact .of_silent (.pure _)
        · exact .of_silent (.throw _)
      | some module =>
        have home' : (tables.withVisibility visible).defs.module? id = some module := home
        have there := intact.modules home
        rw [home']
        dsimp only
        rw [findMember_withVisibility]
        refine .bind_of_gives (.of_silent (.lift _))
          (.lift (Yields.true_iff.mpr fun found eq => eq)) fun found eq => ?_
        cases found with
        | none =>
          dsimp only
          split
          · exact .of_silent (.pure _)
          · rw [unresolvedMember_withVisibility]
            exact .of_silent (.bind (.lift _) fun _ => .throw _)
        | some binding =>
          -- the member is selected and followed in the same way, and the check goes through
          have good := yields_findMember intact there (segmentNamespace ns rest) ident.name
          rw [eq] at good
          obtain ⟨ns', good⟩ := good binding rfl
          dsimp only
          rw [selectMember_withVisibility]
          refine .bind_of_gives (.of_silent (silent_selectMember tables _ _ _))
            (searches_selectMember intact good (List.mem_singleton_self _) _).gives
            fun member known'' => ?_
          refine .bind_of_gives (sameResult_checkPrivacy intact visible known there known'' ident)
            (.trivial _) fun _ _ => ?_
          have follows : Searches [] (tables.followAlias member ident) tables.defs.Known :=
            searches_followAlias intact known'' ident
          rw [followAlias_withVisibility]
          exact .bind_of_gives (.of_silent (silent_followAlias tables _ _)) follows.gives
            fun final known' => ih known'

/-- Over tables with other visibilities a path comes to the same result, or to the same error. -/
theorem sameResult_resolvePath (visible : Definition → Bool) (placed : stack.Placed tables) :
    PathSearch.SameResult (tables.resolvePath stack ns path suffix)
      ((tables.withVisibility visible).resolvePath stack ns path suffix) := by
  have nearest := placed.known_nearest intact
  unfold resolvePath
  cases path.segments with
  | nil => exact fun _ _ => .fault _
  | cons first rest =>
    dsimp only
    split
    · exact sameResult_followMembers intact visible nearest (first :: rest) intact.known_root
    · rw [resolveFirst_withVisibility]
      refine .bind_of_gives (.of_silent (silent_resolveFirst tables _ _ _ _ _))
        (searches_resolveFirst_of_placed intact placed ns suffix first rest).gives
        fun start known => ?_
      rcases start with resolution | ⟨id, left⟩
      · exact .of_silent (.pure _)
      · exact sameResult_followMembers intact visible nearest left known

end Tables

end NameResolution
