import NameResolution.Proofs.Resolution.Records
import NameResolution.Proofs.Tables.Sorts

/-! # What paths come to

    A path ends with a definition that is no alias and that may stand where the
    path stands: it is something of the namespace the last name is looked up in,
    or what the word at the end stands for. With the labels of a call it is no
    function but one that has been declared with these labels: names stand for
    functions only by way of sets, and none of the words does. -/

namespace NameResolution

/-! ## Searches that give something -/

/-- What holds of the result of a search, if it gives one. -/
def Gives {α : Type} (m : PathSearch α) (post : α → Prop) : Prop :=
  ∀ warnings, Yields True (m.run.run warnings) fun p => ∀ a, p.1 = .ok a → post a

namespace Gives

variable {α β : Type} {m : PathSearch α} {f : α → PathSearch β}

theorem pure {a : α} {post : α → Prop} (h : post a) : Gives (Pure.pure a) post := by
  rintro warnings _ ⟨⟩
  exact h

theorem throw (d : Diagnostic) (post : α → Prop) :
    Gives (MonadExcept.throw d : PathSearch α) post := by
  rintro warnings _ ⟨⟩

theorem bind {post : α → Prop} {post' : β → Prop} (h : Gives m post)
    (h' : ∀ a, post a → Gives (f a) post') : Gives (m >>= f) post' := by
  intro warnings
  show Yields True (m.run.run warnings >>= fun p => (ExceptT.bindCont f p.1).run p.2) _
  rw [Yields.bind_iff]
  apply (h warnings).mono
  rintro ⟨r, warnings'⟩ gives
  cases r with
  | error d => rintro _ ⟨⟩
  | ok a => exact h' a (gives a rfl) warnings'

theorem lift {result : Except Fault α} {post : α → Prop} (h : Yields True result post) :
    Gives (liftM result : PathSearch α) post := by
  intro warnings
  cases result with
  | error fault => trivial
  | ok a =>
    rintro _ ⟨⟩
    exact h

theorem mono {post post' : α → Prop} (h : Gives m post) (imp : ∀ a, post a → post' a) :
    Gives m post' :=
  fun warnings => (h warnings).mono fun _ gives a eq => imp a (gives a eq)

/-- Nothing is asked of the result. -/
theorem trivial (m : PathSearch α) : Gives m fun _ => True :=
  fun _ => Yields.trivial_of_true fun _ _ _ => True.intro

end Gives

/-! ## Sorts -/

/-- Kinds that may stand for something in a namespace. A variant also serves as a value. -/
def DefKind.Serves (kind : DefKind) (ns : Namespace) : Prop :=
  kind.namespace? = some ns ∨ ns = .value ∧ kind = .variant

theorem DefKind.Serves.ne_importAlias {kind : DefKind} {ns : Namespace} (h : kind.Serves ns) :
    kind ≠ .importAlias := by
  rintro rfl
  rcases h with h | ⟨-, h⟩ <;> cases h

/-- A definition that is there is one of some sort. -/
def Definitions.Defines (defs : Definitions) (what : Definition → Prop) (id : DefId) : Prop :=
  ∃ d, defs.find? id = some d ∧ what d

theorem Definitions.Defines.mono {defs : Definitions} {what what' : Definition → Prop} {id : DefId}
    (h : defs.Defines what id) (imp : ∀ d, what d → what' d) : defs.Defines what' id := by
  obtain ⟨d, found, holds⟩ := h
  exact ⟨d, found, imp d holds⟩

/-- What a name may stand for that is looked up in a namespace. With the labels of a call, it is no
    function but one that has been declared with them. -/
structure Named (labels : NodeId → String → Prop) (ns : Namespace) (suffix : Option String)
    (d : Definition) : Prop where
  serves : d.kind.Serves ns
  labelled : ∀ {label : String}, suffix = some label → d.kind = .func ∨ d.kind = .init →
    labels d.node label

/-- What a path of some segments may come to. -/
structure Target (labels : NodeId → String → Prop) (ns : Namespace) (suffix : Option String)
    (segments : List Segment) (d : Definition) : Prop where
  notAlias : d.kind ≠ .importAlias
  serves : ∀ {segment : Segment} {ident : Ident}, segments.getLast? = some segment →
    segment.ident? = some ident → d.kind.Serves ns
  selfItem : ∀ {segment : Segment}, segments = [segment] → segment.kind = .selfType →
    d.kind.isSelfItem = true
  labelled : ∀ {label : String}, suffix = some label → d.kind = .func ∨ d.kind = .init →
    labels d.node label

theorem Named.target {labels : NodeId → String → Prop} {ns : Namespace} {suffix : Option String}
    {segments : List Segment} {d : Definition} (h : Named labels ns suffix d)
    (notSelf : ∀ segment, segments = [segment] → segment.kind ≠ .selfType) :
    Target labels ns suffix segments d where
  notAlias := h.serves.ne_importAlias
  serves _ _ := h.serves
  selfItem alone isSelf := absurd isSelf (notSelf _ alone)
  labelled := h.labelled

/-- What a word stands for is no function. -/
theorem Target.of_word {labels : NodeId → String → Prop} {ns : Namespace} {suffix : Option String}
    {segments : List Segment} {d : Definition} (notCallable : d.kind.isCallable = false)
    (word : ∀ segment, segments.getLast? = some segment → segment.ident? = none)
    (selfItem : ∀ segment, segments = [segment] → segment.kind = .selfType →
      d.kind.isSelfItem = true) : Target labels ns suffix segments d where
  notAlias isAlias := by
    rw [isAlias] at notCallable
    cases notCallable
  serves last isName := by
    rw [word _ last] at isName
    cases isName
  selfItem alone isSelf := selfItem _ alone isSelf
  labelled _ isFunc := by
    rcases isFunc with isFunc | isFunc <;>
    · rw [isFunc] at notCallable
      cases notCallable

namespace Tables

variable {labels : NodeId → String → Prop} {tables : Tables} {suffix : Option String}
  {ns : Namespace} {origin module : ModuleId} {name : String} {stack : ScopeStack}

/-! ## Names -/

/-- What a name may be bound to that is looked up in a namespace. -/
def Serves (tables : Tables) (ns : Namespace) (binding : Binding) : Prop :=
  binding.Sorted tables.defs ns ∨
    ns = .value ∧ binding.Sorted tables.defs .type ∧ tables.isVariant binding = .ok true

theorem serves_of_findMember (sorted : WellSorted labels tables.defs tables.tree) :
    Yields True (tables.findMember module ns name) fun found =>
      ∀ binding, found = some binding → tables.Serves ns binding := by
  unfold findMember
  simp only [Yields.bind_iff]
  refine Yields.true_iff.mpr fun m got => ?_
  have found := ModuleTree.find?_of_get got
  split
  · next binding bound =>
    rintro _ ⟨⟩
    exact .inl (sorted.bindings ((ModuleTree.bindingAt?_of_find? found ..).trans bound))
  · split
    · next binding bound =>
      simp only [Yields.bind_iff, Yields.pure_iff]
      refine Yields.true_iff.mpr fun isVariant tested other eq => ?_
      split at eq
      · next both =>
        cases eq
        simp only [Bool.and_eq_true, beq_iff_eq] at both
        obtain ⟨rfl, rfl⟩ := both
        exact .inr ⟨rfl, sorted.bindings ((ModuleTree.bindingAt?_of_find? found ..).trans bound),
          tested⟩
      · cases eq
    · rintro _ ⟨⟩

theorem variant_of_isVariant {binding : Binding} (isVariant : tables.isVariant binding = .ok true) :
    ∃ id, tables.finalDefinition? binding = some id ∧
      tables.defs.Defines (·.kind = .variant) id := by
  unfold Tables.isVariant at isVariant
  split at isVariant
  · next id final =>
    obtain ⟨d, got, isTrue⟩ := Except.bind_eq_ok.mp isVariant
    have kind : d.kind = .variant := by simpa using Except.ok.inj isTrue
    exact ⟨id, final, d, Definitions.find?_of_get got, kind⟩
  · cases isVariant

/-- What a single definition stands for is something of the namespace, and no function. -/
theorem Serves.finallyIs (sound : Sound labels (tables.defs, tables.tree)) {binding : Binding}
    (serves : tables.Serves ns binding) {target : DefId}
    (names : binding = .definition target ∨ binding = .imported target) :
    tables.defs.FinallyIs target fun d => d.kind.Serves ns ∧ d.kind.isCallable = false := by
  have valid : tables.defs.Valid := sound.intact.validDefs
  rcases serves with sorted | ⟨rfl, sorted, isVariant⟩
  · obtain ⟨final, d, resolved, found, sort, notCallable⟩ :=
      sorted.finallyIs names valid sound.sorted.defs
    exact ⟨final, d, resolved, found, .inl sort, notCallable⟩
  · obtain ⟨final, isFinal, d, found, kind⟩ := variant_of_isVariant isVariant
    have holds : d.kind.Serves .value ∧ d.kind.isCallable = false := by
      rw [kind]
      exact ⟨.inr ⟨rfl, rfl⟩, rfl⟩
    rcases names with rfl | rfl
    · cases isFinal
      exact Definitions.finallyIs_self valid found (sorted.noTarget sound.sorted.defs found) holds
    · cases resolved : tables.defs.resolveAlias target with
      | error chain =>
        rw [finalDefinition?, resolved] at isFinal
        cases isFinal
      | ok last =>
        rw [finalDefinition?, resolved] at isFinal
        cases isFinal
        exact ⟨_, d, resolved, found, holds⟩

/-- What a name stands for is in the end something of the namespace. -/
theorem gives_selectMember (sound : Sound labels (tables.defs, tables.tree)) {binding : Binding}
    (serves : tables.Serves ns binding) (ident : Ident) :
    Gives (tables.selectMember binding ident suffix) fun member =>
      tables.defs.FinallyIs member (Named labels ns suffix) := by
  have single {target : DefId}
      (names : binding = .definition target ∨ binding = .imported target) :
      tables.defs.FinallyIs target (Named labels ns suffix) := by
    obtain ⟨final, d, resolved, found, serves', notCallable⟩ := serves.finallyIs sound names
    refine ⟨final, d, resolved, found, serves', fun _ isFunc => ?_⟩
    rcases isFunc with isFunc | isFunc <;>
    · rw [isFunc] at notCallable
      cases notCallable
  cases binding with
  | definition id => exact .pure (single (.inl rfl))
  | imported id => exact .pure (single (.inr rfl))
  | overloads id =>
    -- only a value is bound to a set
    have isValue : ns = .value := by
      rcases serves with ⟨isValue, -⟩ | ⟨isValue, -⟩ <;> exact isValue
    refine .bind (.lift (Yields.true_iff.mpr fun set got => got)) ?_
    intro set got
    have held := Definitions.getElem?_of_overloadSet got
    have member {key : String} {id : DefId} (mem : set.get? key = some id)
        (asked : ∀ label, suffix = some label → label = key) :
        tables.defs.FinallyIs id (Named labels ns suffix) := by
      obtain ⟨final, d, resolved, found, isFunc, labelled⟩ := sound.sorted.defs.members held mem
      refine ⟨final, d, resolved, found, ?_, fun {label} isLabel _ => ?_⟩
      · rw [isValue]
        rcases isFunc with kind | kind <;> exact .inl (by rw [kind]; rfl)
      · rw [asked label isLabel]
        exact labelled
    dsimp only
    split
    · next label =>
      split
      · next id mem =>
        exact .pure (member mem fun other isLabel => (Option.some.inj isLabel).symm)
      · exact .throw _ _
    · split
      · next id isOnly =>
        obtain ⟨key, mem⟩ := OverloadSet.get?_of_single? isOnly
        exact .pure (member mem fun label isLabel => by cases isLabel)
      · exact .throw _ _

theorem gives_followAlias {member : DefId} {what : Definition → Prop}
    (finally' : tables.defs.FinallyIs member what) (ident : Ident) :
    Gives (tables.followAlias member ident) (tables.defs.Defines what) := by
  obtain ⟨final, d, resolved, found, holds⟩ := finally'
  unfold followAlias
  rw [resolved]
  exact .pure ⟨d, found, holds⟩

theorem variant_of_variantNamed (stack : ScopeStack) :
    Yields True (tables.variantNamed stack name) fun found =>
      ∀ id, found = some id → tables.defs.Defines (·.kind = .variant) id := by
  unfold variantNamed
  simp only [Yields.bind_iff]
  refine Yields.trivial_of_true fun found => ?_
  split
  · next module binding =>
    simp only [Yields.bind_iff, Yields.pure_iff]
    refine Yields.true_iff.mpr fun variant got id eq => ?_
    split at eq
    · next isTrue =>
      subst isTrue
      obtain ⟨final, isFinal, variant⟩ := variant_of_isVariant got
      rw [eq] at isFinal
      cases isFinal
      exact variant
    · cases eq
  · rintro _ ⟨⟩

/-! ## Members -/

/-- Members are followed over names alone, and what the last one comes to may be named so. -/
theorem gives_followMembers (sound : Sound labels (tables.defs, tables.tree))
    (segments : List Segment) (id : DefId) :
    Gives (tables.followMembers origin ns suffix id segments) fun r =>
      ∀ final, r = .definition final → segments = [] ∧ final = id ∨
        segments ≠ [] ∧ (∀ segment ∈ segments, segment.ident?.isSome) ∧
          tables.defs.Defines (Named labels ns suffix) final := by
  induction segments generalizing id with
  | nil =>
    unfold followMembers
    refine .pure ?_
    rintro _ ⟨⟩
    exact .inl ⟨rfl, rfl⟩
  | cons segment rest ih =>
    unfold followMembers
    split
    · exact .throw _ _
    · next ident isName =>
      have name : segment.ident?.isSome = true := by rw [isName]; rfl
      refine .bind (.trivial _) ?_
      intro definition _
      dsimp only
      cases tables.defs.module? id with
      | none =>
        rw [pure_bind]
        dsimp only
        split
        · exact .pure (by rintro _ ⟨⟩)
        · exact .throw _ _
      | some module =>
        refine .bind (.lift (serves_of_findMember sound.sorted)) ?_
        intro found serves
        cases found with
        | none =>
          dsimp only
          split
          · exact .pure (by rintro _ ⟨⟩)
          · exact .bind (.trivial _) fun _ _ => .throw _ _
        | some binding =>
          dsimp only
          refine .bind (gives_selectMember sound (serves binding rfl) ident) ?_
          intro member finally'
          refine .bind (.trivial _) ?_
          intro _ _
          refine .bind (gives_followAlias finally' ident) ?_
          intro last named
          refine Gives.mono (ih last) ?_
          intro r ends final eq
          refine .inr ⟨List.cons_ne_nil _ _, ?_⟩
          rcases ends final eq with ⟨rfl, rfl⟩ | ⟨-, names, named'⟩
          · exact ⟨by simpa using name, named⟩
          · exact ⟨List.forall_mem_cons.mpr ⟨name, names⟩, named'⟩

/-! ## The words -/

/-- The module belongs to a `mod`. -/
def IsMod (tables : Tables) (module : ModuleId) : Prop :=
  ∃ m, tables.tree.find? module = some m ∧ ModuleTree.isMod tables.defs m = .ok true

theorem isMod_of_enclosingMod (valid : tables.tree.Valid) (root : tables.IsMod .root) :
    Yields True (tables.tree.enclosingMod tables.defs module) tables.IsMod := by
  simp only [ModuleTree.enclosingMod, Yields.bind_iff]
  refine Yields.true_iff.mpr fun ms around => ?_
  obtain ⟨m, got, -⟩ := Except.bind_eq_ok.mp around
  obtain ⟨_, around', -, there⟩ :=
    Yields.false_iff.mp (valid.ancestors (ModuleTree.find?_of_get got))
  rw [around] at around'
  cases around'
  have each : ∀ m ∈ ms, Yields True (ModuleTree.isMod tables.defs m) fun isMod =>
      isMod = true → tables.IsMod m.id := by
    intro m mem
    refine Yields.true_iff.mpr fun isMod tested isTrue => ?_
    exact ⟨m, there m mem, by rw [tested, isTrue]⟩
  apply (Yields.findM? ms each).mono
  intro found isMod
  cases found with
  | some m => exact isMod m rfl
  | none => exact root

theorem mod_of_modDefinition (isMod : tables.IsMod module) :
    Yields True (tables.modDefinition module) (tables.defs.Defines (·.kind = .mod)) := by
  obtain ⟨m, found, isMod⟩ := isMod
  unfold modDefinition
  simp only [Yields.bind_iff, ModuleTree.get_of_find? found, Yields.ok_iff]
  unfold ModuleTree.isMod at isMod
  split
  · next id owner =>
    rw [owner] at isMod
    obtain ⟨d, got, isMod⟩ := Except.bind_eq_ok.mp isMod
    have kind : d.kind = .mod := by simpa using Except.ok.inj isMod
    exact ⟨d, Definitions.find?_of_get got, kind⟩
  · trivial

/-- To climb all the way takes one `super` after the other. -/
theorem gives_climb (valid : tables.tree.Valid) (root : tables.IsMod .root)
    (segments : List Segment) (isMod : tables.IsMod module) :
    Gives (tables.climb module segments) fun p =>
      tables.defs.Defines (·.kind = .mod) p.1 ∧
        (p.2 = [] → ∀ segment ∈ segments, segment.kind = .super) := by
  induction segments generalizing module with
  | nil =>
    unfold climb
    exact .bind (.lift (mod_of_modDefinition isMod)) fun id mod =>
      .pure ⟨mod, fun _ => List.forall_mem_nil _⟩
  | cons segment rest ih =>
    unfold climb
    split
    · next isSuper =>
      refine .bind (.trivial _) ?_
      intro m _
      split
      · refine .bind (.lift (isMod_of_enclosingMod valid root)) fun outer isMod => ?_
        refine Gives.mono (ih isMod) ?_
        rintro ⟨id, left⟩ ⟨mod, words⟩
        exact ⟨mod, fun atEnd => List.forall_mem_cons.mpr ⟨isSuper, words atEnd⟩⟩
      · exact .throw _ _
    · exact .bind (.lift (mod_of_modDefinition isMod)) fun id mod => .pure ⟨mod, by simp⟩

/-! ## Paths -/

/-- Where a path has come to after its first segment. If no segments are left, that is what the
    path comes to. -/
def StartTarget (labels : NodeId → String → Prop) (defs : Definitions) (ns : Namespace)
    (suffix : Option String) (first : Segment) (rest : List Segment) :
    Resolution ⊕ DefId × List Segment → Prop
  | .inl r => ∀ id, r = .definition id → defs.Defines (Target labels ns suffix (first :: rest)) id
  | .inr (id, left) =>
    (left = [] → defs.Defines (Target labels ns suffix (first :: rest)) id) ∧
      (first.kind = .selfType → left = rest)

theorem gives_resolveFirst (sound : Sound labels (tables.defs, tables.tree))
    (root : tables.IsMod .root) (items : SelfItems tables.defs stack.toList)
    (first : Segment) (rest : List Segment) :
    Gives (tables.resolveFirst stack ns suffix first rest)
      (StartTarget labels tables.defs ns suffix first rest) := by
  -- where the words are at the end, no name is
  have last {segment : Segment} (isWord : segment.ident? = none) :
      ∀ other, [segment].getLast? = some other → other.ident? = none := by
    rintro _ ⟨⟩
    exact isWord
  unfold resolveFirst
  split
  · next isSelf =>
    split
    · next id self =>
      obtain ⟨d, found, isSelfItem⟩ := items.innermost id self
      refine .pure ⟨?_, fun _ => rfl⟩
      rintro rfl
      refine ⟨d, found, .of_word ?_ (last (by simp [Segment.ident?, isSelf])) fun _ _ _ =>
        isSelfItem⟩
      cases kind : d.kind <;> rw [kind] at isSelfItem <;> first | rfl | cases isSelfItem
    · exact .throw _ _
  · next isSelfModule =>
    refine .bind (.lift (isMod_of_enclosingMod sound.intact.validTree root)) ?_
    intro module isMod
    refine .bind (.lift (mod_of_modDefinition isMod)) fun id mod => .pure ⟨?_, fun _ => rfl⟩
    rintro rfl
    refine mod.mono fun d kind => .of_word (by rw [kind]; rfl)
      (last (by simp [Segment.ident?, isSelfModule])) ?_
    rintro _ ⟨⟩ isSelf
    rw [isSelfModule] at isSelf
    cases isSelf
  · next isSuper =>
    refine .bind (.lift (isMod_of_enclosingMod sound.intact.validTree root)) ?_
    intro module isMod
    refine .bind (gives_climb sound.intact.validTree root _ isMod) ?_
    rintro ⟨id, left⟩ ⟨mod, words⟩
    refine .pure ⟨fun atEnd => mod.mono fun d kind => .of_word (by rw [kind]; rfl) ?_ ?_, ?_⟩
    · intro segment isLast
      simp [Segment.ident?, words atEnd segment (List.mem_of_getLast? isLast)]
    · rintro _ ⟨⟩ isSelf
      rw [isSuper] at isSelf
      cases isSelf
    · intro isSelf
      rw [isSuper] at isSelf
      cases isSelf
  · next name isName =>
    have notSelf : first.kind ≠ .selfType := by simp [isName]
    have alone : ∀ segment, first :: rest = [segment] → segment.kind ≠ .selfType := by
      rintro _ ⟨⟩
      exact notSelf
    refine .bind (.lift (bound_of_lookup sound.intact.validTree)) ?_
    intro found bound
    split
    · exact .pure (by rintro _ ⟨⟩)
    · next module binding =>
      have serves : tables.Serves (segmentNamespace ns rest) binding :=
        .inl (sound.sorted.bindings (bound module binding rfl))
      refine .bind (gives_selectMember sound serves _) ?_
      intro member finally'
      refine .bind (gives_followAlias finally' _) fun final named => .pure ⟨?_, fun isSelf =>
        absurd isSelf notSelf⟩
      rintro rfl
      exact named.mono fun d named => named.target alone
    · -- where nothing has the name, it may be a variant
      dsimp only
      split
      · next isValue =>
        refine .bind (.lift (variant_of_variantNamed stack)) ?_
        rintro (_ | id) variant
        · exact .bind (.trivial _) fun _ _ => .throw _ _
        · refine .pure ?_
          rintro _ ⟨⟩
          simp only [Bool.and_eq_true, beq_iff_eq] at isValue
          refine (variant id rfl).mono fun d kind => Named.target ⟨.inr ⟨isValue.2, kind⟩, ?_⟩ alone
          rintro _ _ (isFunc | isFunc) <;> cases kind.symm.trans isFunc
      · rw [pure_bind]
        exact .bind (.trivial _) fun _ _ => .throw _ _

/-- What a path comes to is a definition that may stand where the path stands. -/
theorem gives_resolvePath (sound : Sound labels (tables.defs, tables.tree))
    (root : tables.IsMod .root) (items : SelfItems tables.defs stack.toList) (path : Path) :
    Gives (tables.resolvePath stack ns path suffix) fun r => ∀ id, r = .definition id →
      tables.defs.Defines (Target labels ns suffix path.segments) id := by
  unfold resolvePath
  split
  · intro warnings
    trivial
  · next first rest split' =>
    rw [split']
    split
    · refine Gives.mono (gives_followMembers sound _ _) ?_
      intro r ends id eq
      rcases ends id eq with ⟨noSegments, -⟩ | ⟨-, names, named⟩
      · cases noSegments
      · refine named.mono fun d named => named.target ?_
        rintro _ ⟨⟩ isSelf
        have name := names first (List.mem_cons_self ..)
        simp [Segment.ident?, isSelf] at name
    · refine .bind (gives_resolveFirst sound root items first rest) ?_
      intro start target
      split
      · exact .pure target
      · next id left =>
        refine Gives.mono (gives_followMembers sound _ _) ?_
        intro r ends final eq
        rcases ends final eq with ⟨rfl, rfl⟩ | ⟨further, -, named⟩
        · exact target.1 rfl
        · refine named.mono fun d named => named.target ?_
          -- a path of one word ends with it
          rintro _ ⟨⟩ isSelf
          exact further (target.2 isSelf)

end Tables

end NameResolution
