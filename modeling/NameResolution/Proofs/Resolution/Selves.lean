import NameResolution.Proofs.Resolution.Targets
import NameResolution.Proofs.Text.Selves

/-! # What the second pass makes of `Self`

    The scopes hold what `Self` stands for, and the regions say the same. Where
    a path starts with the word, the search goes on from that definition or
    ends there, and no search for any other path ends with this error. So the
    errors about `Self` and `self` can be counted in the text. -/

namespace NameResolution

/-! ## The words -/

/-- The place of the word `Self` at the start of a path. An absolute path starts at the root. -/
def Path.self? (path : Path) : Option Span :=
  match path.segments with
  | ⟨.selfType, span⟩ :: _ => if path.global then none else some span
  | _ => none

/-- A node for `self`, or for a path that starts with `Self`. -/
inductive Role.SaysSelf : Role → Prop where
  | path {role : Role} {path : Path} {span : Span} (isPath : role.path? = some path)
      (isSelf : path.self? = some span) : SaysSelf role
  | selfValue {span : Span} : SaysSelf (.selfValue span)

/-- What is reported of `Self` or `self` at a node, unless it is inside an item that it stands
    for. -/
def Role.selfOutside? (role : Role) (isInside : Bool) : Option Diagnostic :=
  if isInside then none
  else
    match role with
    | .expr path | .pattern path | .type path | .typeArg path =>
      path.self?.map (.selfOutsideItem "Self")
    | .selfValue span => some (.selfOutsideItem "self" span)
    | _ => none

/-- Whether this is reported of `Self` or `self`. -/
def Diagnostic.isSelfOutside : Diagnostic → Bool
  | .selfOutsideItem .. => true
  | _ => false

/-- Of a node that resolves no path and is no `self`, nothing is reported about it. -/
theorem Role.selfOutside?_eq_none {role : Role} (noPath : role.path? = none)
    (noSelf : ∀ span, role ≠ .selfValue span) (isInside : Bool) :
    role.selfOutside? isInside = none := by
  unfold selfOutside?
  cases role with
  | selfValue span => exact absurd rfl (noSelf span)
  | expr | pattern | type | typeArg => cases noPath
  | _ => exact ite_self none

theorem Role.selfOutside?_of_path {role : Role} {path : Path} (isPath : role.path? = some path)
    (isInside : Bool) : role.selfOutside? isInside =
      if isInside then none else path.self?.map (.selfOutsideItem "Self") := by
  unfold selfOutside?
  cases role <;> cases isPath <;> rfl

/-! ## What the regions say -/

/-- What is to be defined in a program is defined as this kind of thing. -/
def Program.DefinedIn (program : Program) (defs : Definitions) : Prop :=
  ∀ entry ∈ program.entries, ∃ d, defs.ofNode? entry.node = some d.id ∧
    defs.find? d.id = some d ∧ d.kind = entry.kind

namespace Tables

variable (tables : Tables) {region : Region} {around : Regions}

theorem selfAt_of_noItem (noItem : region.item? = none) :
    tables.selfAt (region :: around) = tables.selfAt around := by
  obtain ⟨kind, owner, binders⟩ := region
  cases kind <;> cases owner <;> first | rfl | cases noItem

/-- Inside an item `Self` stands for what the definition of the item says. -/
theorem selfAt_of_item {node : NodeId} {d : Definition} (isItem : region.item? = some node)
    (ofNode : tables.defs.ofNode? node = some d.id) (found : tables.defs.find? d.id = some d) :
    tables.selfAt (region :: around) = Resolving.selfInside d (tables.selfAt around) := by
  obtain ⟨kind, owner, binders⟩ := region
  cases kind <;> cases owner <;> cases isItem
  rw [selfAt, ofNode, Option.bind_some, found]

end Tables

namespace Program.DefinedIn

variable {program : Program} {defs : Definitions} {node : NodeId} {d : Definition}

/-- What there is at a node is said by its definition. -/
theorem isOneOf_eq (h : program.DefinedIn defs)
    (named : ∃ entry ∈ program.entries, entry.node = node)
    (ofNode : defs.ofNode? node = some d.id) (found : defs.find? d.id = some d)
    (kinds : List DefKind) : program.isOneOf kinds node = kinds.contains d.kind := by
  -- all entries at the node have the kind of the one definition
  have kind {entry : Entry} (mem : entry ∈ program.entries) (here : entry.node = node) :
      entry.kind = d.kind := by
    obtain ⟨d', ofNode', found', kind⟩ := h entry mem
    rw [here, ofNode] at ofNode'
    rw [← Option.some.inj ofNode', found] at found'
    rw [← kind, Option.some.inj found']
  obtain ⟨entry, mem, here⟩ := named
  rw [Bool.eq_iff_iff, isOneOf, List.any_eq_true]
  constructor
  · rintro ⟨other, mem', same⟩
    rw [Bool.and_eq_true, beq_iff_eq] at same
    rw [← kind mem' same.1]
    exact same.2
  · intro listed
    refine ⟨entry, mem, ?_⟩
    rw [Bool.and_eq_true, beq_iff_eq, kind mem here]
    exact ⟨here, listed⟩

/-- What `Self` stands for in some regions is the item that the text says. -/
theorem selfAt_eq {tables : Tables} (h : program.DefinedIn tables.defs) {around : Regions}
    (named : ∀ node ∈ around.items, ∃ entry ∈ program.entries, entry.node = node) :
    tables.selfAt around = (program.selfItem? around).bind tables.defs.ofNode? := by
  induction around with
  | nil => rfl
  | cons region around ih =>
    cases isItem : region.item? with
    | none =>
      have items : Regions.items (region :: around) = Regions.items around :=
        List.filterMap_cons_none isItem
      rw [tables.selfAt_of_noItem isItem, selfItem?, items]
      exact ih (items ▸ named)
    | some node =>
      have items : Regions.items (region :: around) = node :: Regions.items around :=
        List.filterMap_cons_some isItem
      rw [items] at named
      obtain ⟨here, others⟩ := List.forall_mem_cons.mp named
      obtain ⟨entry, mem, rfl⟩ := here
      obtain ⟨d, ofNode, found, -⟩ := h entry mem
      have isSelf : program.isOneOf [.struct, .enum, .trait, .impl] entry.node =
          d.kind.isSelfItem := by
        rw [h.isOneOf_eq ⟨entry, mem, rfl⟩ ofNode found]
        cases d.kind <;> rfl
      have counts : program.isOneOf [.struct, .enum, .trait, .impl, .mod] entry.node =
          (d.kind.isSelfItem || d.kind == .mod) := by
        rw [h.isOneOf_eq ⟨entry, mem, rfl⟩ ofNode found]
        cases d.kind <;> rfl
      rw [tables.selfAt_of_item isItem ofNode found, ih others, selfItem?, selfItem?, items,
        List.find?_cons, counts]
      unfold Resolving.selfInside
      -- the item is meant itself, it is a `mod`, or it makes no difference
      cases self : d.kind.isSelfItem with
      | true => simp [Option.filter_some, isSelf.trans self, ofNode]
      | false =>
        by_cases isMod : d.kind = .mod
        · simp [Option.filter_some, isSelf.trans self, isMod]
        · simp [beq_eq_false_iff_ne.mpr isMod, isMod]

/-- The item that `Self` stands for is one that it may stand for. -/
theorem exists_of_selfItem (h : program.DefinedIn defs) {around : Regions}
    (item : program.selfItem? around = some node) :
    ∃ d, defs.ofNode? node = some d.id ∧ defs.find? d.id = some d ∧ d.kind.isSelfItem = true := by
  obtain ⟨isSelf, -⟩ := selfItem?_eq_some_iff.mp item
  obtain ⟨entry, mem, here⟩ := List.any_eq_true.mp isSelf
  obtain ⟨d, ofNode, found, kind⟩ := h entry mem
  rw [Bool.and_eq_true, beq_iff_eq] at here
  obtain ⟨rfl, listed⟩ := here
  rw [← kind] at listed
  refine ⟨d, ofNode, found, ?_⟩
  cases isKind : d.kind <;> first | rfl | simp [isKind] at listed

/-- `Self` stands for something in some regions if it does so in the text. -/
theorem isSome_selfAt {tables : Tables} (h : program.DefinedIn tables.defs) {around : Regions}
    (named : ∀ node ∈ around.items, ∃ entry ∈ program.entries, entry.node = node) :
    (tables.selfAt around).isSome = (program.selfItem? around).isSome := by
  rw [h.selfAt_eq named]
  cases item : program.selfItem? around with
  | none => rfl
  | some node =>
    obtain ⟨d, ofNode, -⟩ := h.exists_of_selfItem item
    rw [Option.bind_some, ofNode]
    rfl

end Program.DefinedIn

/-! ## Errors of a search -/

/-- What holds of the error of a search, if it ends with one. -/
def FailsWith {α : Type} (m : PathSearch α) (post : Diagnostic → Prop) : Prop :=
  ∀ warnings, Yields True (m.run.run warnings) fun p => ∀ d, p.1 = .error d → post d

namespace FailsWith

variable {α β : Type} {m : PathSearch α} {f : α → PathSearch β} {post : Diagnostic → Prop}

theorem pure (a : α) : FailsWith (Pure.pure a : PathSearch α) post := by
  rintro warnings d ⟨⟩

theorem throw {d : Diagnostic} (h : post d) :
    FailsWith (MonadExcept.throw d : PathSearch α) post := by
  rintro warnings _ ⟨⟩
  exact h

theorem lift (result : Except Fault α) : FailsWith (liftM result : PathSearch α) post := by
  intro warnings
  cases result with
  | error fault => trivial
  | ok a => rintro d ⟨⟩

theorem mono {post' : Diagnostic → Prop} (h : FailsWith m post) (imp : ∀ d, post d → post' d) :
    FailsWith m post' :=
  fun warnings => (h warnings).mono fun _ fails d eq => imp d (fails d eq)

theorem warn (d : Diagnostic) : FailsWith (modify (· ++ [d]) : PathSearch PUnit) post := by
  rintro warnings _ ⟨⟩

theorem bind_of_gives {given : α → Prop} (h : FailsWith m post) (gives : Gives m given)
    (h' : ∀ a, given a → FailsWith (f a) post) : FailsWith (m >>= f) post := by
  intro warnings
  show Yields True (m.run.run warnings >>= fun p => (ExceptT.bindCont f p.1).run p.2) _
  rw [Yields.bind_iff]
  refine Yields.true_iff.mpr fun p run => ?_
  have fails := Yields.true_iff.mp (h warnings) p run
  have given := Yields.true_iff.mp (gives warnings) p run
  obtain ⟨r, warnings'⟩ := p
  cases r with
  | error d =>
    rintro _ ⟨⟩
    exact fails d rfl
  | ok a => exact h' a (given a rfl) warnings'

theorem bind (h : FailsWith m post) (h' : ∀ a, FailsWith (f a) post) :
    FailsWith (m >>= f) post :=
  h.bind_of_gives (.trivial m) fun a _ => h' a

theorem of_run {d : Diagnostic} {warnings warnings' : List Diagnostic} (h : FailsWith m post)
    (run : m.run.run warnings = .ok (.error d, warnings')) : post d :=
  Yields.true_iff.mp (h warnings) _ run d rfl

/-- An error that is put together first. -/
theorem throw_lift {result : Except Fault Diagnostic} (h : Yields True result post) :
    FailsWith (liftM result >>= fun d => MonadExcept.throw d : PathSearch α) post :=
  .bind_of_gives (.lift result) (.lift h) fun _ => .throw

theorem mapM (xs : List α) (h : ∀ a, FailsWith (f a) post) : FailsWith (xs.mapM f) post := by
  induction xs with
  | nil =>
    rw [List.mapM_nil]
    exact .pure _
  | cons a xs ih =>
    rw [List.mapM_cons]
    exact .bind (h a) fun _ => .bind ih fun _ => .pure _

end FailsWith

namespace Tables

variable (tables : Tables)

theorem yields_unresolvedMember_other (module : ModuleId) (ident : Ident) (ns : Namespace) :
    Yields True (tables.unresolvedMember module ident ns) (·.isSelfOutside = false) := by
  simp only [unresolvedMember, Yields.bind_iff, Yields.pure_iff]
  exact Yields.trivial_of_true fun _ => Yields.trivial_of_true fun _ => rfl

theorem yields_unresolvedLexical_other (stack : ScopeStack) (ident : Ident) (ns : Namespace) :
    Yields True (tables.unresolvedLexical stack ident ns) (·.isSelfOutside = false) := by
  simp only [unresolvedLexical, Yields.bind_iff, Yields.pure_iff]
  exact Yields.trivial_of_true fun _ => rfl

theorem failsWith_selectMember {post : Diagnostic → Prop} (binding : Binding) (ident : Ident)
    (suffix : Option String)
    (mismatch : ∀ name suffix span available help,
      post (.suffixMismatch name suffix span available help))
    (ambiguous : ∀ name span available help, post (.ambiguousOverload name span available help)) :
    FailsWith (tables.selectMember binding ident suffix) post := by
  unfold selectMember
  split
  · exact .pure _
  · exact .pure _
  · refine .bind (.lift _) fun set => ?_
    dsimp only
    split
    · split
      · exact .pure _
      · exact .throw (mismatch ..)
    · split
      · exact .pure _
      · exact .throw (ambiguous ..)

theorem failsWith_followAlias {post : Diagnostic → Prop} (id : DefId) (ident : Ident)
    (cycle : ∀ name span text, post (.importCycle name span text)) :
    FailsWith (tables.followAlias id ident) post := by
  unfold followAlias
  split
  · exact .pure _
  · exact .bind (.mapM _ fun _ => .bind (.lift _) fun _ => .pure _) fun _ => .throw (cycle ..)

/-- The check of a member does not fail. -/
theorem failsWith_checkPrivacy {post : Diagnostic → Prop} (origin owner : ModuleId)
    (member : DefId) (ident : Ident) :
    FailsWith (tables.checkPrivacy origin owner member ident) post := by
  unfold checkPrivacy
  split
  · refine .bind (.lift _) fun inside => ?_
    split
    · exact .pure _
    · refine .bind (.lift _) fun isPub => ?_
      split
      · exact .pure _
      · exact .bind (.lift _) fun _ => .bind (.lift _) fun _ => .warn _
  · exact .pure _

theorem failsWith_followMembers (origin : ModuleId) (ns : Namespace) (suffix : Option String)
    (id : DefId) (segments : List Segment) :
    FailsWith (tables.followMembers origin ns suffix id segments) (·.isSelfOutside = false) := by
  induction segments generalizing id with
  | nil =>
    unfold followMembers
    exact .pure _
  | cons segment rest ih =>
    unfold followMembers
    split
    · exact .throw rfl
    · refine .bind (.lift _) fun d => ?_
      cases tables.defs.module? id with
      | none =>
        dsimp only [pure_bind]
        split
        · exact .pure _
        · exact .throw rfl
      | some module =>
        refine .bind (.lift _) fun found => ?_
        cases found with
        | some binding =>
          refine .bind (failsWith_selectMember tables _ _ _ (fun _ _ _ _ _ => rfl)
            fun _ _ _ _ => rfl) fun member => ?_
          exact .bind (failsWith_checkPrivacy tables _ _ _ _) fun _ =>
            .bind (failsWith_followAlias tables _ _ fun _ _ _ => rfl) ih
        | none =>
          dsimp only
          split
          · exact .pure _
          · exact .throw_lift (yields_unresolvedMember_other tables _ _ _)

/-- Climbing fails at a `super` only. -/
theorem failsWith_climb_word (module : ModuleId) (segments : List Segment) :
    FailsWith (tables.climb module segments) fun d => ∃ segment ∈ segments, ∃ help,
      segment.ident? = none ∧ d = .unresolvedName segment.kind.text .type segment.span [] help := by
  induction segments generalizing module with
  | nil =>
    unfold climb
    exact .bind (.lift _) fun _ => .pure _
  | cons segment rest ih =>
    unfold climb
    split
    · next isSuper =>
      refine .bind (.lift _) fun m => ?_
      split
      · refine .bind (.lift _) fun outer => .mono (ih outer) fun d failed => ?_
        obtain ⟨other, mem, said⟩ := failed
        exact ⟨other, List.mem_cons_of_mem _ mem, said⟩
      · obtain ⟨kind, span⟩ := segment
        obtain rfl : kind = .super := isSuper
        exact .throw ⟨_, List.mem_cons_self .., _, rfl, rfl⟩
    · exact .bind (.lift _) fun _ => .pure _

theorem failsWith_climb (module : ModuleId) (segments : List Segment) :
    FailsWith (tables.climb module segments) (·.isSelfOutside = false) := by
  refine .mono (failsWith_climb_word tables module segments) ?_
  rintro _ ⟨segment, -, help, -, rfl⟩
  rfl

/-- Only at the word itself it is an error that there is no item around. -/
theorem failsWith_resolveFirst (stack : ScopeStack) (ns : Namespace) (suffix : Option String)
    {first : Segment} (other : first.kind ≠ .selfType) (rest : List Segment) :
    FailsWith (tables.resolveFirst stack ns suffix first rest) (·.isSelfOutside = false) := by
  unfold resolveFirst
  split
  · next isSelf => exact absurd isSelf other
  · exact .bind (.lift _) fun _ => .bind (.lift _) fun _ => .pure _
  · exact .bind (.lift _) fun _ => .bind (failsWith_climb tables _ _) fun _ => .pure _
  · refine .bind (.lift _) fun found => ?_
    split
    · exact .pure _
    · refine .bind (failsWith_selectMember tables _ _ _ (fun _ _ _ _ _ => rfl)
        fun _ _ _ _ => rfl) fun member => ?_
      exact .bind (failsWith_followAlias tables _ _ fun _ _ _ => rfl) fun _ => .pure _
    · dsimp only
      split
      · refine .bind (.lift _) fun variant => ?_
        split
        · exact .pure _
        · exact .throw_lift (yields_unresolvedLexical_other tables _ _ _)
      · rw [pure_bind]
        exact .throw_lift (yields_unresolvedLexical_other tables _ _ _)

/-- A path that starts with `Self` goes on from what this stands for. -/
theorem resolvePath_of_self (stack : ScopeStack) (ns : Namespace) {path : Path} {span : Span}
    (isSelf : path.self? = some span) (suffix : Option String) :
    tables.resolvePath stack ns path suffix =
      match stack.innermost.selfItem with
      | some id => tables.followMembers stack.nearestModule ns suffix id path.segments.tail
      | none => throw (.selfOutsideItem "Self" span) := by
  unfold Path.self? at isSelf
  split at isSelf
  · next rest segments =>
    split at isSelf
    · cases isSelf
    · next relative =>
      cases isSelf
      unfold resolvePath
      rw [segments]
      simp only [relative, Bool.false_eq_true, if_false, resolveFirst, List.tail_cons]
      cases stack.innermost.selfItem <;> rfl
  · cases isSelf

theorem failsWith_resolvePath (stack : ScopeStack) (ns : Namespace) {path : Path}
    (other : path.self? = none) (suffix : Option String) :
    FailsWith (tables.resolvePath stack ns path suffix) (·.isSelfOutside = false) := by
  unfold resolvePath
  split
  · exact fun _ => trivial
  · next first rest segments =>
    split
    · exact failsWith_followMembers tables _ _ _ _ _
    · next relative =>
      have notSelf : first.kind ≠ .selfType := by
        intro isSelf
        obtain ⟨kind, span⟩ := first
        cases isSelf
        simp [Path.self?, segments, relative] at other
      refine .bind (failsWith_resolveFirst tables stack ns suffix notSelf rest) fun start => ?_
      split
      · exact .pure _
      · exact failsWith_followMembers tables _ _ _ _ _

end Tables

/-! ## Occurrences of the words -/

namespace Resolving

variable {tables : Tables} {s s' s₁ s₂ : ResolveState} {log log' : Log}

/-- What a part of the second pass makes of `Self` and `self` in some occurrences: an error for
    each of them that is not inside an item, in order, and a record for each `self`. -/
structure SelfTold (tables : Tables) (occs : List Occurrence) (s s' : ResolveState) : Prop where
  reported : s'.diagnostics.filter (·.isSelfOutside) =
    s.diagnostics.filter (·.isSelfOutside) ++
      occs.filterMap fun occ => occ.role.selfOutside? (tables.selfAt occ.around).isSome
  recorded : ∀ occ ∈ occs, ∀ span, occ.role = .selfValue span →
    s'.resolutions[occ.node]? = some (((tables.selfAt occ.around).map .definition).getD .error)

namespace SelfTold

variable {occs others : List Occurrence}

theorem nothing (same : s'.diagnostics = s.diagnostics) : SelfTold tables [] s s' where
  reported := by rw [same, List.filterMap_nil, List.append_nil]
  recorded := List.forall_mem_nil _

/-- A node that is for something else. -/
theorem of_other {occ : Occurrence} (noPath : occ.role.path? = none)
    (noSelf : ∀ span, occ.role ≠ .selfValue span)
    (same : s'.diagnostics.filter (·.isSelfOutside) = s.diagnostics.filter (·.isSelfOutside)) :
    SelfTold tables [occ] s s' where
  reported := by
    have unreported := Role.selfOutside?_eq_none noPath noSelf (tables.selfAt occ.around).isSome
    simp only [same, List.filterMap_cons, unreported, List.filterMap_nil, List.append_nil]
  recorded := List.forall_mem_singleton.mpr fun span isSelf => absurd isSelf (noSelf span)

theorem append (h : SelfTold tables occs s s₁) (h' : SelfTold tables others s₁ s')
    (stays : Stays tables s₁ s') : SelfTold tables (occs ++ others) s s' where
  reported := by rw [h'.reported, h.reported, List.append_assoc, List.filterMap_append]
  recorded occ mem span isSelf := by
    rcases List.mem_append.mp mem with mem | mem
    · exact stays.recorded (h.recorded occ mem span isSelf)
    · exact h'.recorded occ mem span isSelf

/-- Entering and leaving a scope changes nothing about it. -/
theorem of_moves (first : Moves s s₁) (h : SelfTold tables occs s₁ s₂) (last : Moves s₂ s') :
    SelfTold tables occs s s' where
  reported := by rw [last.2, h.reported, first.2]
  recorded := by
    rw [last.1]
    exact h.recorded

end SelfTold

theorem run_leave_moves : Run True leave s log fun _ s' _ => Moves s s' := by
  simp only [leave, lift, Run.bind_iff, Run.get_iff, Run.lift_iff, Run.set_iff]
  exact Yields.trivial_of_true fun _ => ⟨rfl, rfl⟩

/-- The only thing that is reported of a path because of `Self` is that it stands for nothing. -/
theorem reported_of_resolvePath (intact : Intact tables.defs tables.tree) {around : Regions}
    (stands : Stands tables s.scopes around) (ns : Namespace) {path : Path}
    (spelled : path.segments ≠ []) (suffix : Option String)
    {result : Except Diagnostic Resolution} {warnings : List Diagnostic}
    (came : (tables.resolvePath s.scopes ns path suffix).run.run [] = .ok (result, warnings)) :
    (warnings ++ errorsOf result).filter (·.isSelfOutside) =
      (if (tables.selfAt around).isSome then none
        else path.self?.map (.selfOutsideItem "Self")).toList := by
  -- warnings are about private members, and this is an error
  have onlyWarnings : warnings.filter (·.isSelfOutside) = [] := by
    have yields := yields_resolvePath intact stands spelled ns suffix
    rw [came] at yields
    refine List.filter_eq_nil_iff.mpr fun warning mem isOutside => ?_
    have noError := List.filter_eq_nil_iff.mp yields.1 warning mem
    cases warning with
    | selfOutsideItem _ _ => exact noError rfl
    | _ => cases isOutside
  -- behind the first segment, and for any other path, it is not reported
  have spared {search : PathSearch Resolution}
      (fails : FailsWith search (·.isSelfOutside = false))
      (came : search.run.run [] = .ok (result, warnings)) :
      (errorsOf result).filter (·.isSelfOutside) = [] := by
    cases result with
    | ok r => rfl
    | error d => simp [errorsOf, fails.of_run came]
  rw [List.filter_append, onlyWarnings, List.nil_append]
  cases isSelf : path.self? with
  | none =>
    rw [spared (tables.failsWith_resolvePath s.scopes ns isSelf suffix) came, Option.map_none,
      ite_self]
    rfl
  | some span =>
    rw [tables.resolvePath_of_self s.scopes ns isSelf, stands.innermost_selfItem] at came
    cases item : tables.selfAt around with
    | some id =>
      rw [item] at came
      exact spared (tables.failsWith_followMembers _ _ _ _ _) came
    | none =>
      rw [item] at came
      cases came
      rfl

/-- A step that resolves a path, for a node of which `Self` is reported like of the path. -/
theorem run_resolvePath_told (intact : Intact tables.defs tables.tree) {around : Regions}
    (stands : Stands tables s.scopes around) (ns : Namespace) {path : Path}
    (spelled : path.segments ≠ []) (suffix : Option String) {node : NodeId} {role : Role}
    (alike : ∀ isInside, role.selfOutside? isInside =
      if isInside then none else path.self?.map (.selfOutsideItem "Self"))
    (noSelf : ∀ span, role ≠ .selfValue span) :
    Run True (resolvePath tables ns path suffix) s log fun _ s' _ =>
      SelfTold tables [⟨node, role, around⟩] s s' := by
  apply (run_resolvePath_records ns path suffix).mono
  rintro _ s' _ ⟨-, result, warnings, came, rfl⟩
  refine ⟨?_, List.forall_mem_singleton.mpr fun span isSelf => absurd isSelf (noSelf span)⟩
  rw [List.filter_append, reported_of_resolvePath intact stands ns spelled suffix came, ← alike]
  cases reported : role.selfOutside? (tables.selfAt around).isSome <;> simp [reported]

/-- A step that refers to something. -/
theorem run_refers_told (intact : Intact tables.defs tables.tree) {around : Regions}
    (stands : Stands tables s.scopes around) {step' : WalkStep} {node : NodeId} {role : Role}
    (refers : Refers step' node role)
    (spelled : ∀ path, role.path? = some path → path.segments ≠ []) :
    Run True (step tables step') s log fun _ s' _ =>
      SelfTold tables [⟨node, role, around⟩] s s' := by
  cases refers with
  | @expr path suffix | @pattern path | @type path =>
    exact run_resolvePath_told intact stands _ (spelled path rfl) _
      (fun _ => Role.selfOutside?_of_path rfl _) (by rintro _ ⟨⟩)
  | field | lifetime =>
    exact run_resolvePath_told intact stands _ (List.cons_ne_nil _ _) _ (fun _ => rfl)
      (by rintro _ ⟨⟩)
  | @typeArg path =>
    simp only [step, lift, Run.bind_iff, Run.get_iff, Run.lift_iff]
    exact Yields.trivial_of_true fun isValue => run_resolvePath_told intact stands _
      (spelled path rfl) _ (fun _ => Role.selfOutside?_of_path rfl _) (by rintro _ ⟨⟩)
  | @selfValue node span =>
    simp only [step, Run.bind_iff, Run.get_iff, stands.innermost_selfItem]
    cases item : tables.selfAt around with
    | some id =>
      apply (run_record_fresh node (.definition id)).mono
      rintro _ _ _ ⟨-, rfl⟩
      refine ⟨by simp [Role.selfOutside?, item], List.forall_mem_singleton.mpr fun _ _ => ?_⟩
      simp [item]
    | none =>
      apply (run_report_record _ node .error).mono
      rintro _ _ _ ⟨-, rfl⟩
      refine ⟨?_, List.forall_mem_singleton.mpr fun _ _ => ?_⟩
      · simp [Role.selfOutside?, item, List.filter_append, Diagnostic.isSelfOutside]
      · simp [item]

/-- Whatever else comes up, nothing is reported about `Self`. -/
theorem run_bindOrMatch_told {around : Regions} (ident : Ident) (node : NodeId) :
    Run True (step tables (.bindOrMatch ident node)) s log fun _ s' _ =>
      SelfTold tables [⟨node, .bareName ident, around⟩] s s' := by
  simp only [step, lift, Run.bind_iff, Run.get_iff, Run.lift_iff]
  refine Yields.trivial_of_true fun variant => ?_
  cases variant with
  | some id =>
    apply (run_record_fresh node (.definition id)).mono
    rintro _ _ _ ⟨-, rfl⟩
    exact .of_other rfl (by rintro _ ⟨⟩) rfl
  | none =>
    simp only [bindLocal, Run.bind_iff, Run.emit_iff, Run.modify_iff]
    exact .of_other rfl (by rintro _ ⟨⟩) rfl

/-- What is between entering and leaving a scope is told as it is without them. -/
theorem exists_of_follow_within {first : WalkStep} {walk : Walk}
    (run : follow tables (Walk.within first walk) s log = .ok ((), s') log') :
    ∃ s₁ log₁ s₂ log₂, step tables first s log = .ok ((), s₁) log₁ ∧
      follow tables walk s₁ log₁ = .ok ((), s₂) log₂ ∧ Moves s₂ s' := by
  have steps : follow tables (Walk.within first walk) =
      step tables first >>= fun _ => follow tables (walk ++ [.leave]) := rfl
  rw [steps, follow_append] at run
  obtain ⟨_, s₁, log₁, enters, run⟩ := Run.bind_eq_ok.mp run
  obtain ⟨_, s₂, log₂, inside, leaves⟩ := Run.bind_eq_ok.mp run
  have last : follow tables [.leave] = leave >>= fun _ => pure ⟨⟩ := rfl
  rw [last] at leaves
  obtain ⟨_, s₃, log₃, leaves, ended⟩ := Run.bind_eq_ok.mp leaves
  cases ended
  exact ⟨s₁, log₁, s₂, log₂, enters, inside, Run.of_ok run_leave_moves leaves⟩

theorem told_of_singleton {step' : WalkStep} {occs : List Occurrence}
    (run : follow tables [step'] s log = .ok ((), s') log')
    (told : Run True (step tables step') s log fun _ s' _ => SelfTold tables occs s s') :
    SelfTold tables occs s s' := by
  have single : follow tables [step'] = step tables step' >>= fun _ => pure ⟨⟩ := rfl
  rw [single] at run
  obtain ⟨_, s₁, log₁, first, ended⟩ := Run.bind_eq_ok.mp run
  cases ended
  exact Run.of_ok told first

/-- A walk through occurrences tells of each of them. -/
theorem told_of_follow (intact : Intact tables.defs tables.tree) {around after : Regions}
    {walk : Walk} {occs : List Occurrence} (traces : Traces around walk occs after)
    (awaited : Awaited tables occs s) (stands : Stands tables s.scopes around)
    (run : follow tables walk s log = .ok ((), s') log') : SelfTold tables occs s s' := by
  induction traces generalizing s s' log log' with
  | nothing =>
    cases run
    exact .nothing rfl
  | silent silent =>
    cases run
    cases silent <;> exact .of_other rfl (by rintro _ ⟨⟩) rfl
  | refer refers =>
    exact told_of_singleton run
      (run_refers_told intact stands refers (awaited.spelled _ (List.mem_singleton_self _)))
  | bind =>
    refine told_of_singleton run ?_
    simp only [step, bindLocal, Run.bind_iff, Run.emit_iff, Run.modify_iff]
    exact .of_other rfl (by rintro _ ⟨⟩) rfl
  | bareName => exact told_of_singleton run (run_bindOrMatch_told _ _)
  | @plain around kind walk occs binders inner ih =>
    obtain ⟨s₁, log₁, s₂, log₂, enters, inside, leaves⟩ := exists_of_follow_within run
    obtain ⟨stands₁, moves⟩ := Run.of_ok (run_enterPlain stands kind) enters
    exact .of_moves moves (ih (awaited.moves moves) stands₁ inside) leaves
  | @within around inside step node role walk occs binders opens inner ih =>
    obtain ⟨s₁, log₁, s₂, log₂, enters, through, leaves⟩ := exists_of_follow_within run
    obtain ⟨stands₁, moves⟩ := Run.of_ok
      (run_opens intact opens (awaited.linked _ (List.mem_cons_self ..)) stands) enters
    have told : SelfTold tables occs s s' :=
      .of_moves moves (ih (awaited.tail.moves moves) stands₁ through) leaves
    -- the node that opens the scope comes first, and it is for something else
    have here : SelfTold tables [⟨node, role, around⟩] s s := by
      cases opens <;> exact .of_other rfl (by rintro _ ⟨⟩) rfl
    exact here.append told (Run.of_ok (run_follow_stays intact.validDefs _) run)
  | @append around middle after first second occs others h h' ih ih' =>
    rw [follow_append] at run
    obtain ⟨_, s₁, log₁, front, back⟩ := Run.bind_eq_ok.mp run
    obtain ⟨stands₁, resolves⟩ := Run.of_ok (awaited.left.follows intact h stands) front
    have stays : Stays tables s₁ s' := Run.of_ok (run_follow_stays intact.validDefs second) back
    exact (ih awaited.left stands front).append (ih' (awaited.right resolves) stands₁ back) stays

end Resolving

end NameResolution
