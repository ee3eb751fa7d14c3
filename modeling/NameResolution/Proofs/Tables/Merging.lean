import NameResolution.Proofs.Tables.Consistency

/-! # Merging sets of functions

    Functions are imported one by one, and each that goes in is in the way of
    those that follow. As a set has each suffix once, none that follow are
    touched, and what the whole import does can be told from what the two sets
    have been at its start. -/

namespace NameResolution

/-! ## Suffixes -/

namespace OverloadSet

variable {set : OverloadSet} {members : List (String × DefId)} {suffix : String} {id : DefId}

/-- Of some functions, those whose suffix a set does not have. -/
def missing (set : OverloadSet) (members : List (String × DefId)) : List (String × DefId) :=
  members.filter fun m => (set.get? m.1).isNone

/-- Of the suffixes of some functions, those that a set has, with the function it has there. -/
def clashes (set : OverloadSet) (members : List (String × DefId)) : List (String × DefId) :=
  members.filterMap fun m => (set.get? m.1).map (m.1, ·)

/-- A set has each suffix once. -/
theorem nodup_toList (set : OverloadSet) : (set.toList.map Prod.fst).Nodup := by
  unfold toList
  rw [Std.TreeMap.map_fst_toList_eq_keys]
  exact Std.TreeMap.nodup_keys

theorem get?_insert (set : OverloadSet) (suffix : String) (id : DefId) (other : String) :
    (set.insert suffix id).get? other = if suffix = other then some id else set.get? other := by
  split
  · next same =>
    subst same
    exact get?_insert_self ..
  · next ne => exact get?_insert_of_ne set ne id

/-- A function that goes in does not matter to those with other suffixes. -/
theorem missing_insert (absent : suffix ∉ members.map Prod.fst) :
    (set.insert suffix id).missing members = set.missing members := by
  refine List.filter_congr fun m mem => ?_
  have ne : suffix ≠ m.1 := fun same => absent (same ▸ List.mem_map_of_mem mem)
  rw [get?_insert_of_ne set ne]

theorem clashes_insert (absent : suffix ∉ members.map Prod.fst) :
    (set.insert suffix id).clashes members = set.clashes members := by
  refine List.filterMap_congr fun m mem => ?_
  have ne : suffix ≠ m.1 := fun same => absent (same ▸ List.mem_map_of_mem mem)
  rw [get?_insert_of_ne set ne]

theorem missing_cons_of_taken {target first : DefId} (taken : set.get? suffix = some first) :
    set.missing ((suffix, target) :: members) = set.missing members :=
  List.filter_cons_of_neg (by simp [taken])

theorem missing_cons_of_free {target : DefId} (free : set.get? suffix = none) :
    set.missing ((suffix, target) :: members) = (suffix, target) :: set.missing members :=
  List.filter_cons_of_pos (by simp [free])

theorem clashes_cons_of_taken {target first : DefId} (taken : set.get? suffix = some first) :
    set.clashes ((suffix, target) :: members) = (suffix, first) :: set.clashes members :=
  List.filterMap_cons_some (by simp [taken])

theorem clashes_cons_of_free {target : DefId} (free : set.get? suffix = none) :
    set.clashes ((suffix, target) :: members) = set.clashes members :=
  List.filterMap_cons_none (by simp [free])

end OverloadSet

namespace Definitions

variable {defs defs' : Definitions}

/-! ## What is offered -/

/-- The functions of a set that an import may take, in the order of their suffixes. -/
def offered (defs : Definitions) (set : OverloadSet) (publicOnly : Bool) : List (String × DefId) :=
  set.toList.filter fun m => !publicOnly || (defs.find? m.2).any (·.isPub)

theorem isPub_of_known {id : DefId} (known : defs.Known id) :
    defs.isPub id = .ok ((defs.find? id).any (·.isPub)) := by
  obtain ⟨d, found⟩ := known.find?
  rw [isPub, get_of_find? found, found]
  rfl

theorem importable_eq {set : OverloadSet} (known : ∀ m ∈ set.toList, defs.Known m.2)
    (publicOnly : Bool) : defs.importable set publicOnly = .ok (defs.offered set publicOnly) := by
  cases publicOnly with
  | false => simp [importable, offered, pure, Except.pure]
  | true =>
    rw [importable, if_pos rfl, offered]
    simp only [Bool.not_true, Bool.false_or]
    exact filterM_of_ok fun m mem => isPub_of_known (known m mem)

theorem nodup_offered (set : OverloadSet) (publicOnly : Bool) :
    ((defs.offered set publicOnly).map Prod.fst).Nodup :=
  set.nodup_toList.sublist (List.filter_sublist.map _)

/-! ## What comes of it -/

/-- What there is after functions have been imported into a set that has been as `before`. -/
structure Merges (defs : Definitions) (isPub : Bool) (node : NodeId) (into : OverloadId)
    (before : OverloadSet) (members : List (String × DefId)) (defs' : Definitions) : Prop where
  /-- The set has what it had, and one new definition for each suffix it did not have -/
  holds : ∃ after, defs'.overloadSet into = .ok after ∧ ∀ suffix id, after.get? suffix = some id ↔
    before.get? suffix = some id ∨
      ∃ k target, (before.missing members)[k]? = some (suffix, target) ∧ id = ⟨defs.size + k⟩
  /-- It is an alias, and names the function itself, even if that is an alias in turn -/
  aliases : ∀ k suffix target, (before.missing members)[k]? = some (suffix, target) →
    ∃ d, defs.find? target = some d ∧ defs'.find? ⟨defs.size + k⟩ =
      some ⟨⟨defs.size + k⟩, .importAlias, d.ident, isPub, node, some target⟩
  /-- No more has been defined -/
  size : defs'.size = defs.size + (before.missing members).length
  old : ∀ id, defs.Known id → defs'.find? id = defs.find? id
  others : ∀ other : OverloadId, other ≠ into →
    defs'.overloads[other.index]? = defs.overloads[other.index]?
  byNode : defs'.byNode = defs.byNode
  modules : defs'.modules = defs.modules
  blocks : defs'.blocks = defs.blocks

namespace Merges

variable {isPub : Bool} {node : NodeId} {into : OverloadId} {before : OverloadSet}
  {members : List (String × DefId)} {suffix : String} {target : DefId}

theorem nil (held : defs.overloads[into.index]? = some before) :
    defs.Merges isPub node into before [] defs where
  holds := ⟨before, overloadSet_of_getElem? held, by simp [OverloadSet.missing]⟩
  aliases := by simp [OverloadSet.missing]
  size := rfl
  old _ _ := rfl
  others _ _ := rfl
  byNode := rfl
  modules := rfl
  blocks := rfl

/-- A function whose suffix is taken leaves no trace. -/
theorem skip {first : DefId} (taken : before.get? suffix = some first)
    (h : defs.Merges isPub node into before members defs') :
    defs.Merges isPub node into before ((suffix, target) :: members) defs' := by
  have same : before.missing ((suffix, target) :: members) = before.missing members :=
    OverloadSet.missing_cons_of_taken taken
  exact ⟨same ▸ h.holds, same ▸ h.aliases, same ▸ h.size, h.old, h.others, h.byNode, h.modules,
    h.blocks⟩

/-- A function whose suffix is free gets the next alias, and the others follow. -/
theorem take (free : before.get? suffix = none) (absent : suffix ∉ members.map Prod.fst)
    (known : ∀ m ∈ members, defs.Known m.2) {d : Definition} (found : defs.find? target = some d)
    (h : ((defs.push isPub node .importAlias d.ident (some target)).insertOverload into suffix
      defs.nextId).Merges isPub node into (before.insert suffix defs.nextId) members defs') :
    defs.Merges isPub node into before ((suffix, target) :: members) defs' := by
  have first : before.missing ((suffix, target) :: members) =
      (suffix, target) :: before.missing members := OverloadSet.missing_cons_of_free free
  have rest : (before.insert suffix defs.nextId).missing members = before.missing members :=
    OverloadSet.missing_insert absent
  have size : ((defs.push isPub node .importAlias d.ident (some target)).insertOverload into
      suffix defs.nextId).size = defs.size + 1 := size_push ..
  have next (k : Nat) : defs.size + 1 + k = defs.size + (k + 1) := by omega
  have split (other : String) (id : DefId) :
      (∃ k t, ((suffix, target) :: before.missing members)[k]? = some (other, t) ∧
          id = ⟨defs.size + k⟩) ↔
        (suffix = other ∧ id = defs.nextId) ∨
          ∃ k t, (before.missing members)[k]? = some (other, t) ∧ id = ⟨defs.size + 1 + k⟩ := by
    rw [← Nat.or_exists_add_one]
    simp [next, nextId]
  obtain ⟨⟨after, got, mem⟩, aliases, total, old, others, byNode, modules, blocks⟩ := h
  rw [rest, size] at mem aliases total
  refine ⟨⟨after, got, fun other id => ?_⟩, fun k other other' there => ?_, ?_, fun id was => ?_,
    fun other ne => ?_, byNode, modules, blocks⟩
  · rw [mem, first, split, OverloadSet.get?_insert, ← or_assoc]
    refine or_congr_left ?_
    by_cases same : suffix = other
    · -- the set has had nothing there
      subst same
      simp [free, eq_comm]
    · simp [same]
  · rw [first] at there
    cases k with
    | zero =>
      cases there
      refine ⟨d, found, (old ⟨defs.size⟩ ?_).trans ?_⟩
      · exact known_nextId_push ..
      · exact find?_push_self ..
    | succ k =>
      rw [List.getElem?_cons_succ] at there
      obtain ⟨d', found', made⟩ := aliases k other other' there
      refine ⟨d', ?_, next k ▸ made⟩
      have mem' : (other, other') ∈ members :=
        List.mem_of_mem_filter (List.mem_of_getElem? there)
      rw [← found']
      exact (find?_push_of_lt defs (known _ mem') ..).symm
  · rw [total, first, List.length_cons]
    omega
  · rw [old id ((keeps_push ..).known was)]
    exact find?_push_of_lt defs was ..
  · rw [others other ne, getElem?_insertOverload,
      if_neg fun same => ne (congrArg OverloadId.mk same.symm)]
    rfl

/-- To open a set beforehand changes no more than that set. -/
theorem of_opened {sets : Array OverloadSet}
    (h : ({ defs with overloads := sets } : Definitions).Merges isPub node into before members
      defs')
    (others : ∀ other : OverloadId, other ≠ into →
      sets[other.index]? = defs.overloads[other.index]?) :
    defs.Merges isPub node into before members defs' :=
  ⟨h.holds, h.aliases, h.size, h.old, fun other ne => (h.others other ne).trans (others other ne),
    h.byNode, h.modules, h.blocks⟩

end Merges

theorem importMembers_merges {isPub : Bool} {node : NodeId} {into : OverloadId}
    (members : List (String × DefId)) {defs : Definitions} {before : OverloadSet}
    (held : defs.overloads[into.index]? = some before) (distinct : (members.map Prod.fst).Nodup)
    (known : ∀ m ∈ members, defs.Known m.2) :
    ∃ defs', importMembers isPub node into members defs = .ok (before.clashes members, defs') ∧
      defs.Merges isPub node into before members defs' := by
  induction members generalizing defs before with
  | nil => exact ⟨defs, rfl, .nil held⟩
  | cons member members ih =>
    obtain ⟨suffix, target⟩ := member
    obtain ⟨absent, distinct⟩ := List.nodup_cons.mp distinct
    have known' : ∀ m ∈ members, defs.Known m.2 := fun m mem =>
      known m (List.mem_cons_of_mem _ mem)
    have got : defs.overloadSet into = .ok before := overloadSet_of_getElem? held
    cases taken : before.get? suffix with
    | some first =>
      obtain ⟨defs', ran, merges⟩ := ih held distinct known'
      refine ⟨defs', ?_, merges.skip taken⟩
      rw [importMembers, got, OverloadSet.clashes_cons_of_taken taken]
      simp only [bind, Except.bind, taken, ran]
      rfl
    | none =>
      have isKnown : defs.Known target := known _ List.mem_cons_self
      obtain ⟨d, found⟩ := isKnown.find?
      have held' : ((defs.push isPub node .importAlias d.ident (some target)).insertOverload into
          suffix defs.nextId).overloads[into.index]? =
            some (before.insert suffix defs.nextId) := by
        rw [getElem?_insertOverload, if_pos rfl]
        exact congrArg (Option.map _) held
      obtain ⟨defs', ran, merges⟩ := ih held' distinct fun m mem =>
        (keeps_push ..).known (known' m mem)
      rw [OverloadSet.clashes_insert absent] at ran
      refine ⟨defs', ?_, merges.take taken absent known' found⟩
      rw [importMembers, got, OverloadSet.clashes_cons_of_free taken]
      simp only [bind, Except.bind, taken, get_of_find? found, defineAlias_eq isKnown]
      exact ran

/-- The set that functions are imported into, as it is before: one that is there, or a fresh one
    without functions. -/
def opening? (defs : Definitions) : Option OverloadId → Option OverloadSet
  | some id => defs.overloads[id.index]?
  | none => some .empty

/-- Only the sets can differ where one is opened, and only in the one that is. -/
theorem overloadsOrNew_eq {into : Option OverloadId} {before : OverloadSet}
    (opening : defs.opening? into = some before) :
    ∃ sets, defs.overloadsOrNew into =
        (into.getD ⟨defs.overloads.size⟩, { defs with overloads := sets }) ∧
      sets[(into.getD ⟨defs.overloads.size⟩).index]? = some before ∧
      ∀ i, i ≠ (into.getD ⟨defs.overloads.size⟩).index → sets[i]? = defs.overloads[i]? := by
  cases into with
  | some id => exact ⟨defs.overloads, rfl, opening, fun _ _ => rfl⟩
  | none =>
    cases opening
    exact ⟨defs.overloads.push .empty, rfl, (getElem?_newOverloads _).trans (if_pos rfl),
      fun i ne => (getElem?_newOverloads i).trans (if_neg ne)⟩

/-- A fresh set is no other than those that are there, and without a function it clashes with
    none. -/
theorem importOverloads_merges {isPub : Bool} {node : NodeId} {source : OverloadId}
    {into : Option OverloadId} {publicOnly : Bool} {members before : OverloadSet}
    (held : defs.overloads[source.index]? = some members)
    (opening : defs.opening? into = some before) (apart : into ≠ some source)
    (known : ∀ m ∈ members.toList, defs.Known m.2) :
    ∃ defs', defs.importOverloads isPub node source into publicOnly =
        .ok (into.getD ⟨defs.overloads.size⟩, before.clashes (defs.offered members publicOnly),
          defs') ∧
      defs.Merges isPub node (into.getD ⟨defs.overloads.size⟩) before
        (defs.offered members publicOnly) defs' := by
  obtain ⟨sets, opened, open', others⟩ := overloadsOrNew_eq opening
  have ne : source ≠ into.getD ⟨defs.overloads.size⟩ := by
    rintro rfl
    cases into with
    | some id => exact apart rfl
    | none =>
      obtain ⟨lt, -⟩ := Array.getElem?_eq_some_iff.mp held
      exact Nat.lt_irrefl _ lt
  generalize into.getD ⟨defs.overloads.size⟩ = into' at opened open' others ne
  have got : ({ defs with overloads := sets } : Definitions).overloadSet source = .ok members :=
    overloadSet_of_getElem? ((others _ fun same => ne (congrArg OverloadId.mk same)).trans held)
  have offers : ({ defs with overloads := sets } : Definitions).importable members publicOnly =
      .ok (defs.offered members publicOnly) := importable_eq known publicOnly
  obtain ⟨defs', ran, merges⟩ : ∃ defs', importMembers isPub node into'
      (defs.offered members publicOnly) { defs with overloads := sets } =
        .ok (before.clashes (defs.offered members publicOnly), defs') ∧
      ({ defs with overloads := sets } : Definitions).Merges isPub node into' before
        (defs.offered members publicOnly) defs' :=
    importMembers_merges _ open' (nodup_offered members publicOnly) fun m mem =>
      known m (List.mem_of_mem_filter mem)
  refine ⟨defs', ?_, merges.of_opened fun other ne' => others _ fun same =>
    ne' (congrArg OverloadId.mk same)⟩
  rw [importOverloads, opened]
  dsimp only
  rw [if_neg ne.symm, got]
  simp only [bind, Except.bind, offers, ran]
  rfl

/-- A suffix can be taken only in a set that has been there. -/
theorem eq_of_taken {id first : DefId} {set : Option OverloadId} {suffix : String}
    (made : defs.addFunction id set suffix = .ok (.taken first, defs')) :
    defs' = defs ∧ ∃ into, set = some into ∧ defs.member? into suffix = some first := by
  have taken := (member?_of_taken made).1
  obtain ⟨members, held, outcome⟩ := Yields.true_iff.mp addFunction_eq _ made
  cases set with
  | none =>
    -- a fresh set has no suffix that could be taken
    have free : defs.member? (defs.overloadsOrNew none).1 suffix = none := member?_of_new rfl suffix
    rw [free] at taken
    cases taken
  | some into =>
    refine ⟨?_, into, rfl, taken⟩
    split at outcome
    · cases outcome
      rfl
    · cases outcome

end Definitions

/-! ## Merging -/

/-- Whatever operations have led to the tables, importing the functions of one set into another,
    or into a fresh one, always goes through. What is offered is each function of the source, or
    each that is `pub`. The other set keeps its own and gets one alias for each function offered
    whose suffix it does not have; the suffixes offered that it has come back in order, with what
    has them; and nothing else changes. A set that is imported into itself is left as it is. A
    function that finds its suffix taken by another leaves the tables as they are. -/
theorem merging_is_exact {fresh tree : ModuleTree} {defs : Definitions}
    (reached : TableOperations (.empty, fresh) (defs, tree)) :
    (∀ isPub node source into publicOnly members before,
      defs.overloadSet source = .ok members → defs.opening? into = some before →
        into ≠ some source →
          ∃ defs', defs.importOverloads isPub node source into publicOnly =
              .ok (into.getD ⟨defs.overloads.size⟩,
                before.clashes (defs.offered members publicOnly), defs') ∧
            defs.Merges isPub node (into.getD ⟨defs.overloads.size⟩) before
              (defs.offered members publicOnly) defs') ∧
    (∀ isPub node source publicOnly,
      defs.importOverloads isPub node source (some source) publicOnly = .ok (source, [], defs)) ∧
    ∀ id set suffix first defs',
      defs.addFunction id set suffix = .ok (.taken first, defs') →
        defs' = defs ∧ ∃ into, set = some into ∧ defs.member? into suffix = some first := by
  have layered : defs.Layered := reached.writes.layered .empty
  refine ⟨fun isPub node source into publicOnly members before got opening apart => ?_,
    fun isPub node source publicOnly => if_pos rfl,
    fun id set suffix first defs' made => Definitions.eq_of_taken made⟩
  have held := Definitions.getElem?_of_overloadSet got
  refine Definitions.importOverloads_merges held opening apart fun m mem => ?_
  exact layered.members
    (Definitions.member?_eq_some.mpr ⟨members, held, OverloadSet.mem_toList.mp mem⟩)

/-- The copied function is taken over once more, by way of its alias. Where it comes from there
    is no place for it. -/
theorem merging_is_exact_copied :
    TableOperations (.empty, .new) (.copied, .new) ∧
      (∃ defs' d, Definitions.copied.importOverloads true ⟨9⟩ ⟨1⟩ none false =
          .ok (⟨2⟩, [], defs') ∧
        defs'.find? ⟨2⟩ = some ⟨⟨2⟩, .importAlias, d, true, ⟨9⟩, some ⟨1⟩⟩) ∧
      ∃ defs', Definitions.copied.importOverloads true ⟨9⟩ ⟨1⟩ (some ⟨0⟩) false =
        .ok (⟨0⟩, [("of:", ⟨0⟩)], defs') ∧ defs'.size = Definitions.copied.size := by
  obtain ⟨imports, -, -⟩ := merging_is_exact reached_copied
  obtain ⟨defs', ran, merges⟩ :=
    imports true ⟨9⟩ ⟨1⟩ none false _ .empty rfl rfl (by decide)
  obtain ⟨d, -, made⟩ := merges.aliases 0 "of:" ⟨1⟩ rfl
  obtain ⟨defs'', ran', merges'⟩ :=
    imports true ⟨9⟩ ⟨1⟩ (some ⟨0⟩) false _ _ rfl rfl (by decide)
  exact ⟨reached_copied, ⟨defs', d.ident, ran, made⟩, defs'', ran', merges'.size⟩

end NameResolution
