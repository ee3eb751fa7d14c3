import NameResolution.Proofs.Tables.Aliases

/-! # Members of sets of functions

    Importing the functions of one set into another leaves all other sets as
    they are. What it adds are aliases, made at one node, of functions of the
    source, each under the suffix it has there. In the end no function is missing
    that may be imported. -/

namespace NameResolution

namespace Definitions

variable {defs defs' defs'' : Definitions}

/-! ## Members -/

/-- The function of a set with a suffix. -/
def member? (defs : Definitions) (set : OverloadId) (suffix : String) : Option DefId :=
  (defs.overloads[set.index]?).bind (·.get? suffix)

theorem member?_eq_some {set : OverloadId} {suffix : String} {id : DefId} :
    defs.member? set suffix = some id ↔
      ∃ members, defs.overloads[set.index]? = some members ∧ members.get? suffix = some id :=
  Option.bind_eq_some_iff

theorem stocked_iff {set : OverloadId} :
    defs.Stocked set ↔ ∃ suffix id, defs.member? set suffix = some id := by
  constructor
  · rintro ⟨members, suffix, id, held, mem⟩
    exact ⟨suffix, id, member?_eq_some.mpr ⟨members, held, mem⟩⟩
  · rintro ⟨suffix, id, mem⟩
    obtain ⟨members, held, mem⟩ := member?_eq_some.mp mem
    exact ⟨members, suffix, id, held, mem⟩

theorem Valid.known_of_member? (valid : defs.Valid) {set : OverloadId} {suffix : String}
    {id : DefId} (h : defs.member? set suffix = some id) : defs.Known id := by
  obtain ⟨members, held, mem⟩ := member?_eq_some.mp h
  exact valid.members held mem

theorem getElem?_of_overloadSet {id : OverloadId} {set : OverloadSet}
    (got : defs.overloadSet id = .ok set) : defs.overloads[id.index]? = some set := by
  unfold overloadSet at got
  split at got
  · next held =>
    cases got
    exact held
  · cases got

theorem Keeps.member? (h : defs.Keeps defs') {set : OverloadId} {suffix : String} {id : DefId}
    (mem : defs.member? set suffix = some id) : defs'.member? set suffix = some id := by
  obtain ⟨members, held, mem⟩ := member?_eq_some.mp mem
  exact member?_eq_some.mpr (h.member held mem)

theorem member?_newOverloads (set : OverloadId) (suffix : String) :
    defs.newOverloads.2.member? set suffix = defs.member? set suffix := by
  unfold member?
  rw [getElem?_newOverloads]
  split
  · next new =>
    have none : defs.overloads[set.index]? = none := by
      rw [new]
      exact Array.getElem?_size ..
    rw [none]
    simp
  · rfl

theorem member?_overloadsOrNew (into : Option OverloadId) (set : OverloadId) (suffix : String) :
    (defs.overloadsOrNew into).2.member? set suffix = defs.member? set suffix := by
  cases into with
  | none => exact member?_newOverloads set suffix
  | some id => rfl

/-- A set that has not been made yet has no members. -/
theorem member?_of_new {set : OverloadId} (new : set.index = defs.overloads.size)
    (suffix : String) : defs.member? set suffix = none := by
  unfold member?
  rw [new, Array.getElem?_size]
  rfl

section

variable {into : OverloadId} {members : OverloadSet} {suffix : String} {id : DefId}

theorem member?_insertOverload_of_ne {set : OverloadId} (ne : set ≠ into) (other : String) :
    (defs.insertOverload into suffix id).member? set other = defs.member? set other := by
  have apart : into.index ≠ set.index := fun eq => ne (by cases into; cases set; cases eq; rfl)
  unfold member?
  rw [getElem?_insertOverload, if_neg apart]

theorem member?_insertOverload (held : defs.overloads[into.index]? = some members)
    (other : String) :
    (defs.insertOverload into suffix id).member? into other =
      if suffix = other then some id else defs.member? into other := by
  unfold member?
  rw [getElem?_insertOverload, if_pos rfl, held, Option.map_some, Option.bind_some]
  split
  · next same =>
    subst same
    exact OverloadSet.get?_insert_self ..
  · next ne => exact OverloadSet.get?_insert_of_ne _ ne _

/-- A member of a set was one before, or has just been put there. -/
theorem member?_insertOverload_cases (held : defs.overloads[into.index]? = some members)
    {set : OverloadId} {other : String} {id' : DefId}
    (mem : (defs.insertOverload into suffix id).member? set other = some id') :
    defs.member? set other = some id' ∨ set = into ∧ id' = id := by
  by_cases same : set = into
  · subst same
    rw [member?_insertOverload held] at mem
    split at mem
    · cases mem
      exact .inr ⟨rfl, rfl⟩
    · exact .inl mem
  · rw [member?_insertOverload_of_ne same] at mem
    exact .inl mem

end

/-! ## Adding functions -/

section

variable {id : DefId} {set : Option OverloadId} {suffix : String}

/-- A function is put under its suffix where that is free. -/
theorem addFunction_eq : Yields True (defs.addFunction id set suffix) fun r =>
    ∃ members, (defs.overloadsOrNew set).2.overloads[(defs.overloadsOrNew set).1.index]? =
        some members ∧
      match members.get? suffix with
      | some first => r = (.taken first, (defs.overloadsOrNew set).2)
      | none => r = (.added (defs.overloadsOrNew set).1,
          (defs.overloadsOrNew set).2.insertOverload (defs.overloadsOrNew set).1 suffix id) := by
  simp only [addFunction, Yields.bind_iff]
  refine Yields.trivial_of_true fun d => ?_
  split
  · rw [Yields.bind_iff]
    apply Yields.true_iff.mpr
    intro members got
    have held := getElem?_of_overloadSet got
    split
    · next first taken =>
      refine ⟨members, held, ?_⟩
      rw [taken]
    · next free =>
      refine ⟨members, held, ?_⟩
      rw [free]
  · trivial

theorem keeps_of_addFunction {r : Added × Definitions}
    (made : defs.addFunction id set suffix = .ok r) : defs.Keeps r.2 := by
  have opened : defs.Keeps (defs.overloadsOrNew set).2 := keeps_overloadsOrNew set
  obtain ⟨members, held, outcome⟩ := Yields.true_iff.mp addFunction_eq r made
  split at outcome
  · rw [outcome]
    exact opened
  · next free =>
    rw [outcome]
    exact opened.trans (keeps_insertOverload id held free)

/-- A function that has been added stands under its suffix, which has been free, and nothing else
    has changed. -/
theorem member?_of_added {into : OverloadId}
    (made : defs.addFunction id set suffix = .ok (.added into, defs')) :
    into = (defs.overloadsOrNew set).1 ∧ defs.member? into suffix = none ∧
      (∀ other, defs'.member? into other =
        if suffix = other then some id else defs.member? into other) ∧
      ∀ set', set' ≠ into → ∀ other, defs'.member? set' other = defs.member? set' other := by
  have same (set' : OverloadId) (other : String) :
      (defs.overloadsOrNew set).2.member? set' other = defs.member? set' other :=
    member?_overloadsOrNew set set' other
  obtain ⟨members, held, outcome⟩ := Yields.true_iff.mp addFunction_eq _ made
  split at outcome
  · cases outcome
  · next free =>
    cases outcome
    refine ⟨rfl, ?_, fun other => ?_, fun set' ne other => ?_⟩
    · rw [← same, member?, held, Option.bind_some]
      exact free
    · rw [member?_insertOverload held, same]
    · rw [member?_insertOverload_of_ne ne, same]

/-- A function whose suffix is taken changes nothing. -/
theorem member?_of_taken {first : DefId}
    (made : defs.addFunction id set suffix = .ok (.taken first, defs')) :
    defs.member? (defs.overloadsOrNew set).1 suffix = some first ∧
      ∀ set' other, defs'.member? set' other = defs.member? set' other := by
  have same (set' : OverloadId) (other : String) :
      (defs.overloadsOrNew set).2.member? set' other = defs.member? set' other :=
    member?_overloadsOrNew set set' other
  obtain ⟨members, held, outcome⟩ := Yields.true_iff.mp addFunction_eq _ made
  split at outcome
  · next taken =>
    cases outcome
    refine ⟨?_, same⟩
    rw [← same, member?, held, Option.bind_some]
    exact taken
  · cases outcome

end

/-! ## Aliases made at a node -/

/-- A definition made at a node as another name of `target`. -/
def AliasAt (defs : Definitions) (node : NodeId) (id target : DefId) : Prop :=
  ∃ d, defs.find? id = some d ∧ d.node = node ∧ d.target = some target

theorem Keeps.aliasAt (h : defs.Keeps defs') {node : NodeId} {id target : DefId}
    (made : defs.AliasAt node id target) : defs'.AliasAt node id target := by
  obtain ⟨d, found, atNode, target⟩ := made
  exact ⟨d, h.defined found, atNode, target⟩

/-- What was there has not become an alias since. -/
theorem Keeps.aliasAt_of_known (h : defs.Keeps defs') {node : NodeId} {id target : DefId}
    (known : defs.Known id) (made : defs'.AliasAt node id target) :
    defs.AliasAt node id target := by
  obtain ⟨d, found⟩ := known.find?
  obtain ⟨d', found', rest⟩ := made
  have same := h.defined found
  rw [found'] at same
  cases same
  exact ⟨d, found, rest⟩

instance (defs : Definitions) (node : NodeId) (id target : DefId) :
    Decidable (defs.AliasAt node id target) :=
  decidable_of_iff
    ((defs.find? id).any (fun d => d.node == node && d.target == some target) = true)
    (by simp [AliasAt, Option.any_eq_true])

/-- Whether a definition made at a node is an alias can be read off it. -/
theorem exists_aliasAt_iff {node : NodeId} {id : DefId} :
    (∃ target, defs.AliasAt node id target) ↔
      (defs.find? id).any (fun d => d.node == node && d.target.isSome) = true := by
  simp only [AliasAt, Option.any_eq_true, Option.isSome_iff_exists, Bool.and_eq_true, beq_iff_eq]
  constructor
  · rintro ⟨target, d, found, here, named⟩
    exact ⟨d, found, here, target, named⟩
  · rintro ⟨d, found, here, target, named⟩
    exact ⟨target, d, found, here, named⟩

/-- An alias is the only definition that is made with it. -/
theorem aliasAt_of_defineAlias {isPub : Bool} {node : NodeId} {ident : Ident} {id target : DefId}
    (made : defs.defineAlias isPub node ident target = .ok (id, defs')) :
    defs'.AliasAt node id target ∧ ¬ defs.Known id ∧
      ∀ other, defs'.Known other → ¬ defs.Known other → other = id := by
  obtain ⟨-, eq⟩ := defineAlias_eq_ok.mp made
  cases eq
  refine ⟨⟨_, find?_push_self .., rfl, rfl⟩, Nat.lt_irrefl _, fun other known new => ?_⟩
  exact eq_nextId_of_known_push known new

/-- A definition is made at one node, and of one target. -/
theorem AliasAt.unique {node node' : NodeId} {id target target' : DefId}
    (h : defs.AliasAt node id target) (h' : defs.AliasAt node' id target') :
    node' = node ∧ target' = target := by
  obtain ⟨d, found, rfl, named⟩ := h
  obtain ⟨d', found', rfl, named'⟩ := h'
  rw [found] at found'
  cases found'
  rw [named] at named'
  cases named'
  exact ⟨rfl, rfl⟩

/-! ## Importing functions -/

/-- What importing functions into a set comes to, one after another, with those whose suffix is
    taken. -/
inductive JoinOutcome (isPub : Bool) (node : NodeId) (into : OverloadId) :
    Definitions → List (String × DefId) → List (String × DefId) → Definitions → Prop where
  | nil {defs : Definitions} : JoinOutcome isPub node into defs [] [] defs
  /-- The suffix is taken, so the function stays out -/
  | stays {defs defs' : Definitions} {suffix : String} {target first : DefId}
      {members taken : List (String × DefId)} (held : defs.member? into suffix = some first)
      (others : JoinOutcome isPub node into defs members taken defs') :
      JoinOutcome isPub node into defs ((suffix, target) :: members) ((suffix, first) :: taken)
        defs'
  /-- The suffix is free, and goes to an alias -/
  | joins {defs defs' : Definitions} {set : OverloadSet} {suffix : String} {target : DefId}
      {d : Definition} {members taken : List (String × DefId)}
      (held : defs.overloads[into.index]? = some set) (free : set.get? suffix = none)
      (found : defs.find? target = some d)
      (others : JoinOutcome isPub node into
        ((defs.push isPub node .importAlias d.ident (some target)).insertOverload into suffix
          defs.nextId) members taken defs') :
      JoinOutcome isPub node into defs ((suffix, target) :: members) taken defs'

theorem importMembers_outcome {isPub : Bool} {node : NodeId} {into : OverloadId}
    {members taken : List (String × DefId)} {defs : Definitions}
    (made : importMembers isPub node into members defs = .ok (taken, defs')) :
    JoinOutcome isPub node into defs members taken defs' := by
  induction members generalizing defs taken with
  | nil =>
    cases made
    exact .nil
  | cons member members ih =>
    obtain ⟨suffix, target⟩ := member
    obtain ⟨set, got, made⟩ := Except.bind_eq_ok.mp made
    have held := getElem?_of_overloadSet got
    split at made
    · next first there =>
      obtain ⟨⟨taken', _⟩, others, last⟩ := Except.bind_eq_ok.mp made
      cases last
      exact .stays (member?_eq_some.mpr ⟨set, held, there⟩) (ih others)
    · next free =>
      obtain ⟨d, got', made⟩ := Except.bind_eq_ok.mp made
      obtain ⟨r, alias', others⟩ := Except.bind_eq_ok.mp made
      obtain ⟨-, rfl⟩ := defineAlias_eq_ok.mp alias'
      exact .joins held free (find?_of_get got') (ih others)

/-- What importing the functions of a set into another one comes to, that one being open. -/
inductive ImportOutcome (isPub : Bool) (node : NodeId) (source into : OverloadId)
    (publicOnly : Bool) (defs : Definitions) : List (String × DefId) → Definitions → Prop where
  /-- A set has all its own functions already -/
  | itself (same : into = source) : ImportOutcome isPub node source into publicOnly defs [] defs
  | joined {defs' : Definitions} {set : OverloadSet} {members taken : List (String × DefId)}
      (apart : into ≠ source) (held : defs.overloads[source.index]? = some set)
      (selected : defs.importable set publicOnly = .ok members)
      (outcome : JoinOutcome isPub node into defs members taken defs') :
      ImportOutcome isPub node source into publicOnly defs taken defs'

theorem importOverloads_outcome {isPub : Bool} {node : NodeId} {source into : OverloadId}
    {target : Option OverloadId} {publicOnly : Bool} {taken : List (String × DefId)}
    (made : defs.importOverloads isPub node source target publicOnly = .ok (into, taken, defs')) :
    into = (defs.overloadsOrNew target).1 ∧
      ImportOutcome isPub node source into publicOnly (defs.overloadsOrNew target).2 taken
        defs' := by
  rw [importOverloads] at made
  generalize defs.overloadsOrNew target = opened at made
  dsimp only at made
  split at made
  · next same =>
    cases made
    exact ⟨rfl, .itself same⟩
  · next apart =>
    obtain ⟨set, got, made⟩ := Except.bind_eq_ok.mp made
    obtain ⟨members, selected, made⟩ := Except.bind_eq_ok.mp made
    obtain ⟨⟨_, _⟩, joined, last⟩ := Except.bind_eq_ok.mp made
    cases last
    exact ⟨rfl, .joined apart (getElem?_of_overloadSet got) selected
      (importMembers_outcome joined)⟩

/-- Some functions have come into a set, as far as their suffixes were free. -/
structure Takes (node : NodeId) (into : OverloadId) (members : List (String × DefId))
    (defs defs' : Definitions) : Prop where
  keeps : defs.Keeps defs'
  others : ∀ set suffix, set ≠ into → defs'.member? set suffix = defs.member? set suffix
  taken : ∀ suffix id, defs'.member? into suffix = some id →
    defs.member? into suffix = some id ∨
      ¬ defs.Known id ∧ ∃ target, defs'.AliasAt node id target ∧ (suffix, target) ∈ members
  all : ∀ m ∈ members, ∃ id, defs'.member? into m.1 = some id
  /-- Whatever has been made for it is in the set -/
  joined : ∀ id, ¬ defs.Known id → defs'.Known id → ∃ suffix, defs'.member? into suffix = some id

namespace Takes

variable {node : NodeId} {into : OverloadId} {members members' : List (String × DefId)}

theorem nil : Takes node into [] defs defs :=
  ⟨.refl defs, fun _ _ _ => rfl, fun _ _ => .inl, List.forall_mem_nil _,
    fun _ new known => absurd known new⟩

/-- The suffix is taken. -/
theorem skip {suffix : String} {target first : DefId}
    (taken : defs.member? into suffix = some first) :
    Takes node into [(suffix, target)] defs defs := by
  refine ⟨.refl defs, fun _ _ _ => rfl, fun _ _ => .inl, fun m mem => ⟨first, ?_⟩,
    fun _ new known => absurd known new⟩
  rw [List.mem_singleton.mp mem]
  exact taken

/-- The suffix is free, and goes to an alias. -/
theorem alias' {set : OverloadSet} (held : defs.overloads[into.index]? = some set)
    {suffix : String} (free : set.get? suffix = none) (isPub : Bool) (ident : Ident)
    (target : DefId) :
    Takes node into [(suffix, target)] defs
      ((defs.push isPub node .importAlias ident target).insertOverload into suffix
        defs.nextId) := by
  have keeps : defs.Keeps ((defs.push isPub node .importAlias ident target).insertOverload into
      suffix defs.nextId) := by
    have pushed : defs.Keeps (defs.push isPub node .importAlias ident target) := keeps_push ..
    exact pushed.trans (keeps_insertOverload _ held free)
  have member (other : String) : ((defs.push isPub node .importAlias ident target).insertOverload
      into suffix defs.nextId).member? into other =
        if suffix = other then some defs.nextId else defs.member? into other :=
    member?_insertOverload held other
  refine ⟨keeps, fun set other ne => member?_insertOverload_of_ne ne other,
    fun other id mem => ?_, fun m mem => ⟨defs.nextId, ?_⟩, fun id new known => ⟨suffix, ?_⟩⟩
  · rw [member] at mem
    split at mem
    · next same =>
      cases mem
      subst same
      refine .inr ⟨Nat.lt_irrefl _, target, ⟨_, find?_push_self .., rfl, rfl⟩, ?_⟩
      exact List.mem_singleton_self _
    · exact .inl mem
  · rw [List.mem_singleton.mp mem, member, if_pos rfl]
  · rw [member, if_pos rfl, eq_nextId_of_known_push known new]

theorem trans (h : Takes node into members defs defs')
    (h' : Takes node into members' defs' defs'') :
    Takes node into (members ++ members') defs defs'' := by
  refine ⟨h.keeps.trans h'.keeps, fun set suffix ne => ?_, fun suffix id mem => ?_,
    fun m mem => ?_, fun id new known => ?_⟩
  · rw [h'.others set suffix ne, h.others set suffix ne]
  · rcases h'.taken suffix id mem with before | ⟨new, target, made, mem'⟩
    · rcases h.taken suffix id before with before | ⟨new, target, made, mem'⟩
      · exact .inl before
      · exact .inr ⟨new, target, h'.keeps.aliasAt made, List.mem_append_left _ mem'⟩
    · exact .inr ⟨fun known => new (h.keeps.known known), target, made,
        List.mem_append_right _ mem'⟩
  · rcases List.mem_append.mp mem with mem | mem
    · obtain ⟨id, held⟩ := h.all m mem
      exact ⟨id, h'.keeps.member? held⟩
    · exact h'.all m mem
  · by_cases known' : defs'.Known id
    · obtain ⟨suffix, held⟩ := h.joined id new known'
      exact ⟨suffix, h'.keeps.member? held⟩
    · exact h'.joined id known' known

end Takes

namespace JoinOutcome

variable {isPub : Bool} {node : NodeId} {into : OverloadId} {members taken : List (String × DefId)}

theorem takes (outcome : JoinOutcome isPub node into defs members taken defs') :
    Takes node into members defs defs' := by
  induction outcome with
  | nil => exact .nil
  | stays held _ ih => exact (Takes.skip held).trans ih
  | joins held free _ _ ih => exact (Takes.alias' held free ..).trans ih

/-- Where a function stays out, its suffix has been taken by the one that is returned. -/
theorem taken_held (outcome : JoinOutcome isPub node into defs members taken defs') :
    ∀ t ∈ taken, defs'.member? into t.1 = some t.2 := by
  induction outcome with
  | nil => exact List.forall_mem_nil _
  | stays held others ih => exact List.forall_mem_cons.mpr ⟨others.takes.keeps.member? held, ih⟩
  | joins _ _ _ _ ih => exact ih

/-- Whatever function finds its suffix taken stays out and is returned. -/
theorem returned (outcome : JoinOutcome isPub node into defs members taken defs') :
    ∀ m ∈ members, ∀ first, defs.member? into m.1 = some first → ∃ t ∈ taken, t.1 = m.1 := by
  induction outcome with
  | nil => exact List.forall_mem_nil _
  | stays _ _ ih =>
    refine List.forall_mem_cons.mpr ⟨fun _ _ => ⟨_, List.mem_cons_self .., rfl⟩, ?_⟩
    intro m mem first there
    obtain ⟨t, mem', same⟩ := ih m mem first there
    exact ⟨t, List.mem_cons_of_mem _ mem', same⟩
  | @joins defs _ set suffix target d _ _ held free _ _ ih =>
    have member_eq : defs.member? into suffix = set.get? suffix := by
      rw [member?, held, Option.bind_some]
    refine List.forall_mem_cons.mpr ⟨fun first there => ?_, fun m mem first there => ?_⟩
    · rw [member_eq, free] at there
      cases there
    · have joined : Takes node into _ defs _ := .alias' held free isPub d.ident target
      exact ih m mem first (joined.keeps.member? there)

end JoinOutcome

theorem importOverloads_taken {isPub : Bool} {node : NodeId} {source : OverloadId}
    {into : Option OverloadId} {publicOnly : Bool} :
    Yields True (defs.importOverloads isPub node source into publicOnly) fun r =>
      ∀ t ∈ r.2.1, r.2.2.member? r.1 t.1 = some t.2 := by
  apply Yields.true_iff.mpr
  rintro ⟨into', taken, defs'⟩ made
  obtain ⟨-, outcome⟩ := importOverloads_outcome made
  cases outcome with
  | itself _ => exact List.forall_mem_nil _
  | joined _ _ _ outcome => exact outcome.taken_held

/-- What importing functions of one set into another comes to. -/
structure Copies (node : NodeId) (source into : OverloadId) (publicOnly : Bool)
    (defs defs' : Definitions) : Prop where
  keeps : defs.Keeps defs'
  others : ∀ set suffix, set ≠ into → defs'.member? set suffix = defs.member? set suffix
  taken : ∀ suffix id, defs'.member? into suffix = some id →
    defs.member? into suffix = some id ∨
      ¬ defs.Known id ∧
        ∃ target, defs'.AliasAt node id target ∧ defs.member? source suffix = some target ∧
          (publicOnly = true → defs.isPub target = .ok true)
  all : ∀ suffix target, defs.member? source suffix = some target →
    (publicOnly = true → defs.isPub target = .ok true) → ∃ id, defs'.member? into suffix = some id
  joined : ∀ id, ¬ defs.Known id → defs'.Known id → ∃ suffix, defs'.member? into suffix = some id

/-- Whatever is new in a set is a copy of something in the source. -/
theorem Copies.exists_target {node : NodeId} {source into : OverloadId} {publicOnly : Bool}
    (copies : Copies node source into publicOnly defs defs') (valid : defs.Valid)
    {set : OverloadId} {suffix : String} {id : DefId} (new : ¬ defs.Known id)
    (mem : defs'.member? set suffix = some id) :
    set = into ∧
      ∃ target, defs'.AliasAt node id target ∧ defs.member? source suffix = some target ∧
        (publicOnly = true → defs.isPub target = .ok true) := by
  by_cases same : set = into
  · subst same
    rcases copies.taken suffix id mem with before | ⟨-, copied⟩
    · exact absurd (valid.known_of_member? before) new
    · exact ⟨rfl, copied⟩
  · rw [copies.others set suffix same] at mem
    exact absurd (valid.known_of_member? mem) new

/-- What may be imported of a set: all of it, or at least whatever is `pub`. -/
theorem importable_selects {set : OverloadSet} {publicOnly : Bool} :
    Yields True (defs.importable set publicOnly) fun members =>
      (∀ m ∈ members, m ∈ set.toList) ∧
        (∀ m ∈ members, publicOnly = true → defs.isPub m.2 = .ok true) ∧
        ∀ m ∈ set.toList, (publicOnly = true → defs.isPub m.2 = .ok true) → m ∈ members := by
  cases publicOnly with
  | false => exact ⟨fun _ mem => mem, by simp, fun _ mem _ => mem⟩
  | true =>
    rw [importable, if_pos rfl]
    have subset : Yields True (set.toList.filterM fun m => defs.isPub m.2) fun members =>
        ∀ m ∈ members, m ∈ set.toList :=
      Yields.filterM _ (fun _ _ => Yields.trivial_of_true fun _ => trivial) fun _ mem => mem
    refine Yields.true_iff.mpr fun members result =>
      ⟨?_, fun m mem _ => ?_, fun m mem isPub => ?_⟩
    · exact Yields.true_iff.mp subset members result
    · exact holds_of_mem_filterM result mem
    · exact mem_filterM_ok result mem (isPub rfl)

theorem importOverloads_copies {isPub : Bool} {node : NodeId} {source : OverloadId}
    {into : Option OverloadId} {publicOnly : Bool} :
    Yields True (defs.importOverloads isPub node source into publicOnly) fun r =>
      r.1 = (defs.overloadsOrNew into).1 ∧ Copies node source r.1 publicOnly defs r.2.2 := by
  have same (set : OverloadId) (suffix : String) :
      (defs.overloadsOrNew into).2.member? set suffix = defs.member? set suffix :=
    member?_overloadsOrNew into set suffix
  have opened : defs.Keeps (defs.overloadsOrNew into).2 := keeps_overloadsOrNew into
  have size : (defs.overloadsOrNew into).2.size = defs.size := by cases into <;> rfl
  have pub : (defs.overloadsOrNew into).2.isPub = defs.isPub := by cases into <;> rfl
  have known_iff (id : DefId) : (defs.overloadsOrNew into).2.Known id ↔ defs.Known id := by
    unfold Known
    rw [size]
  apply Yields.true_iff.mpr
  rintro ⟨into', taken, defs'⟩ made
  obtain ⟨isInto, outcome⟩ := importOverloads_outcome made
  refine ⟨isInto, ?_⟩
  cases outcome with
  | itself itself =>
    subst itself
    refine ⟨opened, fun set suffix _ => same set suffix, fun suffix id mem => ?_,
      fun suffix target mem _ => ⟨target, ?_⟩, fun id isNew known => ?_⟩
    · exact .inl ((same into' suffix).symm.trans mem)
    · exact (same into' suffix).trans mem
    · exact absurd ((known_iff id).mp known) isNew
  | @joined _ set members _ _ held selected outcome =>
    have takes := outcome.takes
    have source_eq (suffix : String) : defs.member? source suffix = set.get? suffix := by
      rw [← same, member?, held, Option.bind_some]
    obtain ⟨subset, only, complete⟩ := Yields.true_iff.mp importable_selects _ selected
    refine ⟨opened.trans takes.keeps, fun other suffix ne => ?_, fun suffix id mem => ?_,
      fun suffix target mem isPub => ?_, fun id isNew known => ?_⟩
    · rw [takes.others other suffix ne, same]
    · rcases takes.taken suffix id mem with before | ⟨isNew, target, made, mem'⟩
      · exact .inl ((same _ _).symm.trans before)
      · refine .inr ⟨fun known => isNew ((known_iff id).mpr known), target, made, ?_,
          fun outside => ?_⟩
        · rw [source_eq]
          exact OverloadSet.mem_toList.mp (subset _ mem')
        · rw [← pub]
          exact only _ mem' outside
    · rw [source_eq] at mem
      rw [← pub] at isPub
      exact takes.all (suffix, target) (complete _ (OverloadSet.mem_toList.mpr mem) isPub)
    · exact takes.joined id (fun known => isNew ((known_iff id).mp known)) known

/-- Of the functions of another set that may be imported, those whose suffix is taken stay out and
    are returned. -/
theorem importOverloads_returns {isPub : Bool} {node : NodeId} {source into : OverloadId}
    {publicOnly : Bool} (apart : into ≠ source) :
    Yields True (defs.importOverloads isPub node source (some into) publicOnly) fun r =>
      ∀ suffix target first, defs.member? source suffix = some target →
        (publicOnly = true → defs.isPub target = .ok true) →
          defs.member? into suffix = some first → ∃ t ∈ r.2.1, t.1 = suffix := by
  apply Yields.true_iff.mpr
  rintro ⟨into', taken, defs'⟩ made suffix target first there may isTaken
  obtain ⟨rfl, outcome⟩ := importOverloads_outcome made
  cases outcome with
  | itself same => exact absurd same apart
  | @joined _ set members _ _ held selected outcome =>
    obtain ⟨-, -, complete⟩ := Yields.true_iff.mp importable_selects _ selected
    have held : defs.overloads[source.index]? = some set := held
    rw [member?, held, Option.bind_some] at there
    exact outcome.returned (suffix, target) (complete _ (OverloadSet.mem_toList.mpr there) may) first
      isTaken

end Definitions

end NameResolution
