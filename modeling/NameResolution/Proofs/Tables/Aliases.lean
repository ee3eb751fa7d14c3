import NameResolution.Proofs.Tables.Definitions

/-! # What aliases name in the end

    An alias leads over other aliases to a definition that is none. As the table
    only grows, and never changes what is in it, this stays so. -/

namespace NameResolution

namespace Definitions

variable {defs defs' defs'' : Definitions}

/-! ## What stays -/

/-- A later table: definitions and members of sets are as they were. -/
structure Keeps (defs defs' : Definitions) : Prop where
  defined : ∀ {id : DefId} {d : Definition}, defs.find? id = some d → defs'.find? id = some d
  member : ∀ {i : Nat} {set : OverloadSet} {suffix : String} {id : DefId},
    defs.overloads[i]? = some set → set.get? suffix = some id →
      ∃ set', defs'.overloads[i]? = some set' ∧ set'.get? suffix = some id

namespace Keeps

theorem refl (defs : Definitions) : defs.Keeps defs := ⟨fun h => h, fun h h' => ⟨_, h, h'⟩⟩

theorem trans (h : defs.Keeps defs') (h' : defs'.Keeps defs'') : defs.Keeps defs'' := by
  refine ⟨fun found => h'.defined (h.defined found), fun held mem => ?_⟩
  obtain ⟨set', held', mem'⟩ := h.member held mem
  exact h'.member held' mem'

/-- A table with the same definitions and sets. -/
theorem of_eq (entries : defs'.entries = defs.entries) (overloads : defs'.overloads =
    defs.overloads) : defs.Keeps defs' := by
  refine ⟨fun {id d} found => ?_, fun {_ set _ _} held mem => ⟨set, ?_, mem⟩⟩
  · rw [find?, entries]
    exact found
  · rw [overloads]
    exact held

theorem known (h : defs.Keeps defs') {id : DefId} (known : defs.Known id) : defs'.Known id := by
  obtain ⟨d, found⟩ := known.find?
  exact known_of_find? (h.defined found)

theorem stocked (h : defs.Keeps defs') {id : OverloadId} (stocked : defs.Stocked id) :
    defs'.Stocked id := by
  obtain ⟨set, suffix, member, held, mem⟩ := stocked
  obtain ⟨set', held', mem'⟩ := h.member held mem
  exact ⟨set', suffix, member, held', mem'⟩

end Keeps

theorem keeps_push (isPub : Bool) (node : NodeId) (kind : DefKind) (ident : Ident)
    (target : Option DefId) : defs.Keeps (defs.push isPub node kind ident target) := by
  refine ⟨fun found => ?_, fun held mem => ⟨_, held, mem⟩⟩
  rw [find?_push_of_lt _ (known_of_find? found)]
  exact found

theorem keeps_declared (isPub : Bool) (node : NodeId) (kind : DefKind) (ident : Ident) :
    defs.Keeps (defs.declared isPub node kind ident) :=
  (keeps_push isPub node kind ident none).trans (.of_eq rfl rfl)

theorem keeps_overloadsOrNew (set : Option OverloadId) :
    defs.Keeps (defs.overloadsOrNew set).2 := by
  refine ⟨fun found => ?_, fun held mem => ⟨_, getElem?_overloadsOrNew_of_some held, mem⟩⟩
  cases set <;> exact found

/-- Only a suffix that is free may be given to a function. -/
theorem keeps_insertOverload {into : OverloadId} {suffix : String} (member : DefId)
    {members : OverloadSet} (there : defs.overloads[into.index]? = some members)
    (free : members.get? suffix = none) :
    defs.Keeps (defs.insertOverload into suffix member) := by
  refine ⟨fun found => found, fun {i set suffix' id} held mem => ?_⟩
  rw [getElem?_insertOverload]
  split
  · next same =>
    subst same
    rw [there] at held
    cases held
    refine ⟨members.insert suffix member, by rw [there, Option.map_some], ?_⟩
    rw [OverloadSet.get?_insert_of_ne _ ?_]
    · exact mem
    · rintro rfl
      rw [free] at mem
      cases mem
  · exact ⟨set, held, mem⟩

/-! ## The end of the way -/

/-- Going from alias to alias ends at a definition that is none. -/
inductive Names (defs : Definitions) : DefId → DefId → Prop where
  | itself {id : DefId} {d : Definition} (found : defs.find? id = some d) (h : d.target = none) :
      Names defs id id
  | through {id target final : DefId} {d : Definition} (found : defs.find? id = some d)
      (h : d.target = some target) (names : Names defs target final) : Names defs id final

namespace Names

variable {id final final' : DefId}

theorem known (h : defs.Names id final) : defs.Known id := by
  cases h with
  | itself found _ => exact known_of_find? found
  | through found _ _ => exact known_of_find? found

theorem known_final (h : defs.Names id final) : defs.Known final := by
  induction h with
  | itself found _ => exact known_of_find? found
  | through _ _ _ ih => exact ih

theorem unique (h : defs.Names id final) (h' : defs.Names id final') : final = final' := by
  induction h with
  | itself found none =>
    cases h' with
    | itself => rfl
    | through found' some _ =>
      rw [found] at found'
      cases found'
      rw [none] at some
      cases some
  | through found some _ ih =>
    cases h' with
    | itself found' none =>
      rw [found] at found'
      cases found'
      rw [none] at some
      cases some
    | through found' some' names' =>
      rw [found] at found'
      cases found'
      rw [some] at some'
      cases some'
      exact ih names'

theorem keeps (h : defs.Names id final) (keeps : defs.Keeps defs') : defs'.Names id final := by
  induction h with
  | itself found none => exact .itself (keeps.defined found) none
  | through found some _ ih => exact .through (keeps.defined found) some ih

end Names

theorem Descends.names_of_followTargets {steps : Nat} {passed : List DefId} {id final : DefId}
    (descends : defs.Descends) (known : defs.Known id)
    (h : defs.followTargets steps passed id = .ok final) : defs.Names id final := by
  obtain ⟨d, found⟩ := known.find?
  have target : defs.target? id = d.target := by rw [target?, found, Option.bind_some]
  induction steps generalizing passed id d with
  | zero =>
    unfold Definitions.followTargets at h
    rw [target] at h
    split at h
    · next none =>
      cases h
      exact .itself found none
    · split at h <;> cases h
  | succ steps ih =>
    unfold Definitions.followTargets at h
    rw [target] at h
    split at h
    · next none =>
      cases h
      exact .itself found none
    · next next some =>
      split at h
      · cases h
      · -- the target of an alias comes before it, so it is known as well
        have next_known : defs.Known next := Nat.lt_trans (descends.earlier found some) known
        obtain ⟨d', found'⟩ := next_known.find?
        exact .through found some
          (ih next_known h d' found' (by rw [target?, found', Option.bind_some]))

theorem Descends.resolveAlias_iff (descends : defs.Descends) {id final : DefId}
    (known : defs.Known id) : defs.resolveAlias id = .ok final ↔ defs.Names id final := by
  refine ⟨descends.names_of_followTargets known, fun names => ?_⟩
  obtain ⟨final', resolved, -⟩ := descends.resolveAlias known
  rw [resolved, names.unique (descends.names_of_followTargets known resolved)]

theorem Valid.resolveAlias_iff (valid : defs.Valid) {id final : DefId} (known : defs.Known id) :
    defs.resolveAlias id = .ok final ↔ defs.Names id final :=
  valid.descends.resolveAlias_iff known

/-- No later operation changes what a definition finally is. -/
theorem Keeps.resolveAlias_of_descends (h : defs.Keeps defs') (descends : defs.Descends)
    (descends' : defs'.Descends) {id : DefId} (known : defs.Known id) :
    defs'.resolveAlias id = defs.resolveAlias id := by
  obtain ⟨final, resolved, -⟩ := descends.resolveAlias known
  rw [resolved, descends'.resolveAlias_iff (h.known known)]
  exact ((descends.resolveAlias_iff known).mp resolved).keeps h

theorem Keeps.resolveAlias (h : defs.Keeps defs') (valid : defs.Valid) (valid' : defs'.Valid)
    {id : DefId} (known : defs.Known id) : defs'.resolveAlias id = defs.resolveAlias id :=
  h.resolveAlias_of_descends valid.descends valid'.descends known

/-- What a definition finally is. -/
def FinallyIs (defs : Definitions) (id : DefId) (what : Definition → Prop) : Prop :=
  ∃ final d, defs.resolveAlias id = .ok final ∧ defs.find? final = some d ∧ what d

theorem FinallyIs.known {what : Definition → Prop} {id : DefId} (h : defs.FinallyIs id what) :
    defs.Known id := by
  obtain ⟨final, d, resolved, found, -⟩ := h
  -- of an id that is not known nothing is found, and nothing is followed
  refine Nat.lt_of_not_le fun beyond => ?_
  have none : defs.find? id = none := Array.getElem?_eq_none beyond
  have itself : defs.resolveAlias id = .ok id := by
    rw [Definitions.resolveAlias]
    unfold followTargets
    rw [target?, none, Option.bind_none]
  rw [itself] at resolved
  cases resolved
  rw [none] at found
  cases found

theorem FinallyIs.keeps {what : Definition → Prop} {id : DefId} (h : defs.FinallyIs id what)
    (keeps : defs.Keeps defs') (valid : defs.Valid) (valid' : defs'.Valid) :
    defs'.FinallyIs id what := by
  have known := h.known
  obtain ⟨final, d, resolved, found, holds⟩ := h
  exact ⟨final, d, (keeps.resolveAlias valid valid' known).trans resolved, keeps.defined found,
    holds⟩

/-- A definition that is no alias is what it is. -/
theorem finallyIs_self {what : Definition → Prop} {id : DefId} {d : Definition}
    (valid : defs.Valid) (found : defs.find? id = some d) (noTarget : d.target = none)
    (h : what d) : defs.FinallyIs id what :=
  ⟨id, d, (valid.resolveAlias_iff (known_of_find? found)).mpr (.itself found noTarget), found, h⟩

/-- An alias is what its target is. -/
theorem FinallyIs.through {what : Definition → Prop} {id target : DefId} {d : Definition}
    (valid : defs.Valid) (found : defs.find? id = some d) (names : d.target = some target)
    (h : defs.FinallyIs target what) : defs.FinallyIs id what := by
  have known := h.known
  obtain ⟨final, d', resolved, found', holds⟩ := h
  refine ⟨final, d', ?_, found', holds⟩
  exact (valid.resolveAlias_iff (known_of_find? found)).mpr
    (.through found names ((valid.resolveAlias_iff known).mp resolved))

end Definitions

end NameResolution
