import NameResolution.Proofs.Tables.Writes

/-! # Chains of aliases

    An alias is made of what is there already, so it names a definition with a
    smaller id, and a chain of aliases has to end. This is so of any tables that
    operations lead to, in whatever order and with whatever arguments: nothing
    but the targets is looked at, and nobody has to keep the tables in order. -/

namespace NameResolution

/-- Operations one after another, each of which goes through. -/
def TableOperations : Definitions × ModuleTree → Definitions × ModuleTree → Prop :=
  Relation.ReflTransGen TableOperation

theorem TableOperations.writes {tables tables' : Definitions × ModuleTree}
    (h : TableOperations tables tables') : TableWrites tables tables' := by
  induction h with
  | refl => exact .refl _
  | tail _ last ih => exact ih.trans last.writes

theorem TableOperations.keeps {tables tables' : Definitions × ModuleTree}
    (h : TableOperations tables tables') : tables.1.Keeps tables'.1 := by
  induction h with
  | refl => exact .refl _
  | tail _ last ih => exact ih.trans last.keeps

/-! ## Layers -/

namespace Definitions

variable {defs defs' : Definitions}

/-- Aliases alone have targets, each lies over its target, and sets are made of what is there. -/
structure Layered (defs : Definitions) : Prop extends Descends defs where
  target_isSome : ∀ {id : DefId} {d : Definition}, defs.find? id = some d →
    (d.target.isSome ↔ d.kind = .importAlias)
  members : ∀ {set : OverloadId} {suffix : String} {id : DefId},
    defs.member? set suffix = some id → defs.Known id

namespace Layered

theorem empty : Layered .empty where
  earlier h := by simp [Definitions.empty, find?] at h
  target_isSome h := by simp [Definitions.empty, find?] at h
  members h := by simp [Definitions.empty, member?] at h

/-- Only definitions and members of sets matter. -/
theorem of_eq (h : defs.Layered) (entries : defs'.entries = defs.entries)
    (members : ∀ {set : OverloadId} {suffix : String} {id : DefId},
      defs'.member? set suffix = some id → defs.member? set suffix = some id ∨ defs.Known id) :
    defs'.Layered where
  earlier {id target d} found := by
    rw [find?, entries] at found
    exact h.earlier found
  target_isSome {id d} found := by
    rw [find?, entries] at found
    exact h.target_isSome found
  members {set suffix id} mem := by
    have known : defs.Known id := (members mem).elim h.members fun known => known
    unfold Known size at *
    rw [entries]
    exact known

theorem push (h : defs.Layered) {isPub : Bool} {node : NodeId} {kind : DefKind} {ident : Ident}
    {target : Option DefId} (known : ∀ t, target = some t → defs.Known t)
    (isAlias : target.isSome ↔ kind = .importAlias) :
    (defs.push isPub node kind ident target).Layered where
  earlier {id t d} found named := by
    rw [find?_push] at found
    split at found
    · next isNew =>
      cases found
      rw [isNew]
      exact known t named
    · exact h.earlier found named
  target_isSome {id d} found := by
    rw [find?_push] at found
    split at found
    · cases found
      exact isAlias
    · exact h.target_isSome found
  members mem := (keeps_push ..).known (h.members mem)

theorem declared (h : defs.Layered) {isPub : Bool} {node : NodeId} {kind : DefKind}
    {ident : Ident} (notAlias : kind ≠ .importAlias) :
    (defs.declared isPub node kind ident).Layered := by
  have pushed : (defs.push isPub node kind ident none).Layered :=
    h.push (by simp) (by simpa using notAlias)
  exact pushed.of_eq rfl .inl

/-- A target is there. -/
theorem known_target (h : defs.Layered) {id target : DefId} {d : Definition}
    (found : defs.find? id = some d) (named : d.target = some target) : defs.Known target :=
  Nat.lt_trans (h.earlier found named) (known_of_find? found)

/-- What aliases lead to is none. -/
theorem kind_of_names (h : defs.Layered) {id final : DefId} (names : defs.Names id final) :
    ∃ d, defs.find? final = some d ∧ d.kind ≠ .importAlias := by
  induction names with
  | @itself id d found noTarget =>
    refine ⟨d, found, fun isAlias => ?_⟩
    have isSome := (h.target_isSome found).mpr isAlias
    rw [noTarget] at isSome
    cases isSome
  | through _ _ _ ih => exact ih

/-- An alias is what it has been made of. -/
theorem resolveAlias_of_target (h : defs.Layered) {id target : DefId} {d : Definition}
    (found : defs.find? id = some d) (named : d.target = some target) :
    defs.resolveAlias id = defs.resolveAlias target := by
  have known := h.known_target found named
  obtain ⟨final, resolved, -⟩ := h.resolveAlias known
  rw [resolved, h.resolveAlias_iff (known_of_find? found)]
  exact .through found named ((h.resolveAlias_iff known).mp resolved)

end Layered

end Definitions

/-- No entry that is written disturbs the layers. -/
theorem TableWrite.layered {tables tables' : Definitions × ModuleTree}
    (h : TableWrite tables tables') (layered : tables.1.Layered) : tables'.1.Layered := by
  cases h with
  | definition notAlias _ => exact layered.declared notAlias
  | importAlias known =>
    exact layered.push (fun t named => Option.some.inj named ▸ known) (by simp)
  | overloads =>
    refine layered.of_eq rfl fun {set suffix id} mem => .inl ?_
    rwa [Definitions.member?_newOverloads] at mem
  | member known held _ =>
    refine layered.of_eq rfl fun mem => ?_
    rcases Definitions.member?_insertOverload_cases held mem with before | ⟨-, rfl⟩
    · exact .inl before
    · exact .inr known
  | moduleOf | moduleOfBlock => exact layered.of_eq rfl .inl
  | module | child | anonymousChild | name => exact layered

theorem TableWrites.layered {tables tables' : Definitions × ModuleTree}
    (h : TableWrites tables tables') (layered : tables.1.Layered) : tables'.1.Layered := by
  induction h with
  | refl => exact layered
  | tail _ last ih => exact last.layered ih

/-! ## Where chains end -/

/-- Whatever operations have led to the tables: the target of an alias has a smaller id than the
    alias; from any definition the way over targets ends, in as many steps as its id says at
    most, at one that is no alias; an alias is in the end what its target is, whether it has been
    made alone or with the functions of a set; and none of this is changed by what comes later. -/
theorem aliases_lead_to_definitions {fresh tree : ModuleTree} {defs : Definitions}
    (reached : TableOperations (.empty, fresh) (defs, tree)) :
    (∀ id d, defs.find? id = some d →
      (d.kind = .importAlias ↔ ∃ target, d.target = some target) ∧
        ∀ target, d.target = some target → target.index < id.index ∧ defs.Known target) ∧
    (∀ id, defs.Known id → ∃ final d, defs.resolveAlias id = .ok final ∧
      (∀ steps, id.index ≤ steps → defs.followTargets steps [] id = .ok final) ∧
      defs.find? final = some d ∧ d.kind ≠ .importAlias) ∧
    (∀ id target, defs.target? id = some target →
      defs.resolveAlias id = defs.resolveAlias target) ∧
    (∀ isPub node ident target made defs',
      defs.defineAlias isPub node ident target = .ok (made, defs') →
        defs'.target? made = some target ∧
          defs'.resolveAlias made = defs.resolveAlias target) ∧
    (∀ isPub node source into publicOnly joined taken defs',
      defs.importOverloads isPub node source into publicOnly = .ok (joined, taken, defs') →
        ∀ made, ¬ defs.Known made → defs'.Known made → ∃ suffix target,
          defs'.member? joined suffix = some made ∧ defs.member? source suffix = some target ∧
            defs'.target? made = some target ∧
            defs'.resolveAlias made = defs'.resolveAlias target) ∧
    ∀ defs' tree', TableOperations (defs, tree) (defs', tree') → ∀ id, defs.Known id →
      defs'.resolveAlias id = defs.resolveAlias id := by
  have layered : defs.Layered := reached.writes.layered .empty
  have later {tables : Definitions × ModuleTree} (h : TableOperations (defs, tree) tables) :
      tables.1.Layered := h.writes.layered layered
  have stays {tables : Definitions × ModuleTree} (h : TableOperations (defs, tree) tables)
      {id : DefId} (known : defs.Known id) : tables.1.resolveAlias id = defs.resolveAlias id :=
    h.keeps.resolveAlias_of_descends layered.toDescends (later h).toDescends known
  refine ⟨fun id d found => ⟨?_, fun target named => ?_⟩, fun id known => ?_,
    fun id target named => ?_, fun isPub node ident target made defs' run => ?_,
    fun isPub node source into publicOnly joined taken defs' run made new known => ?_,
    fun defs' tree' h id known => stays h known⟩
  · rw [← layered.target_isSome found, Option.isSome_iff_exists]
  · exact ⟨layered.earlier found named, layered.known_target found named⟩
  · obtain ⟨final, resolved, -⟩ := layered.resolveAlias known
    have names := (layered.resolveAlias_iff known).mp resolved
    obtain ⟨d, found, notAlias⟩ := layered.kind_of_names names
    refine ⟨final, d, resolved, fun steps enough => ?_, found, notAlias⟩
    -- both walks end where the targets lead, whatever bound they have been given
    obtain ⟨final', walked, -⟩ := layered.followTargets steps [] id known enough (by simp)
    rw [walked, names.unique (layered.names_of_followTargets known walked)]
  · obtain ⟨d, found, named⟩ := Option.bind_eq_some_iff.mp named
    exact layered.resolveAlias_of_target found named
  · have h : TableOperations (defs, tree) (defs', tree) := .single (.defineAlias run)
    obtain ⟨⟨d, found, -, named⟩, -, -⟩ := Definitions.aliasAt_of_defineAlias run
    obtain ⟨known, -⟩ := Definitions.defineAlias_eq_ok.mp run
    refine ⟨by rw [Definitions.target?, found, Option.bind_some, named], ?_⟩
    rw [(later h).resolveAlias_of_target found named, stays h known]
  · have h : TableOperations (defs, tree) (defs', tree) := .single (.importOverloads run)
    obtain ⟨-, copies⟩ := Yields.true_iff.mp Definitions.importOverloads_copies _ run
    obtain ⟨suffix, mem⟩ := copies.joined made new known
    rcases copies.taken suffix made mem with before | ⟨-, target, ⟨d, found, -, named⟩, there, -⟩
    · exact absurd (layered.members before) new
    · refine ⟨suffix, target, mem, there, ?_, (later h).resolveAlias_of_target found named⟩
      rw [Definitions.target?, found, Option.bind_some, named]

/-- A struct, an alias of it, and an alias of the alias. -/
def Definitions.chained : Definitions :=
  ((Definitions.empty.declared true ⟨1⟩ .struct ⟨"S", ⟨7, 1⟩⟩).push false ⟨2⟩ .importAlias
    ⟨"T", ⟨20, 1⟩⟩ (some ⟨0⟩)).push true ⟨3⟩ .importAlias ⟨"U", ⟨30, 1⟩⟩ (some ⟨1⟩)

theorem aliases_lead_to_definitions_chained :
    TableOperations (.empty, .new) (.chained, .new) ∧
      ∃ final d, Definitions.chained.resolveAlias ⟨2⟩ = .ok final ∧
        Definitions.chained.find? final = some d ∧ d.kind ≠ .importAlias := by
  have reached : TableOperations (.empty, .new) (.chained, .new) :=
    ((Relation.ReflTransGen.single
      (.define (Definitions.define_eq (by decide) rfl))).tail
      (.defineAlias (Definitions.defineAlias_eq (by decide)))).tail
      (.defineAlias (Definitions.defineAlias_eq (by decide)))
  have known : Definitions.chained.Known ⟨2⟩ := by decide
  obtain ⟨final, d, resolved, -, found, notAlias⟩ :=
    (aliases_lead_to_definitions reached).2.1 ⟨2⟩ known
  exact ⟨reached, final, d, resolved, found, notAlias⟩

end NameResolution
