import NameResolution.Proofs.Declaration.Filing
import NameResolution.Proofs.Declaration.Redefinitions
import NameResolution.Proofs.Declaration.Mirror

/-! # Names that clash

    Which declaration of a name comes too late is a matter of their order, but
    whether one of them does is not: something is reported if and only if two
    declarations clash. Where none do, what a name stands for does not depend on
    the order of its declarations either. -/

namespace NameResolution

namespace Declaration

/-- Two functions with different suffixes. -/
def Apart (d d' : Declaration) : Prop :=
  ∃ suffix suffix', d.suffix? = some suffix ∧ d'.suffix? = some suffix' ∧ suffix ≠ suffix'

/-- Two declarations that cannot both have their name in their module. -/
structure Clash (d d' : Declaration) : Prop where
  home : d.home = d'.home
  sort : d.kind.namespace? = d'.kind.namespace?
  name : d.ident.name = d'.ident.name
  notApart : ¬ d.Apart d'

theorem Apart.symm {d d' : Declaration} (h : d.Apart d') : d'.Apart d := by
  obtain ⟨suffix, suffix', labelled, labelled', ne⟩ := h
  exact ⟨suffix', suffix, labelled', labelled, ne.symm⟩

theorem Clash.symm {d d' : Declaration} (h : d.Clash d') : d'.Clash d :=
  ⟨h.home.symm, h.sort.symm, h.name.symm, fun apart => h.notApart apart.symm⟩

end Declaration

open Declaration (Apart Clash)

/-- No two owners have the same module. -/
def Definitions.Separate (defs : Definitions) : Prop :=
  ∀ {owner owner' : RegionOwner} {id : ModuleId}, defs.moduleOf owner = some id →
    defs.moduleOf owner' = some id → owner = owner'

/-- A module has only one owner, and each owner has it recorded. -/
theorem Owned.separate {defs : Definitions} {tree : ModuleTree} (owned : Owned defs tree)
    (valid : defs.Valid) : defs.Separate := by
  have ownerOf {owner : RegionOwner} {id : ModuleId} (held : defs.moduleOf owner = some id) :
      ∃ m, tree.find? id = some m ∧ defs.ownerOf owner = some m.owner := by
    cases owner with
    | none => cases held
    | item node =>
      obtain ⟨definition, ofNode, held⟩ := Option.bind_eq_some_iff.mp held
      obtain ⟨m, found, isOwner⟩ := owned.definition held
      exact ⟨m, found, Option.map_eq_some_iff.mpr ⟨definition, ofNode, isOwner.symm⟩⟩
    | block node =>
      obtain ⟨m, found, isOwner⟩ := owned.block held
      exact ⟨m, found, congrArg some isOwner.symm⟩
  intro owner owner' id held held'
  obtain ⟨m, found, isOwner⟩ := ownerOf held
  obtain ⟨m', found', isOwner'⟩ := ownerOf held'
  rw [found] at found'
  cases found'
  rw [← isOwner'] at isOwner
  cases owner with
  | none => cases held
  | block node =>
    cases owner' with
    | none => cases held'
    | block node' =>
      cases isOwner
      rfl
    | item node' =>
      obtain ⟨_, -, eq⟩ := Option.map_eq_some_iff.mp isOwner.symm
      cases eq
  | item node =>
    cases owner' with
    | none => cases held'
    | block node' =>
      obtain ⟨_, -, eq⟩ := Option.map_eq_some_iff.mp isOwner
      cases eq
    | item node' =>
      -- the two nodes have one definition, and that is made at one of them
      obtain ⟨definition, ofNode, -⟩ := Option.bind_eq_some_iff.mp held
      obtain ⟨definition', ofNode', -⟩ := Option.bind_eq_some_iff.mp held'
      rw [Definitions.ownerOf, Definitions.ownerOf, ofNode, ofNode'] at isOwner
      cases isOwner
      rw [valid.node_injective ofNode ofNode']

variable {defs defs' : Definitions} {declarations declarations' : List Declaration}
  {reports : List Diagnostic} {module module' : ModuleId} {ns : Namespace} {name : String}

/-! ## Reports -/

/-- Of several declarations of one name without a clash, all are functions. -/
theorem apart_of_clashFree (free : declarations.Pairwise fun d d' => ¬ d.Clash d')
    (separate : defs.Separate) :
    (declaredAt defs declarations module ns name).Pairwise Apart := by
  have filtered : (declaredAt defs declarations module ns name).Pairwise
      fun d d' => ¬ d.Clash d' := free.sublist List.filter_sublist
  refine filtered.imp_of_mem fun {d d'} mem mem' noClash => ?_
  have here : d.IsAt defs module ns name := of_decide_eq_true (List.mem_filter.mp mem).2
  have here' : d'.IsAt defs module ns name := of_decide_eq_true (List.mem_filter.mp mem').2
  by_contra notApart
  exact noClash ⟨separate here.module here'.module, here.sort.trans here'.sort.symm,
    here.name.trans here'.name.symm, notApart⟩

/-- One function among declarations that are all apart makes all of them functions. -/
theorem isSome_suffix?_of_apart {first : Declaration} {others : List Declaration}
    (apart : (first :: others).Pairwise Apart) (function : first.suffix?.isSome) :
    ∀ d ∈ first :: others, d.suffix?.isSome := by
  intro d mem
  rcases List.mem_cons.mp mem with rfl | mem
  · exact function
  · obtain ⟨_, suffix, -, labelled, -⟩ := (List.pairwise_cons.mp apart).1 d mem
    rw [labelled]
    rfl

theorem mem_of_firstWith {suffix : String} {d : Declaration}
    (held : firstWith declarations suffix = some d) :
    d ∈ declarations ∧ d.suffix? = some suffix := by
  refine ⟨List.mem_of_find?_eq_some held, ?_⟩
  have chosen := List.find?_some held
  simpa using chosen

theorem firstWith_eq_none_iff {suffix : String} :
    firstWith declarations suffix = none ↔ ∀ d ∈ declarations, d.suffix? ≠ some suffix := by
  simp [firstWith]

/-- Nothing is reported if and only if no two declarations clash. -/
theorem Reports.eq_nil_iff (h : Reports defs declarations reports) (separate : defs.Separate) :
    reports = [] ↔ declarations.Pairwise fun d d' => ¬ d.Clash d' := by
  induction h with
  | nil => exact iff_of_true rfl .nil
  | @snoc declarations d reports reply module ns before here replied ih =>
    rw [List.append_eq_nil_iff, ih, List.pairwise_append]
    simp only [List.pairwise_singleton, true_and, List.mem_singleton, forall_eq]
    refine and_congr_right fun free => ?_
    have apart : (declaredAt defs declarations module ns d.ident.name).Pairwise Apart :=
      apart_of_clashFree free separate
    -- what has the name of the new one, and what could clash with it, are the same
    have named (d' : Declaration) : d' ∈ declaredAt defs declarations module ns d.ident.name ↔
        d' ∈ declarations ∧ d'.IsAt defs module ns d.ident.name := by
      rw [declaredAt, List.mem_filter, decide_eq_true_eq]
    have clash_iff : (∀ d' ∈ declarations, ¬ d'.Clash d) ↔
        ∀ d' ∈ declaredAt defs declarations module ns d.ident.name, d'.Apart d := by
      constructor
      · intro noClash d' mem
        obtain ⟨mem, there⟩ := (named d').mp mem
        by_contra notApart
        exact noClash d' mem ⟨separate there.module here.module, there.sort.trans here.sort.symm,
          there.name, notApart⟩
      · intro apart d' mem clash
        refine clash.notApart (apart d' ((named d').mpr ⟨mem, ?_, ?_, clash.name⟩))
        · rw [clash.home]
          exact here.module
        · rw [clash.sort]
          exact here.sort
    rw [clash_iff]
    generalize declaredAt defs declarations module ns d.ident.name = others at replied apart
    cases replied with
    | first => simp
    | @taken first others single =>
      refine iff_of_false (by simp) fun apart => ?_
      obtain ⟨_, _, labelled, -⟩ := apart first (List.mem_cons_self ..)
      rw [single] at labelled
      cases labelled
    | @joins first others suffix function labelled isFree =>
      refine iff_of_true rfl fun d' mem => ?_
      obtain ⟨suffix', labelled'⟩ :=
        Option.isSome_iff_exists.mp (isSome_suffix?_of_apart apart function d' mem)
      refine ⟨suffix', suffix, labelled', labelled, ?_⟩
      rintro rfl
      exact firstWith_eq_none_iff.mp isFree d' mem labelled'
    | @repeats first earlier others suffix function labelled held =>
      refine iff_of_false (by simp) fun apart => ?_
      obtain ⟨mem, held'⟩ := mem_of_firstWith held
      obtain ⟨_, _, labelled', labelled'', ne⟩ := apart earlier mem
      rw [held'] at labelled'
      rw [labelled] at labelled''
      cases labelled'
      cases labelled''
      exact ne rfl
    | @shadowed first shown others suffix function notFunction held least =>
      refine iff_of_false (by simp) fun apart => ?_
      obtain ⟨_, _, -, labelled, -⟩ := apart first (List.mem_cons_self ..)
      rw [notFunction] at labelled
      cases labelled

/-- So the order of the declarations makes no difference to that. -/
theorem Reports.eq_nil_of_perm (h : Reports defs declarations [])
    (h' : Reports defs' declarations' reports) (separate : defs.Separate)
    (separate' : defs'.Separate) (perm : declarations'.Perm declarations) : reports = [] := by
  have free := (h.eq_nil_iff separate).mp rfl
  refine (h'.eq_nil_iff separate').mpr ?_
  exact (perm.pairwise_iff fun {_ _} noClash clash => noClash clash.symm).mpr free

/-! ## Names that stand for the same -/

/-- The declarations of a name are the same in two tables, in another order at most. -/
theorem perm_declaredAt (perm : declarations'.Perm declarations) (separate : defs.Separate)
    (separate' : defs'.Separate) (same : defs.SameModule defs' module module') (ns : Namespace)
    (name : String) :
    (declaredAt defs' declarations' module' ns name).Perm
      (declaredAt defs declarations module ns name) := by
  obtain ⟨owner, held, held'⟩ := same
  have isAt_iff {defs : Definitions} {module : ModuleId} (separate : defs.Separate)
      (held : defs.moduleOf owner = some module) (d : Declaration) :
      d.IsAt defs module ns name ↔
        d.home = owner ∧ d.kind.namespace? = some ns ∧ d.ident.name = name := by
    constructor
    · intro here
      exact ⟨separate here.module held, here.sort, here.name⟩
    · rintro ⟨rfl, sort, named⟩
      exact ⟨held, sort, named⟩
  have filters : declaredAt defs' declarations' module' ns name =
      declarations'.filter (·.IsAt defs module ns name) :=
    List.filter_congr fun d _ => decide_eq_decide.mpr
      ((isAt_iff separate' held' d).trans (isAt_iff separate held d).symm)
  rw [filters]
  exact perm.filter _

theorem firstWith_eq_some_iff (apart : declarations.Pairwise Apart) {suffix : String}
    {d : Declaration} :
    firstWith declarations suffix = some d ↔ d ∈ declarations ∧ d.suffix? = some suffix := by
  constructor
  · exact mem_of_firstWith
  · rintro ⟨mem, labelled⟩
    induction declarations with
    | nil => cases mem
    | cons first others ih =>
      obtain ⟨here, others_apart⟩ := List.pairwise_cons.mp apart
      by_cases held : first.suffix? = some suffix
      · rcases List.mem_cons.mp mem with rfl | mem
        · simp [firstWith, held]
        · obtain ⟨_, _, eq, eq', ne⟩ := here d mem
          rw [held] at eq
          rw [labelled] at eq'
          cases eq
          cases eq'
          exact absurd rfl ne
      · rcases List.mem_cons.mp mem with rfl | mem
        · exact absurd labelled held
        · have later : firstWith (first :: others) suffix = firstWith others suffix := by
            simp [firstWith, held]
          rw [later]
          exact ih others_apart mem

/-- Among functions with different suffixes their order makes no difference. -/
theorem firstWith_perm (perm : declarations'.Perm declarations)
    (apart : declarations.Pairwise Apart) (suffix : String) :
    firstWith declarations' suffix = firstWith declarations suffix := by
  have apart' : declarations'.Pairwise Apart := (perm.pairwise_iff Apart.symm).mpr apart
  refine Option.ext fun d => ?_
  rw [firstWith_eq_some_iff apart, firstWith_eq_some_iff apart', perm.mem_iff]

theorem Declaration.Made.twins {d : Declaration} {id id' : DefId} (made : d.Made defs id)
    (made' : d.Made defs' id') : defs.Twins defs' id id' :=
  ⟨_, _, made.find?, made'.find?, rfl⟩

/-- Where no two declarations clash, a name stands for the same in whatever order they come. -/
theorem StandsFor.mirrored {binding binding' : Option Binding}
    (h : StandsFor defs declarations binding) (h' : StandsFor defs' declarations' binding')
    (perm : declarations'.Perm declarations) (apart : declarations.Pairwise Apart) :
    Option.Rel (Binding.Mirrored defs defs') binding binding' := by
  have apart' : declarations'.Pairwise Apart := (perm.pairwise_iff Apart.symm).mpr apart
  cases h with
  | nothing =>
    rw [List.perm_nil] at perm
    subst perm
    cases h'
    exact .none
  | @single first others id single made =>
    -- anything else of this name would have to be apart from what is no function
    have alone : others = [] := by
      cases others with
      | nil => rfl
      | cons second others =>
        obtain ⟨_, _, labelled, -⟩ := (List.pairwise_cons.mp apart).1 second (List.mem_cons_self ..)
        rw [single] at labelled
        cases labelled
    subst alone
    rw [List.perm_singleton] at perm
    subst perm
    cases h' with
    | single _ made' => exact .some (.definition (made.twins made'))
    | functions function _ =>
      rw [single] at function
      cases function
  | @functions first others set function members =>
    cases h' with
    | nothing => cases perm.nil_eq
    | single single' _ =>
      have function' := isSome_suffix?_of_apart apart function _
        (perm.subset (List.mem_cons_self ..))
      rw [single'] at function'
      cases function'
    | functions _ members' =>
      refine .some (.overloads fun suffix => ?_)
      have member' := members' suffix
      rw [firstWith_perm perm apart] at member'
      exact rel_of_common (members suffix) member' fun _ _ _ made made' => made.twins made'

end NameResolution
