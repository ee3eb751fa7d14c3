import NameResolution.Proofs.Import.Finding
import NameResolution.Proofs.Import.Outcome
import NameResolution.Proofs.Import.Steps
import NameResolution.Proofs.Tables.Moments

/-! # Moves of the import phase

    However deep the lookups of the import phase are nested, all that ever
    happens is that a directive is opened, or that one comes to its end: it
    fails, finds the module it reads from, or binds its name. Besides, a glob
    may bring in a name. What is found is there at that moment, and nothing else
    is halfway through. So whatever is to hold of the whole phase is shown of
    these few moves. -/

namespace NameResolution

theorem hasErrors_append (ds more : List Diagnostic) :
    hasErrors (ds ++ more) = (hasErrors ds || hasErrors more) := List.any_append

variable {n : Nat}

namespace Importing

/-! ## Moves -/

/-- A directive brings in what its module may see of something, under a name of its own. Before it
    does there may be warnings. -/
inductive Brings (directive : Directive) (name : Ident) (ns : Namespace) (source : ModuleId)
    (binding : Binding) (s s' : ImportState n) : Prop where
  | intro {inside pub : Bool} {more : List Diagnostic}
      (within : s.tree.isWithin directive.module source = .ok inside)
      (isPub : isPub s.defs binding = .ok pub) (others : ∀ d ∈ more, d.isRedefinition = false)
      (outcome : Outcome directive ns name (!inside && pub)
        { s with diagnostics := s.diagnostics ++ more } binding s')

theorem Brings.of_outcome {directive : Directive} {name : Ident} {ns : Namespace}
    {source : ModuleId} {binding : Binding} {s s' : ImportState n} {inside pub : Bool}
    (within : s.tree.isWithin directive.module source = .ok inside)
    (isPub : isPub s.defs binding = .ok pub)
    (outcome : Outcome directive ns name (!inside && pub) s binding s') :
    Brings directive name ns source binding s s' := by
  have nothing : ∀ d ∈ ([] : List Diagnostic), d.isRedefinition = false := List.forall_mem_nil _
  exact .intro within isPub nothing (by rwa [List.append_nil])

/-- The same of everything that a single import has found, in order. -/
inductive BringsAll (directive : Directive) (name : Ident) :
    List (Namespace × ModuleId × Binding) → ImportState n → ImportState n → Prop where
  | nil {s : ImportState n} : BringsAll directive name [] s s
  | cons {ns : Namespace} {source : ModuleId} {binding : Binding}
      {found : List (Namespace × ModuleId × Binding)} {s s₁ s' : ImportState n}
      (first : Brings directive name ns source binding s s₁)
      (others : BringsAll directive name found s₁ s') :
      BringsAll directive name ((ns, source, binding) :: found) s s'

/-- What a directive may do at a time. -/
inductive Move (imports : Imports n) (i : Fin n) (s : ImportState n) : ImportState n → Prop where
  | opens (pending : s.statusOf i = .pending) : Move imports i s (s.withStatus i .inProgress)
  | fails {status : ImportStatus} (inProgress : s.statusOf i = .inProgress)
      (failed : status = .failed ∨ status = .cycleFailed) :
      Move imports i s (s.withStatus i status)
  /-- A glob has found the module it reads from -/
  | reads {source : ModuleId} (inProgress : s.statusOf i = .inProgress)
      (isGlob : (imports.get i).isGlob = true) :
      Move imports i s (s.withStatus i (.done (some source)))
  /-- A single import has found something -/
  | binds {target : ImportTarget} {module : ModuleId}
      {found : List (Namespace × ModuleId × Binding)} {s' : ImportState n}
      (inProgress : s.statusOf i = .inProgress)
      (hasTarget : (imports.get i).target? = some target)
      (finds : SingleFound imports i s target module found)
      (brings : BringsAll (imports.get i) target.name found s s') :
      Move imports i s (s'.withStatus i (.done none))
  /-- A glob brings in a name that its module may see. The single imports of the module come
      first -/
  | spreads {source : ModuleId} {ns : Namespace} {name : String} {binding : Binding}
      {s' : ImportState n} (isGlob : (imports.get i).isGlob = true)
      (done : s.statusOf i = .done (some source))
      (there : s.tree.bindingAt? source ns name = some binding)
      (free : s.tree.bindingAt? (imports.get i).module ns name = none)
      (settled : Settled imports s i (imports.get i).module name)
      (visible : s.tree.isWithin (imports.get i).module source = .ok true ∨
        isPub s.defs binding = .ok true)
      (brings : Brings (imports.get i) ⟨name, (imports.get i).span⟩ ns source binding s s') :
      Move imports i s s'

/-- A move of a directive that is not among those in progress, or only more diagnostics, none of
    them about a name that is taken. -/
inductive Step (imports : Imports n) (opened : List (Fin n)) (s : ImportState n) :
    ImportState n → Prop where
  | moves {i : Fin n} {s' : ImportState n} (other : i ∉ opened) (move : Move imports i s s') :
      Step imports opened s s'
  | reports {more : List Diagnostic} (others : ∀ d ∈ more, d.isRedefinition = false) :
      Step imports opened s { s with diagnostics := s.diagnostics ++ more }

/-- Any number of steps in the course of some directives. -/
def Steps (imports : Imports n) (opened : List (Fin n)) : ImportState n → ImportState n → Prop :=
  Relation.ReflTransGen (Step imports opened)

/-- Any number of steps in which one directive takes no part, its status aside. -/
def Beside (imports : Imports n) (i : Fin n) : ImportState n → ImportState n → Prop :=
  Relation.ReflTransGen fun s s' =>
    Step imports [i] s s' ∨ ∃ status, s' = s.withStatus i status

variable {imports : Imports n} {i : Fin n} {opened : List (Fin n)} {s s' s'' : ImportState n}

namespace Steps

theorem refl (s : ImportState n) : Steps imports opened s s := Relation.ReflTransGen.refl

theorem trans (h : Steps imports opened s s') (h' : Steps imports opened s' s'') :
    Steps imports opened s s'' := Relation.ReflTransGen.trans h h'

theorem single (h : Step imports opened s s') : Steps imports opened s s' :=
  Relation.ReflTransGen.single h

/-- In the course of fewer directives the same may happen. -/
theorem mono {fewer : List (Fin n)} (h : Steps imports opened s s') (subset : fewer ⊆ opened) :
    Steps imports fewer s s' := by
  have same {a b : ImportState n} (step : Step imports opened a b) : Step imports fewer a b := by
    cases step with
    | moves other move => exact .moves (fun mem => other (subset mem)) move
    | reports others => exact .reports others
  exact Relation.ReflTransGen.mono (fun _ _ => same) _ _ h

theorem beside (h : Steps imports opened s s') (mem : i ∈ opened) : Beside imports i s s' := by
  have alone : Steps imports [i] s s' := h.mono (List.cons_subset.mpr ⟨mem, List.nil_subset _⟩)
  exact Relation.ReflTransGen.mono (fun _ _ step => .inl step) _ _ alone

end Steps

namespace Beside

theorem refl (s : ImportState n) : Beside imports i s s := Relation.ReflTransGen.refl

theorem trans (h : Beside imports i s s') (h' : Beside imports i s' s'') :
    Beside imports i s s'' := Relation.ReflTransGen.trans h h'

theorem single (h : Step imports [i] s s' ∨ ∃ status, s' = s.withStatus i status) :
    Beside imports i s s' := Relation.ReflTransGen.single h

end Beside

/-! ## The tables -/

variable {labels : NodeId → String → Prop} {directive : Directive} {name : Ident}
  {ns : Namespace} {source : ModuleId} {binding : Binding} {publicOnly : Bool}

/-- A later state: all tables have grown, and whatever was in them is there still. Definitions
    that were there have not become members of any set. -/
structure Later (labels : NodeId → String → Prop) (s s' : ImportState n) : Prop where
  passes : Passes labels (s.defs, s.tree) (s'.defs, s'.tree)
  sound : Sound labels (s'.defs, s'.tree)
  defs : s.defs.Grows s'.defs
  defs_keeps : s.defs.Keeps s'.defs
  members : ∀ {set : OverloadId} {suffix : String} {id : DefId}, s.defs.Known id →
    s'.defs.member? set suffix = some id → s.defs.member? set suffix = some id
  tree : s.tree.Grows s'.tree
  tree_keeps : s.tree.Keeps s'.tree

namespace Later

theorem refl (sound : Sound labels (s.defs, s.tree)) : Later labels s s :=
  ⟨.refl _, sound, .refl _, .refl _, fun _ mem => mem, .refl _, .refl _⟩

theorem trans (h : Later labels s s') (h' : Later labels s' s'') : Later labels s s'' :=
  ⟨h.passes.trans h'.passes, h'.sound, h.defs.trans h'.defs, h.defs_keeps.trans h'.defs_keeps,
    fun known mem => h.members known (h'.members (h.defs.known known) mem),
    h.tree.trans h'.tree, h.tree_keeps.trans h'.tree_keeps⟩

/-- What the definitions have come to is there already while names are still as they were. -/
theorem between (h : Later labels s s') (sound : Sound labels (s.defs, s.tree)) :
    Sound labels (s'.defs, s.tree) :=
  ⟨sound.intact.grow h.defs h.sound.intact.validDefs,
    sound.sorted.keeps h.defs_keeps sound.intact.validDefs h.sound.intact.validDefs
      h.sound.sorted.defs⟩

theorem notes (h : Later labels s s') (sound : Sound labels (s.defs, s.tree)) {log log' : Log}
    (noted : log.Notes (BindsNoted s s') log') : log.NotesSound labels log' := by
  apply noted.mono
  rintro _ (rfl | rfl)
  · exact h.between sound
  · exact h.sound

/-- The same tables. -/
theorem of_eq (sound : Sound labels (s.defs, s.tree)) (defs : s'.defs = s.defs)
    (tree : s'.tree = s.tree) : Later labels s s' := by
  obtain ⟨_, _, _, _⟩ := s
  obtain ⟨_, _, _, _⟩ := s'
  cases defs
  cases tree
  exact ⟨.refl _, sound, .refl _, .refl _, fun _ mem => mem, .refl _, .refl _⟩

end Later

theorem later_gains (sound : Sound labels (s.defs, s.tree)) {defs : Definitions}
    (operation : TableOperation (s.defs, s.tree) (defs, s.tree))
    (gains : Definitions.Gains labels s.defs defs)
    (members : ∀ {set : OverloadId} {suffix : String} {id : DefId}, s.defs.Known id →
      defs.member? set suffix = some id → s.defs.member? set suffix = some id) :
    Later labels s { s with defs } := by
  have sound' : Sound labels (defs, s.tree) := sound.gains gains
  exact ⟨.single operation sound', sound', gains.grows, gains.keeps, members, .refl _, .refl _⟩

theorem later_bind (sound : Sound labels (s.defs, s.tree)) {module : ModuleId} {m : Module}
    (found : s.tree.find? module = some m) (takes : ¬ (ns = .lifetime ∧ m.owner.isBlock))
    {text : String} (free : s.tree.bindingAt? module ns text = none)
    (sorted : binding.Sorted s.defs ns)
    (fresh : ∀ set, binding = .overloads set → ∀ other ns' name',
      s.tree.bindingAt? other ns' name' ≠ some (.overloads set)) :
    Later labels s { s with tree := s.tree.modify module (·.bind ns text binding) } := by
  have passes := sound.bind found takes free sorted fresh
  exact ⟨passes, passes.sound sound, .refl _, .refl _, fun _ mem => mem, ModuleTree.grows_bind,
    ModuleTree.keeps_bind free⟩

theorem later_importOverloads (sound : Sound labels (s.defs, s.tree)) {isPub : Bool}
    {node : NodeId} {source : OverloadId} {into : Option OverloadId} {publicOnly : Bool}
    {merged : OverloadId} {taken : List (String × DefId)} {defs : Definitions}
    (made : s.defs.importOverloads isPub node source into publicOnly = .ok (merged, taken, defs)) :
    Later labels s { s with defs } := by
  obtain ⟨-, gains⟩ := Yields.true_iff.mp
    (Definitions.Gains.importOverloads sound.intact.validDefs sound.sorted.defs) _ made
  obtain ⟨-, copies⟩ := Yields.true_iff.mp Definitions.importOverloads_copies _ made
  refine later_gains sound (.importOverloads made) gains fun {set suffix id} known mem => ?_
  by_cases same : set = merged
  · subst same
    rcases copies.taken suffix id mem with before | ⟨new, -⟩
    · exact before
    · exact absurd known new
  · exact (copies.others set suffix same).symm.trans mem

/-- An alias is made of what is there, and then bound. A set gets its functions before it gets its
    name. -/
theorem Outcome.later (sound : Sound labels (s.defs, s.tree)) (sorted : binding.Sorted s.defs ns)
    (home : s.tree.Known directive.module)
    (pub : publicOnly = true → isPub s.defs binding = .ok true)
    (outcome : Outcome directive ns name publicOnly s binding s') : Later labels s s' := by
  have valid := sound.intact.validDefs
  -- an alias is of the same sort as what it has been made of
  have aliasOf {target id : DefId} {defs : Definitions}
      (names : binding = .definition target ∨ binding = .imported target)
      (made : s.defs.defineAlias directive.isPub directive.node name target = .ok (id, defs)) :
      Later labels s { s with defs } ∧ Binding.Sorted defs ns (.imported id) := by
    obtain ⟨eq, gains⟩ := Yields.true_iff.mp
      (Definitions.Gains.defineAlias valid sound.sorted.defs) _ made
    refine ⟨later_gains sound (.defineAlias made) gains fun _ mem => ?_, ?_⟩
    · rw [(Prod.mk.inj eq).2] at mem
      exact mem
    have isFinally := (sorted.finallyIs names valid sound.sorted.defs).keeps gains.keeps valid
      gains.valid
    obtain ⟨rfl, rfl⟩ := Prod.mk.inj eq
    have found := Definitions.find?_push_self s.defs directive.isPub directive.node .importAlias
      name (some target)
    exact ⟨⟨_, found, rfl⟩, isFinally.through gains.valid found rfl⟩
  cases outcome with
  | refused _ _ _ => exact .refl sound
  | aliased names made found takes free =>
    obtain ⟨later, sorted'⟩ := aliasOf names made
    exact later.trans (later_bind later.sound found takes free sorted' (by rintro _ ⟨⟩))
  | aliasTaken names made taken reported =>
    exact (aliasOf names made).1.trans (.of_eq (aliasOf names made).1.sound rfl rfl)
  | joined bound made reported =>
    have later := later_importOverloads sound made
    exact later.trans (.of_eq later.sound rfl rfl)
  | blocked taken other reported => exact .of_eq sound rfl rfl
  | @opened source merged taken defs free made =>
    obtain ⟨isNew, -⟩ := Yields.true_iff.mp
      (Definitions.Gains.importOverloads valid sound.sorted.defs) _ made
    have later := later_importOverloads sound made
    obtain ⟨rfl, stocked⟩ := sorted
    -- what may be taken of the source is not nothing, so neither is the new set
    have noSet : ∀ id, (none : Option OverloadId) = some id → s.defs.Stocked id := by
      rintro _ ⟨⟩
    obtain ⟨_, made', -, -, stocked', -⟩ := Yields.false_iff.mp
      (valid.importOverloads stocked noSet pub)
    rw [made] at made'
    cases made'
    obtain ⟨m, found⟩ := home.find?
    have takes : ¬ (Namespace.value = .lifetime ∧ m.owner.isBlock) := by
      rintro ⟨lifetime, -⟩
      cases lifetime
    have fresh : ∀ set, Binding.overloads merged = .overloads set → ∀ other ns' name',
        s.tree.bindingAt? other ns' name' ≠ some (.overloads set) := by
      rintro _ ⟨⟩
      refine sound.not_bound_of_new ?_
      have isNew : merged = s.defs.newOverloads.1 := isNew
      rw [isNew]
      rfl
    exact later.trans (later_bind later.sound found takes free ⟨rfl, stocked'⟩ fresh)

theorem Brings.later (sound : Sound labels (s.defs, s.tree)) (home : s.tree.Known directive.module)
    (sorted : binding.Sorted s.defs ns) (brings : Brings directive name ns source binding s s') :
    Later labels s s' := by
  obtain @⟨inside, pub, more, within, isPub, -, outcome⟩ := brings
  have warned : Later labels s { s with diagnostics := s.diagnostics ++ more } :=
    .of_eq sound rfl rfl
  have taken : (!inside && pub) = true → Importing.isPub s.defs binding = .ok true := by
    intro only
    rw [isPub, ((Bool.and_eq_true _ _).mp only).2]
  exact warned.trans (outcome.later warned.sound sorted home taken)

/-- A directive may bring in what it has found: its module is there, and so is all of that. -/
structure Prepared (labels : NodeId → String → Prop) (directive : Directive)
    (found : List (Namespace × ModuleId × Binding)) (s : ImportState n) : Prop where
  sound : Sound labels (s.defs, s.tree)
  home : s.tree.Known directive.module
  sorted : ∀ p ∈ found, p.2.2.Sorted s.defs p.1

/-- With the first brought in it may bring in the others. -/
theorem Prepared.first {found : List (Namespace × ModuleId × Binding)}
    (h : Prepared labels directive ((ns, source, binding) :: found) s)
    (brings : Brings directive name ns source binding s s') :
    Later labels s s' ∧ Prepared labels directive found s' := by
  have later := brings.later h.sound h.home (h.sorted _ (List.mem_cons_self ..))
  refine ⟨later, later.sound, later.tree.known_iff.mpr h.home, fun p mem => ?_⟩
  exact (h.sorted p (List.mem_cons_of_mem _ mem)).keeps later.defs_keeps h.sound.intact.validDefs
    later.sound.intact.validDefs

theorem BringsAll.later {found : List (Namespace × ModuleId × Binding)}
    (brings : BringsAll directive name found s s') (prepared : Prepared labels directive found s) :
    Later labels s s' := by
  induction brings with
  | nil => exact .refl prepared.sound
  | cons first _ ih =>
    obtain ⟨later, rest⟩ := prepared.first first
    exact later.trans (ih rest)

/-! ## What steps keep -/

/-- The tables are in order, and each directive stands in one of the modules. -/
structure InOrder (labels : NodeId → String → Prop) (imports : Imports n) (s : ImportState n) :
    Prop where
  sound : Sound labels (s.defs, s.tree)
  homes : ∀ i, s.tree.Known (imports.get i).module

theorem Later.inOrder (h : Later labels s s') (inOrder : InOrder labels imports s) :
    InOrder labels imports s' :=
  ⟨h.sound, fun i => h.tree.known_iff.mpr (inOrder.homes i)⟩

namespace InOrder

theorem prepared (h : InOrder labels imports s) {target : ImportTarget} {module : ModuleId}
    {found : List (Namespace × ModuleId × Binding)}
    (finds : SingleFound imports i s target module found) :
    Prepared labels (imports.get i) found s :=
  ⟨h.sound, h.homes i, fun p mem => h.sound.sorted.bindings (finds.there p mem)⟩

theorem move (h : InOrder labels imports s) (move : Move imports i s s') : Later labels s s' := by
  cases move with
  | opens _ => exact .of_eq h.sound rfl rfl
  | fails _ _ => exact .of_eq h.sound rfl rfl
  | reads _ _ => exact .of_eq h.sound rfl rfl
  | binds _ _ finds brings =>
    have later := brings.later (h.prepared finds)
    exact later.trans (.of_eq later.sound rfl rfl)
  | spreads _ _ there _ _ _ brings =>
    exact brings.later h.sound (h.homes i) (h.sound.sorted.bindings there)

theorem step (h : InOrder labels imports s) (step : Step imports opened s s') :
    Later labels s s' := by
  cases step with
  | moves _ move => exact h.move move
  | reports _ => exact .of_eq h.sound rfl rfl

theorem path (h : InOrder labels imports s) (path : Steps imports opened s s') :
    Later labels s s' := by
  induction path with
  | refl => exact .refl h.sound
  | tail _ last ih => exact ih.trans ((ih.inOrder h).step last)

theorem beside (h : InOrder labels imports s) (beside : Beside imports i s s') :
    Later labels s s' := by
  induction beside with
  | refl => exact .refl h.sound
  | tail _ last ih =>
    have inOrder := ih.inOrder h
    rcases last with step | ⟨status, rfl⟩
    · exact ih.trans (inOrder.step step)
    · exact ih.trans (.of_eq inOrder.sound rfl rfl)

end InOrder

/-! ### Statuses -/

theorem Brings.statusOf (brings : Brings directive name ns source binding s s') :
    s'.statusOf = s.statusOf := by
  obtain ⟨-, -, -, outcome⟩ := brings
  have same := outcome.statuses
  funext j
  rw [ImportState.statusOf, same]
  rfl

theorem BringsAll.statusOf {found : List (Namespace × ModuleId × Binding)}
    (brings : BringsAll directive name found s s') : s'.statusOf = s.statusOf := by
  induction brings with
  | nil => rfl
  | cons first _ ih => exact ih.trans first.statusOf

/-- A directive decides on its own status only. -/
theorem Move.statusOf_of_ne (move : Move imports i s s') {j : Fin n} (ne : i ≠ j) :
    s'.statusOf j = s.statusOf j := by
  cases move with
  | opens _ => rw [ImportState.statusOf_withStatus, if_neg ne]
  | fails _ _ => rw [ImportState.statusOf_withStatus, if_neg ne]
  | reads _ _ => rw [ImportState.statusOf_withStatus, if_neg ne]
  | binds _ _ _ brings => rw [ImportState.statusOf_withStatus, if_neg ne, brings.statusOf]
  | spreads _ _ _ _ _ _ brings => rw [brings.statusOf]

/-- Once it has come to its end that is its status. -/
theorem Move.statusOf_of_finished (move : Move imports i s s') {j : Fin n}
    (finished : s.Finished j) : s'.statusOf j = s.statusOf j := by
  by_cases same : i = j
  · subst same
    cases move with
    | opens pending => exact absurd pending finished.1
    | fails inProgress _ => exact absurd inProgress finished.2
    | reads inProgress _ => exact absurd inProgress finished.2
    | binds inProgress _ _ _ => exact absurd inProgress finished.2
    | spreads _ _ _ _ _ _ brings => rw [brings.statusOf]
  · exact move.statusOf_of_ne same

/-- Whoever is in progress and makes a move has come to its end. -/
theorem Move.finished (move : Move imports i s s') (inProgress : s.statusOf i = .inProgress) :
    s'.Finished i := by
  cases move with
  | opens pending => rw [inProgress] at pending; cases pending
  | fails _ failed =>
    rcases failed with rfl | rfl
    · exact ImportState.finished_withStatus (by simp) (by simp)
    · exact ImportState.finished_withStatus (by simp) (by simp)
  | reads _ _ => exact ImportState.finished_withStatus (by simp) (by simp)
  | binds _ _ _ _ => exact ImportState.finished_withStatus (by simp) (by simp)
  | spreads _ done _ _ _ _ _ => rw [inProgress] at done; cases done

/-- Who has failed does nothing any more. -/
theorem Move.not_failed (move : Move imports i s s') : s.statusOf i ≠ .failed := by
  intro failed
  cases move with
  | opens pending => rw [failed] at pending; cases pending
  | fails inProgress _ => rw [failed] at inProgress; cases inProgress
  | reads inProgress _ => rw [failed] at inProgress; cases inProgress
  | binds inProgress _ _ _ => rw [failed] at inProgress; cases inProgress
  | spreads _ done _ _ _ _ _ => rw [failed] at done; cases done

theorem Steps.statusOf_of_finished (path : Steps imports opened s s') {j : Fin n}
    (finished : s.Finished j) : s'.statusOf j = s.statusOf j := by
  induction path with
  | refl => rfl
  | tail _ last ih =>
    have finished' := finished
    unfold ImportState.Finished at finished'
    rw [← ih] at finished' ⊢
    cases last with
    | moves _ move => exact move.statusOf_of_finished finished'
    | reports _ => rfl

theorem Steps.finished (path : Steps imports opened s s') {j : Fin n} (finished : s.Finished j) :
    s'.Finished j := by
  unfold ImportState.Finished at *
  rw [path.statusOf_of_finished finished]
  exact finished

theorem Steps.settled (path : Steps imports opened s s') {module : ModuleId} {text : String}
    (settled : Settled imports s i module text) : Settled imports s' i module text :=
  fun j slot ne => path.finished (settled j slot ne)

theorem AllSettled.steps {module : ModuleId} {text : String}
    (settled : AllSettled imports s module text) (path : Steps imports opened s s') :
    AllSettled imports s' module text := fun j slot => path.finished (settled j slot)

theorem Beside.settled (beside : Beside imports i s s') {module : ModuleId} {text : String}
    (settled : Settled imports s i module text) : Settled imports s' i module text := by
  induction beside with
  | refl => exact settled
  | tail _ last ih =>
    rcases last with step | ⟨status, rfl⟩
    · exact (Steps.single step).settled ih
    · intro j slot ne
      have finished := ih j slot ne
      unfold ImportState.Finished at finished ⊢
      rw [ImportState.statusOf_withStatus, if_neg ne.symm]
      exact finished

/-! ### Diagnostics -/

theorem Brings.diagnostics (brings : Brings directive name ns source binding s s') :
    ∃ more, s'.diagnostics = s.diagnostics ++ more := by
  obtain ⟨-, -, -, outcome⟩ := brings
  obtain ⟨more, eq⟩ := outcome.diagnostics
  exact ⟨_, eq.trans (List.append_assoc ..)⟩

theorem BringsAll.diagnostics {found : List (Namespace × ModuleId × Binding)}
    (brings : BringsAll directive name found s s') :
    ∃ more, s'.diagnostics = s.diagnostics ++ more := by
  induction brings with
  | nil => exact ⟨[], (List.append_nil _).symm⟩
  | cons first _ ih =>
    obtain ⟨more, eq⟩ := first.diagnostics
    obtain ⟨later, eq'⟩ := ih
    exact ⟨more ++ later, by rw [eq', eq, List.append_assoc]⟩

theorem Move.diagnostics (move : Move imports i s s') :
    ∃ more, s'.diagnostics = s.diagnostics ++ more := by
  cases move with
  | opens _ => exact ⟨[], (List.append_nil _).symm⟩
  | fails _ _ => exact ⟨[], (List.append_nil _).symm⟩
  | reads _ _ => exact ⟨[], (List.append_nil _).symm⟩
  | binds _ _ _ brings => exact brings.diagnostics
  | spreads _ _ _ _ _ _ brings => exact brings.diagnostics

theorem Step.diagnostics (step : Step imports opened s s') :
    ∃ more, s'.diagnostics = s.diagnostics ++ more := by
  cases step with
  | moves _ move => exact move.diagnostics
  | reports _ => exact ⟨_, rfl⟩

/-- Diagnostics are only ever added. -/
theorem Steps.diagnostics (path : Steps imports opened s s') :
    ∃ more, s'.diagnostics = s.diagnostics ++ more := by
  induction path with
  | refl => exact ⟨[], (List.append_nil _).symm⟩
  | tail _ last ih =>
    obtain ⟨more, eq⟩ := ih
    obtain ⟨later, eq'⟩ := last.diagnostics
    exact ⟨more ++ later, by rw [eq', eq, List.append_assoc]⟩

theorem Steps.hasErrors (path : Steps imports opened s s')
    (errors : hasErrors s.diagnostics = true) : hasErrors s'.diagnostics = true := by
  obtain ⟨more, eq⟩ := path.diagnostics
  rw [eq, hasErrors_append, errors, Bool.true_or]

/-! ### Names -/

/-- A directive binds one name only, in its own module. -/
theorem Brings.bound_or (brings : Brings directive name ns source binding s s')
    {module : ModuleId} {ns' : Namespace} {text : String} {binding' : Binding}
    (bound : s'.tree.bindingAt? module ns' text = some binding') :
    s.tree.bindingAt? module ns' text = some binding' ∨
      module = directive.module ∧ text = name.name := by
  obtain ⟨-, -, -, outcome⟩ := brings
  have bind {ns₁ : Namespace} {binding₁ : Binding}
      (bound : (s.tree.modify directive.module (·.bind ns₁ name.name binding₁)).bindingAt?
        module ns' text = some binding') :
      s.tree.bindingAt? module ns' text = some binding' ∨
        module = directive.module ∧ text = name.name := by
    rcases ModuleTree.bound_or_of_bind bound with ⟨same, -⟩ | before
    · cases same
      exact .inr ⟨rfl, rfl⟩
    · exact .inl before
  cases outcome with
  | aliased _ _ _ _ _ => exact bind bound
  | opened _ _ => exact bind bound
  | refused _ _ _ => exact .inl bound
  | aliasTaken _ _ _ _ => exact .inl bound
  | joined _ _ _ => exact .inl bound
  | blocked _ _ _ => exact .inl bound

theorem BringsAll.bound_or {found : List (Namespace × ModuleId × Binding)}
    (brings : BringsAll directive name found s s') {module : ModuleId} {ns' : Namespace}
    {text : String} {binding' : Binding}
    (bound : s'.tree.bindingAt? module ns' text = some binding') :
    s.tree.bindingAt? module ns' text = some binding' ∨
      module = directive.module ∧ text = name.name := by
  induction brings with
  | nil => exact .inl bound
  | cons first _ ih =>
    rcases ih bound with before | here
    · exact first.bound_or before
    · exact .inr here

/-- A name is bound by a single import that was in progress, or by a glob after all single imports
    that would bind it. -/
theorem Move.bound_or (move : Move imports i s s') {module : ModuleId} {ns' : Namespace}
    {text : String} {binding' : Binding}
    (bound : s'.tree.bindingAt? module ns' text = some binding') :
    s.tree.bindingAt? module ns' text = some binding' ∨
      (s.statusOf i = .inProgress ∧ (imports.get i).slot? = some (module, text)) ∨
      ((imports.get i).isGlob = true ∧ (imports.get i).module = module ∧
        Settled imports s i module text) := by
  cases move with
  | opens _ => exact .inl bound
  | fails _ _ => exact .inl bound
  | reads _ _ => exact .inl bound
  | binds inProgress hasTarget _ brings =>
    rcases brings.bound_or bound with before | ⟨rfl, rfl⟩
    · exact .inl before
    · exact .inr (.inl ⟨inProgress, by rw [Directive.slot?, hasTarget, Option.map_some]⟩)
  | spreads isGlob _ _ _ settled _ brings =>
    rcases brings.bound_or bound with before | ⟨rfl, rfl⟩
    · exact .inl before
    · exact .inr (.inr ⟨isGlob, rfl, settled⟩)

/-! ### What is bound to a free name -/

/-- What an import makes of something it has found: an alias, or a set with copies of functions. -/
inductive MadeOf (node : NodeId) (publicOnly : Bool) (defs defs' : Definitions) :
    Binding → Binding → Prop where
  | alias' {binding : Binding} {target id : DefId}
      (names : binding = .definition target ∨ binding = .imported target)
      (made : defs'.AliasAt node id target) (new : ¬ defs.Known id) :
      MadeOf node publicOnly defs defs' binding (.imported id)
  | copies {g f : OverloadId} (copies : Definitions.Copies node g f publicOnly defs defs')
      (empty : ∀ suffix, defs.member? f suffix = none) :
      MadeOf node publicOnly defs defs' (.overloads g) (.overloads f)

/-- A name that was free before is bound to what the import has made. -/
theorem Outcome.made (outcome : Outcome directive ns name publicOnly s binding s')
    (sorted : binding.Sorted s.defs ns)
    {module : ModuleId} {ns' : Namespace} {text : String} {binding' : Binding}
    (bound : s'.tree.bindingAt? module ns' text = some binding') :
    s.tree.bindingAt? module ns' text = some binding' ∨
      (module, ns', text) = (directive.module, ns, name.name) ∧
        s.tree.bindingAt? module ns' text = none ∧
        MadeOf directive.node publicOnly s.defs s'.defs binding binding' := by
  cases outcome with
  | refused _ _ _ => exact .inl bound
  | aliasTaken _ _ _ _ => exact .inl bound
  | joined _ _ _ => exact .inl bound
  | blocked _ _ _ => exact .inl bound
  | @aliased _ target _ _ _ names made _ _ free =>
    rcases ModuleTree.bound_or_of_bind bound with ⟨same, rfl⟩ | before
    · cases same
      obtain ⟨isAlias, isNew, -⟩ := Definitions.aliasAt_of_defineAlias made
      exact .inr ⟨rfl, free, .alias' names isAlias isNew⟩
    · exact .inl before
  | @opened _ merged _ _ free made =>
    obtain ⟨rfl, -⟩ := sorted
    rcases ModuleTree.bound_or_of_bind bound with ⟨same, rfl⟩ | before
    · cases same
      obtain ⟨isNew, copies⟩ := Yields.true_iff.mp Definitions.importOverloads_copies _ made
      have isNew : merged = s.defs.newOverloads.1 := isNew
      have empty : ∀ suffix, s.defs.member? merged suffix = none :=
        Definitions.member?_of_new (by rw [isNew]; rfl)
      exact .inr ⟨rfl, free, .copies copies empty⟩
    · exact .inl before

theorem Brings.made (brings : Brings directive name ns source binding s s')
    (sorted : binding.Sorted s.defs ns)
    {module : ModuleId} {ns' : Namespace} {text : String} {binding' : Binding}
    (bound : s'.tree.bindingAt? module ns' text = some binding') :
    s.tree.bindingAt? module ns' text = some binding' ∨
      (module, ns', text) = (directive.module, ns, name.name) ∧
        s.tree.bindingAt? module ns' text = none ∧
        ∃ inside pub, s.tree.isWithin directive.module source = .ok inside ∧
          isPub s.defs binding = .ok pub ∧
          MadeOf directive.node (!inside && pub) s.defs s'.defs binding binding' := by
  obtain @⟨inside, pub, _, within, isPub, -, outcome⟩ := brings
  rcases outcome.made sorted bound with before | ⟨same, free, made⟩
  · exact .inl before
  · exact .inr ⟨same, free, inside, pub, within, isPub, made⟩

theorem MadeOf.madeAt {node : NodeId} {defs defs' : Definitions} {ns' : Namespace}
    {binding' : Binding} (h : MadeOf node publicOnly defs defs' binding binding')
    (good : binding'.Good defs' ns') : binding'.MadeAt defs' node := by
  cases h with
  | alias' _ made _ => exact ⟨_, made⟩
  | copies copies empty =>
    -- the set has only just been made, so whatever is in it has come from here
    obtain ⟨suffix, id, mem⟩ := Definitions.stocked_iff.mp good.1
    rcases copies.taken suffix id mem with before | ⟨-, target, made, -⟩
    · rw [empty] at before
      cases before
    · exact ⟨suffix, id, target, mem, made⟩

/-- What a glob binds it has made at its node. -/
theorem Move.madeAt (move : Move imports i s s') (isGlob : (imports.get i).isGlob = true)
    (inOrder : InOrder labels imports s) {module : ModuleId} {ns' : Namespace}
    {text : String} {binding' : Binding}
    (bound : s'.tree.bindingAt? module ns' text = some binding')
    (free : s.tree.bindingAt? module ns' text = none) :
    binding'.MadeAt s'.defs (imports.get i).node := by
  have before {P : Prop} (bound : s.tree.bindingAt? module ns' text = some binding') : P := by
    rw [free] at bound
    cases bound
  have good := (inOrder.move move).sound.intact.bindings bound
  cases move with
  | opens _ => exact before bound
  | fails _ _ => exact before bound
  | reads _ _ => exact before bound
  | binds _ hasTarget _ _ =>
    rw [Import.isGlob_of_target? hasTarget] at isGlob
    cases isGlob
  | spreads _ _ there _ _ _ brings =>
    rcases brings.made (inOrder.sound.sorted.bindings there) bound with
      earlier | ⟨-, -, _, _, -, -, made⟩
    · exact before earlier
    · exact made.madeAt good

/-- Where nobody else may still bind a name that is free, only a glob can bring it in. -/
theorem Beside.broughtIn (beside : Beside imports i s s') (inOrder : InOrder labels imports s)
    {module : ModuleId} {ns' : Namespace} {text : String}
    (settled : Settled imports s i module text)
    (free : s.tree.bindingAt? module ns' text = none) {binding' : Binding}
    (bound : s'.tree.bindingAt? module ns' text = some binding') :
    BroughtIn imports s'.defs module binding' := by
  induction beside with
  | refl =>
    rw [free] at bound
    cases bound
  | @tail s₁ s₂ before last ih =>
    have inOrder₁ := (inOrder.beside before).inOrder inOrder
    have later := inOrder₁.beside (Beside.single last)
    cases earlier : s₁.tree.bindingAt? module ns' text with
    | some binding₁ =>
      -- whatever is bound already stays so, with all that has been made of it
      rw [later.tree_keeps.bound earlier] at bound
      cases bound
      obtain ⟨j, isGlob, home, made⟩ := ih earlier
      exact ⟨j, isGlob, home, made.keeps later.defs_keeps⟩
    | none =>
      have not_before : s₁.tree.bindingAt? module ns' text ≠ some binding' := by
        rw [earlier]
        simp
      rcases last with step | ⟨status, rfl⟩
      · cases step with
        | @moves j _ other move =>
          have ne : j ≠ i := by simpa using other
          rcases move.bound_or bound with before' | ⟨inProgress, slot⟩ | ⟨isGlob, home, -⟩
          · exact absurd before' not_before
          · exact absurd inProgress ((Beside.settled before settled) j slot ne).2
          · exact ⟨j, isGlob, home, move.madeAt isGlob inOrder₁ bound earlier⟩
        | reports _ => exact absurd bound not_before
      · exact absurd bound not_before

/-! ### What has been found -/

theorem Missing.beside {module : ModuleId} {ns' : Namespace} {text : String}
    (h : Missing imports i s module ns' text) (inOrder : InOrder labels imports s)
    (beside : Beside imports i s s') : Missing imports i s' module ns' text := by
  refine ⟨beside.settled h.settled, fun binding' bound => ?_⟩
  cases before : s.tree.bindingAt? module ns' text with
  | none => exact beside.broughtIn inOrder h.settled before bound
  | some earlier =>
    have later := inOrder.beside beside
    rw [later.tree_keeps.bound before] at bound
    obtain ⟨j, isGlob, home, made⟩ := h.broughtIn earlier before
    cases bound
    exact ⟨j, isGlob, home, made.keeps later.defs_keeps⟩

theorem FoundAmong.beside {ns' : Namespace} {text : String} {modules : List ModuleId}
    {found : Option (ModuleId × Binding)} (h : FoundAmong imports i s ns' text modules found)
    (inOrder : InOrder labels imports s) (beside : Beside imports i s s') :
    FoundAmong imports i s' ns' text modules found := by
  induction h with
  | nowhere => exact .nowhere
  | here bound => exact .here ((inOrder.beside beside).tree_keeps.bound bound)
  | further missing _ ih => exact .further (missing.beside inOrder beside) ih

/-- What a single definition stands for in the end. -/
theorem exists_definitionOf {defs : Definitions} {target : DefId} (valid : defs.Valid)
    (wellSorted : defs.WellSorted labels) (sorted : binding.Sorted defs ns)
    (names : binding = .definition target ∨ binding = .imported target) :
    ∃ final, definitionOf defs binding = .ok final ∧ defs.Names target final := by
  rcases names with rfl | rfl
  · have isSorted := sorted
    obtain ⟨d, found, -⟩ := sorted
    exact ⟨target, rfl, .itself found (isSorted.noTarget wellSorted found)⟩
  · obtain ⟨final, -, resolved, -⟩ := sorted.2
    have known := sorted.2.known
    refine ⟨final, ?_, (valid.resolveAlias_iff known).mp resolved⟩
    rw [definitionOf, resolved]
    rfl

/-- An alias stands for what its target stands for. -/
theorem names_of_aliasAt {defs : Definitions} {node : NodeId} {id target final : DefId}
    (valid : defs.Valid) (made : defs.AliasAt node id target) (names : defs.Names target final) :
    defs.resolveAlias id = .ok final := by
  obtain ⟨d, found, -, isTarget⟩ := made
  exact (valid.resolveAlias_iff (Definitions.known_of_find? found)).mpr
    (.through found isTarget names)

/-- In the end an alias and what it has been made of stand for one definition. -/
theorem exists_definitionOf_alias {defs : Definitions} {node : NodeId} {id target : DefId}
    (valid : defs.Valid) (wellSorted : defs.WellSorted labels) (sorted : binding.Sorted defs ns)
    (names : binding = .definition target ∨ binding = .imported target)
    (made : defs.AliasAt node id target) :
    ∃ final, defs.Known final ∧ definitionOf defs binding = .ok final ∧
      definitionOf defs (.imported id) = .ok final := by
  obtain ⟨final, stands, namesFinal⟩ := exists_definitionOf valid wellSorted sorted names
  refine ⟨final, namesFinal.known_final, stands, ?_⟩
  rw [definitionOf, names_of_aliasAt valid made namesFinal]
  rfl

theorem later_definitionOf (sound : Sound labels (s.defs, s.tree)) (later : Later labels s s')
    (good : binding.Good s.defs ns) {id : DefId} (got : definitionOf s.defs binding = .ok id) :
    definitionOf s'.defs binding = .ok id := by
  cases binding with
  | definition target => exact got
  | imported target =>
    have same : s'.defs.resolveAlias target = s.defs.resolveAlias target :=
      later.defs_keeps.resolveAlias sound.intact.validDefs later.sound.intact.validDefs good
    rw [definitionOf, same]
    exact got
  | overloads set => cases got

theorem LeadsTo.later {next : ModuleId} (h : LeadsTo s binding next)
    (sound : Sound labels (s.defs, s.tree)) (later : Later labels s s')
    (good : binding.Good s.defs .type) : LeadsTo s' binding next := by
  obtain ⟨id, got, held⟩ := h
  refine ⟨id, later_definitionOf sound later good got, ?_⟩
  rw [later.defs.module?]
  exact held

theorem OuterMod.later {module next : ModuleId} (h : OuterMod s module next)
    (later : Later labels s s') : OuterMod s' module next := by
  obtain ⟨current, m, parent, enclosing, got, inside, outer⟩ := h
  obtain ⟨names, found⟩ := later.tree.module (ModuleTree.find?_of_get got)
  exact ⟨current, _, parent, later.tree.enclosingMod later.defs_keeps enclosing,
    ModuleTree.get_of_find? found, inside, later.tree.enclosingMod later.defs_keeps outer⟩

/-- The way of a path that has been followed stays open. -/
theorem Arrives.beside {position : PathPosition} {module final : ModuleId}
    {segments : List Segment} (h : Arrives imports i s position module segments final)
    (inOrder : InOrder labels imports s) (beside : Beside imports i s s') :
    Arrives imports i s' position module segments final := by
  have later := inOrder.beside beside
  have good {module : ModuleId} {text : String} {binding : Binding}
      (bound : s.tree.bindingAt? module .type text = some binding) : binding.Good s.defs .type :=
    inOrder.sound.intact.bindings bound
  induction h with
  | here => exact .here
  | selfModule isSelf enclosing _ ih =>
    exact .selfModule isSelf (later.tree.enclosingMod later.defs_keeps enclosing) ih
  | super isSuper before outer _ ih => exact .super isSuper before (outer.later later) ih
  | outward isName among leadsTo _ ih =>
    have leadsTo' := leadsTo.later inOrder.sound later (good (among.bound rfl).2)
    have among' := among.beside inOrder beside
    rw [← later.tree.around] at among'
    exact .outward isName among' leadsTo' ih
  | member isName behind bound leadsTo _ ih =>
    exact .member isName behind (later.tree_keeps.bound bound)
      (leadsTo.later inOrder.sound later (good bound)) ih

end Importing

end NameResolution
